import Ps3emu.Library.FlatMemory
import Ps3emu.Library.Sse

/-
  `fast_endian_reverse` on arrays: whole lines are shuffled,
  and the elements that remain are reversed one by one.

  Key definitions include:
    * `ElementSize`
    * `fastEndianReverse`
    * `Reverses`

  Key theorems include:
    * `reverseLine_image`, `reverseElement_image`
    * `fastEndianReverse_eq`
    * `endianReverse_reverses_iff`
-/

------------------------------------------------------------
-- The Function and Its Purpose
------------------------------------------------------------

namespace Ps3emu

namespace EndianReverse

open Lanes Sse

/- `static_assert(Size == 2 || Size == 4)`. -/
inductive ElementSize where
  | two | four
deriving DecidableEq

def ElementSize.bytes : ElementSize → Nat
  | .two => 2
  | .four => 4

def mask16 : List (BitVec 8) :=
  [30, 31, 28, 29, 26, 27, 24, 25,
    22, 23, 20, 21, 18, 19, 16, 17,
    14, 15, 12, 13, 10, 11, 8, 9,
    6, 7, 4, 5, 2, 3, 0, 1]

def mask32 : List (BitVec 8) :=
  [28, 29, 30, 31, 24, 25, 26, 27,
    20, 21, 22, 23, 16, 17, 18, 19,
    12, 13, 14, 15, 8, 9, 10, 11,
    4, 5, 6, 7, 0, 1, 2, 3]

def mask : ElementSize → M256
  | .two => set256Epi8 mask16
  | .four => set256Epi8 mask32

/- The addresses of a range. -/
def Within (base : BitVec 64) (n : Nat) (x : BitVec 64) : Prop :=
  (x - base).toNat < n

instance (base : BitVec 64) (n : Nat) (x : BitVec 64) :
    Decidable (Within base n x) :=
  inferInstanceAs (Decidable (_ < _))

variable (valid : BitVec 64 → Prop) [DecidablePred valid]

/- An access faults unless it is inside the valid bytes. -/
def load
    (f : FlatMemory 64)
    (p : BitVec 64)
    (n : Nat) : Option (List Byte) :=
  if ∀ i < n, valid (p + BitVec.ofNat 64 i) then
    some (f.get p n)
  else none

def store
    (f : FlatMemory 64)
    (p : BitVec 64)
    (bytes : List Byte) : Option (FlatMemory 64) :=
  if ∀ i < bytes.length, valid (p + BitVec.ofNat 64 i) then
    some (f.set p bytes)
  else none

variable (size : ElementSize) (dest src : BitVec 64)

/- `_mm256_lddqu_si256`, the shuffle, and the store. -/
def reverseLine
    (f : FlatMemory 64)
    (i : Nat) : Option (FlatMemory 64) :=
  (load valid f (src + BitVec.ofNat 64 (i * 32)) 32).bind
    (fun val =>
      let res :=
        shuffle256Epi8 (Bytes.ofLittleEndian 32 val) (mask size)
      store valid f (dest + BitVec.ofNat 64 (i * 32))
        (@Bytes.littleEndian 32 res))

/- `fast_endian_reverse` of a `uint16_t` or a `uint32_t`. -/
def reverseElement
    (f : FlatMemory 64)
    (i : Nat) : Option (FlatMemory 64) :=
  (load valid f (src + BitVec.ofNat 64 i) size.bytes).bind
    (fun val =>
      store valid f (dest + BitVec.ofNat 64 i)
        (Bytes.littleEndian
          (Bytes.reverseWord
            (Bytes.ofLittleEndian size.bytes val))))

/- `for (...; i < count * Size; i += Size)`. -/
def elementLoop
    (total : Nat) :
    Nat → Nat → FlatMemory 64 → Option (FlatMemory 64)
  | 0, i, f => if i < total then none else some f
  | n + 1, i, f =>
      if i < total then
        (reverseElement valid size dest src f i).bind (fun f =>
          elementLoop total n (i + size.bytes) f)
      else some f

/- `count * Size`, of type `unsigned`. -/
def byteCount (count : BitVec 32) : Nat :=
  (count * BitVec.ofNat 32 size.bytes).toNat

def fastEndianReverse
    (count : BitVec 32)
    (f : FlatMemory 64) : Option (FlatMemory 64) :=
  let total := byteCount size count
  let lineCount := total / 32
  ((List.range lineCount).foldlM
      (reverseLine valid size dest src) f).bind (fun f =>
    elementLoop valid size dest src total total
      (lineCount * 32) f)

/-
  The elements are reversed, and nothing outside the two
  ranges is read or written.
-/
def Reverses
    (count : BitVec 32)
    (f : FlatMemory 64) : Prop :=
  let n := count.toNat * size.bytes
  ∃ g,
    fastEndianReverse (fun x => Within dest n x ∨ Within src n x)
          size dest src count f =
        some g ∧
      (∀ k < count.toNat,
        g.get (dest + BitVec.ofNat 64 (k * size.bytes))
            size.bytes =
          (f.get (src + BitVec.ofNat 64 (k * size.bytes))
            size.bytes).reverse) ∧
        ∀ x, ¬ Within dest n x → g x = f x

/- Where a byte of the result comes from. -/
def reversedIndex (i : Nat) : Nat :=
  size.bytes * (i / size.bytes) +
    (size.bytes - 1 - i % size.bytes)

------------------------------------------------------------
-- Lines and Elements
------------------------------------------------------------

open Lanes Sse

variable {valid : BitVec 64 → Prop} [DecidablePred valid]
variable {size : ElementSize}
variable {dest src : BitVec 64} {f : FlatMemory 64}

theorem bytes_pos (size : ElementSize) : 0 < size.bytes := by
  cases size <;> decide

theorem bytes_dvd (size : ElementSize) : size.bytes ∣ 32 := by
  cases size <;> decide

variable {i : Nat}

/- A reversed index is in the same element. -/
theorem reversedIndex_add
    (k : Nat)
    (hI : i < size.bytes) :
    reversedIndex size (k * size.bytes + i) =
      k * size.bytes + (size.bytes - 1 - i) := by
  rw [reversedIndex, Nat.mul_comm k,
    Nat.mul_add_div (bytes_pos size), Nat.mul_add_mod,
    Nat.div_eq_of_lt hI, Nat.mod_eq_of_lt hI, Nat.add_zero]

theorem reversedIndex_line
    (size : ElementSize)
    (n i : Nat) :
    reversedIndex size (n * 32 + i) =
      n * 32 + reversedIndex size i := by
  cases size <;>
    simp only [reversedIndex, ElementSize.bytes] <;> omega

theorem reversedIndex_lt
    (size : ElementSize)
    (hI : i < 32) :
    reversedIndex size i < 32 := by
  cases size <;>
    simp only [reversedIndex, ElementSize.bytes] <;> omega

/- What the masks select. -/
theorem select_mask
    (size : ElementSize)
    (hI : i < 32) :
    (lane 8 (mask size) i).msb = false ∧
      16 * (i / 16) + (lane 8 (mask size) i &&& 15#8).toNat =
        reversedIndex size i := by
  cases size with
  | two =>
      rw [mask, lane_set256Epi8 _ hI]
      revert hI
      revert i
      decide
  | four =>
      rw [mask, lane_set256Epi8 _ hI]
      revert hI
      revert i
      decide

/- Byte `i` of a shuffled line. -/
theorem getD_shuffle
    {val : List Byte}
    (hVal : val.length = 32)
    (hI : i < 32) :
    (@Bytes.littleEndian 32
        (shuffle256Epi8 (Bytes.ofLittleEndian 32 val)
          (mask size))).getD i 0 =
      val.getD (reversedIndex size i) 0 := by
  rcases select_mask size hI with ⟨hMsb, hIndex⟩
  have hLt := reversedIndex_lt size hI
  have hByte :=
    Bytes.getElem?_littleEndian (Bytes.ofLittleEndian 32 val)
      hLt
  rw [Bytes.littleEndian_ofLittleEndian val hVal] at hByte
  have hLane :=
    lane_shuffle256Epi8 (Bytes.ofLittleEndian 32 val)
      (mask size) hI
  rw [hMsb, if_neg Bool.false_ne_true, hIndex] at hLane
  rw [List.getD_eq_getElem?_getD, List.getD_eq_getElem?_getD,
    hByte, @Bytes.getElem?_littleEndian 32 _ i hI]
  exact hLane

/- Two ranges that may be used. -/
structure Buffers
    (valid : BitVec 64 → Prop)
    (dest src : BitVec 64)
    (total : Nat) : Prop where
  apart : FlatMemory.Apart dest src total
  fits : total < 2 ^ 64
  readable : ∀ i < total, valid (src + BitVec.ofNat 64 i)
  writable : ∀ i < total, valid (dest + BitVec.ofNat 64 i)

namespace Buffers

variable {total : Nat} (hBuffers : Buffers valid dest src total)

include hBuffers

/- What is read next is still as it was. -/
theorem load_image
    {source : Nat → Nat}
    {n m : Nat}
    (hTotal : n + m ≤ total) :
    load valid (f.image dest src source n)
        (src + BitVec.ofNat 64 n) m =
      some (f.get (src + BitVec.ofNat 64 n) m) := by
  have hValid :
      ∀ i < m,
        valid (src + BitVec.ofNat 64 n + BitVec.ofNat 64 i) := by
    intro i hI
    rw [BitVec.add_assoc, ← BitVec.ofNat_add]
    exact hBuffers.readable (n + i) (by omega)
  rw [load, if_pos hValid,
    FlatMemory.get_image hBuffers.apart hTotal hBuffers.fits]

theorem store_image
    {source : Nat → Nat}
    {n : Nat}
    {bytes : List Byte}
    (hTotal : n + bytes.length ≤ total)
    (hBytes :
      ∀ i < bytes.length,
        bytes.getD i 0 =
          f (src + BitVec.ofNat 64 (source (n + i)))) :
    store valid (f.image dest src source n)
        (dest + BitVec.ofNat 64 n) bytes =
      some (f.image dest src source (n + bytes.length)) := by
  have hFits := hBuffers.fits
  have hValid :
      ∀ i < bytes.length,
        valid
          (dest + BitVec.ofNat 64 n + BitVec.ofNat 64 i) := by
    intro i hI
    rw [BitVec.add_assoc, ← BitVec.ofNat_add]
    exact hBuffers.writable (n + i) (by omega)
  rw [store, if_pos hValid,
    FlatMemory.set_image (by omega) hBytes]

/- A line more of the image. -/
theorem reverseLine_image
    {i : Nat}
    (hTotal : (i + 1) * 32 ≤ total) :
    reverseLine valid size dest src
        (f.image dest src (reversedIndex size) (i * 32)) i =
      some
        (f.image dest src (reversedIndex size)
          ((i + 1) * 32)) := by
  have hLength :
      (f.get (src + BitVec.ofNat 64 (i * 32)) 32).length = 32 :=
    FlatMemory.length_get _ _ _
  have hEnd : (i + 1) * 32 = i * 32 + 32 := Nat.succ_mul i 32
  rw [reverseLine, hBuffers.load_image (by omega),
    Option.bind_some, hBuffers.store_image]
  · rw [Bytes.length_littleEndian, hEnd]
  · rw [Bytes.length_littleEndian]
    omega
  · intro j hJ
    rw [Bytes.length_littleEndian] at hJ
    rw [getD_shuffle hLength hJ,
      FlatMemory.getD_get _ _ (reversedIndex_lt size hJ),
      reversedIndex_line, BitVec.ofNat_add, BitVec.add_assoc]

/- An element more. -/
theorem reverseElement_image
    {k : Nat}
    (hTotal : (k + 1) * size.bytes ≤ total) :
    reverseElement valid size dest src
        (f.image dest src (reversedIndex size)
          (k * size.bytes))
        (k * size.bytes) =
      some
        (f.image dest src (reversedIndex size)
          ((k + 1) * size.bytes)) := by
  have hEnd :
      (k + 1) * size.bytes = k * size.bytes + size.bytes :=
    Nat.succ_mul k size.bytes
  have hLength :=
    FlatMemory.length_get f
      (src + BitVec.ofNat 64 (k * size.bytes)) size.bytes
  rw [reverseElement, hBuffers.load_image (by omega),
    Option.bind_some, Bytes.littleEndian_reverseWord,
    Bytes.bigEndian, Bytes.littleEndian_ofLittleEndian _ hLength,
    hBuffers.store_image]
  · rw [List.length_reverse, hLength, hEnd]
  · rw [List.length_reverse, hLength]
    omega
  · intro j hJ
    rw [List.length_reverse, hLength] at hJ
    have hIndex : size.bytes - 1 - j < size.bytes := by omega
    rw [List.getD_eq_getElem?_getD,
      List.getElem?_reverse (by omega), hLength,
      ← List.getD_eq_getElem?_getD, FlatMemory.getD_get _ _ hIndex,
      reversedIndex_add k hJ, BitVec.ofNat_add,
      BitVec.add_assoc]

/- The lines, one after another. -/
theorem reverseLines_image
    {n : Nat}
    (hTotal : n * 32 ≤ total) :
    (List.range n).foldlM (reverseLine valid size dest src) f =
      some
        (f.image dest src (reversedIndex size) (n * 32)) := by
  induction n with
  | zero =>
      rw [Nat.zero_mul, FlatMemory.image_zero]
      rfl
  | succ n ih =>
      rw [List.range_succ, List.foldlM_append, ih (by omega)]
      change
        (reverseLine valid size dest src _ n).bind some = _
      rw [hBuffers.reverseLine_image hTotal]
      rfl

/- The elements that remain, as far as there is fuel. -/
theorem elementLoop_image
    {n k m : Nat}
    (hTotal : m * size.bytes = total)
    (hK : k ≤ m)
    (hFuel : m - k ≤ n) :
    elementLoop valid size dest src total n (k * size.bytes)
        (f.image dest src (reversedIndex size)
          (k * size.bytes)) =
      some
        (f.image dest src (reversedIndex size) total) := by
  have hPos := bytes_pos size
  induction n generalizing k with
  | zero =>
      obtain rfl : k = m := by omega
      rw [elementLoop, hTotal, if_neg (Nat.lt_irrefl _)]
  | succ n ih =>
      rw [elementLoop]
      rcases Nat.lt_or_eq_of_le hK with hLt | rfl
      · have hMore : k * size.bytes < total := by
          rw [← hTotal]
          exact Nat.mul_lt_mul_of_pos_right hLt hPos
        have hNext : (k + 1) * size.bytes ≤ total := by
          rw [← hTotal]
          exact Nat.mul_le_mul_right _ hLt
        rw [if_pos hMore, hBuffers.reverseElement_image hNext,
          Option.bind_some, ← Nat.succ_mul]
        exact ih hLt (by omega)
      · rw [hTotal, if_neg (Nat.lt_irrefl _)]

end Buffers

theorem byteCount_eq
    (size : ElementSize)
    (count : BitVec 32) :
    byteCount size count = count.toNat * size.bytes % 2 ^ 32 := by
  have hSize :
      (BitVec.ofNat 32 size.bytes).toNat = size.bytes := by
    cases size <;> rfl
  rw [byteCount, BitVec.toNat_mul, hSize]

/- The count of bytes is a whole number of elements. -/
theorem byteCount_eq_mul
    (size : ElementSize)
    (count : BitVec 32) :
    byteCount size count / size.bytes * size.bytes =
      byteCount size count := by
  have hPow : size.bytes ∣ 2 ^ 32 := by
    cases size <;> decide
  apply Nat.div_mul_cancel
  rw [byteCount_eq, Nat.dvd_mod_iff hPow]
  exact Nat.dvd_mul_left _ _

theorem fastEndianReverse_eq
    {count : BitVec 32}
    (hBuffers : Buffers valid dest src (byteCount size count)) :
    fastEndianReverse valid size dest src count f =
      some
        (f.image dest src (reversedIndex size)
          (byteCount size count)) := by
  have hLines :
      byteCount size count / 32 * 32 =
        byteCount size count / 32 * (32 / size.bytes) *
          size.bytes := by
    rw [Nat.mul_assoc, Nat.div_mul_cancel (bytes_dvd size)]
  have hLe :
      byteCount size count / 32 * 32 ≤ byteCount size count :=
    Nat.div_mul_le_self _ _
  have hTotal := byteCount_eq_mul size count
  rw [fastEndianReverse, hBuffers.reverseLines_image hLe,
    Option.bind_some, hLines]
  apply hBuffers.elementLoop_image hTotal
  · rw [Nat.le_div_iff_mul_le (bytes_pos size), ← hLines]
    exact hLe
  · exact
      Nat.le_trans (Nat.sub_le _ _) (Nat.div_le_self _ _)

------------------------------------------------------------
-- All Elements
------------------------------------------------------------

/- An element of the image is reversed. -/
theorem get_image_reversed
    {n k : Nat}
    (hPart : (k + 1) * size.bytes ≤ n)
    (hFits : n < 2 ^ 64) :
    (f.image dest src (reversedIndex size) n).get
        (dest + BitVec.ofNat 64 (k * size.bytes)) size.bytes =
      (f.get (src + BitVec.ofNat 64 (k * size.bytes))
        size.bytes).reverse := by
  rw [Nat.succ_mul] at hPart
  rw [FlatMemory.get_of_image hPart hFits]
  apply List.ext_getElem
  · simp
  · intro i hLeft hRight
    rw [List.length_map, List.length_range] at hLeft
    simp only [List.getElem_map, List.getElem_range,
      List.getElem_reverse, FlatMemory.get, List.length_map,
      List.length_range]
    rw [reversedIndex_add k hLeft, BitVec.ofNat_add,
      BitVec.add_assoc]

/-
  The array is reversed exactly if the elements that a wrap
  of the count of bytes leaves out are reversed already.
-/
theorem endianReverse_reverses_iff
    (size : ElementSize)
    (dest src : BitVec 64)
    (count : BitVec 32)
    (f : FlatMemory 64)
    (hApart :
      FlatMemory.Apart dest src (count.toNat * size.bytes)) :
    Reverses size dest src count f ↔
      ∀ k,
        count.toNat * size.bytes % 2 ^ 32 / size.bytes ≤ k →
          k < count.toNat →
            f.get (dest + BitVec.ofNat 64 (k * size.bytes))
                size.bytes =
              (f.get
                (src + BitVec.ofNat 64 (k * size.bytes))
                size.bytes).reverse := by
  have hLe :
      byteCount size count ≤ count.toNat * size.bytes := by
    rw [byteCount_eq]
    exact Nat.mod_le _ _
  have hFits : count.toNat * size.bytes < 2 ^ 64 := by
    have hCount := count.isLt
    cases size <;> simp only [ElementSize.bytes] <;> omega
  have hBuffers :
      Buffers
        (fun x =>
          Within dest (count.toNat * size.bytes) x ∨
            Within src (count.toNat * size.bytes) x)
        dest src (byteCount size count) := by
    refine ⟨hApart.mono hLe, by omega, ?_, ?_⟩
    · intro i hI
      right
      rw [Within, FlatMemory.toNat_add_sub src i (by omega)]
      omega
    · intro i hI
      left
      rw [Within, FlatMemory.toNat_add_sub dest i (by omega)]
      omega
  have hRun := @fastEndianReverse_eq _ _ size dest src f count
    hBuffers
  have hTotal := byteCount_eq_mul size count
  -- an element is in the image, or after all of it
  have hElement :
      ∀ k < count.toNat,
        (f.image dest src (reversedIndex size)
              (byteCount size count)).get
            (dest + BitVec.ofNat 64 (k * size.bytes))
            size.bytes =
          if k < byteCount size count / size.bytes then
            (f.get (src + BitVec.ofNat 64 (k * size.bytes))
              size.bytes).reverse
          else
            f.get (dest + BitVec.ofNat 64 (k * size.bytes))
              size.bytes := by
    intro k hK
    have hEnd :
        (k + 1) * size.bytes ≤ count.toNat * size.bytes :=
      Nat.mul_le_mul_right _ hK
    rw [Nat.succ_mul] at hEnd
    split
    case isTrue hLt =>
      apply get_image_reversed
      · rw [← hTotal]
        exact Nat.mul_le_mul_right _ hLt
      · omega
    case isFalse hGe =>
      apply FlatMemory.get_after_image
      · rw [← hTotal]
        exact Nat.mul_le_mul_right _ (Nat.le_of_not_lt hGe)
      · omega
  rw [← byteCount_eq]
  constructor
  · rintro ⟨g, hResult, hReversed, -⟩ k hAfter hK
    obtain rfl := Option.some.inj (hRun.symm.trans hResult)
    have hHere := hElement k hK
    rw [hReversed k hK, if_neg (Nat.not_lt.mpr hAfter)]
      at hHere
    exact hHere.symm
  · intro hAlready
    refine ⟨_, hRun, ?_, ?_⟩
    · intro k hK
      rw [hElement k hK]
      split
      case isTrue => rfl
      case isFalse hGe =>
        exact hAlready k (Nat.le_of_not_lt hGe) hK
    · intro x hOutside
      apply if_neg
      intro hIn
      exact hOutside (Nat.lt_of_lt_of_le hIn hLe)

/- Three elements are reversed where they are. -/
theorem reverses_three :
    Reverses .two 0x1000 0x1000 3 (fun x => x.setWidth 8) :=
  (endianReverse_reverses_iff .two 0x1000 0x1000 3 _ (Or.inl rfl)).mpr
    (fun _ hAfter hK => absurd hK (Nat.not_lt.mpr hAfter))

/- The bytes of this many elements are counted as none. -/
theorem reverses_fails :
    ¬ Reverses .two 0x1000 0x1000 0x80000000
        (fun x => x.setWidth 8) := by
  rintro ⟨g, hResult, hReversed, -⟩
  have hFirst := hReversed 0 (by decide)
  obtain rfl := Option.some.inj hResult
  revert hFirst
  decide

end EndianReverse

end Ps3emu
