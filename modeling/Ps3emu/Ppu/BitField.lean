import Mathlib.Algebra.Group.Nat.Defs
import Ps3emu.Library.WrappingMask

/-
  Fields of an instruction word, and the bit operations of
  the interpreter.  Bits are numbered from the left.

  Key definitions include:
    * `field`
    * `mask`
    * `rol`
    * `bitTest`, `bitSet`

  Key theorems include:
    * `isMask_mask`
    * `rol_eq_rotateLeft`
-/

------------------------------------------------------------
-- Fields, Masks and Rotation
------------------------------------------------------------

namespace Ps3emu

namespace Ppu

open WrappingMask

/- The bits from `pos` up to, but not including, `next`. -/
def field
    (x : BitVec 32)
    (pos next : Nat) : BitVec (next - pos) :=
  x.extractLsb' (32 - next) (next - pos)

/- A field of one bit. -/
def flag
    (x : BitVec 32)
    (pos : Nat) : Bool :=
  x.getLsbD (31 - pos)

theorem getLsbD_field
    (x : BitVec 32)
    (pos next i : Nat) :
    (field x pos next).getLsbD i =
      (decide (i < next - pos) &&
        x.getLsbD (32 - next + i)) := by
  simp [field]

/- The bits `x` to `y` of a value of `width` bits. -/
def maskRange (width x y : Nat) : BitVec 64 :=
  let a := BitVec.allOnes 64 >>> x
  let b := (BitVec.allOnes 64 <<< (64 - 1 - y)) &&& a
  b >>> (64 - width)

/- A mask whose first bit is after its last one wraps. -/
def mask (width x y : Nat) : BitVec 64 :=
  if y < x then
    maskRange width 0 y ||| maskRange width x (width - 1)
  else maskRange width x y

theorem getLsbD_maskRange
    {width x y : Nat}
    (hWidth : width ≤ 64)
    (hY : y < width)
    (j : Nat) :
    (maskRange width x y).getLsbD j =
      decide (width ≤ j + 1 + y ∧ j + x < width) := by
  unfold maskRange
  rw [BitVec.getLsbD_ushiftRight, BitVec.getLsbD_and,
    BitVec.getLsbD_shiftLeft, BitVec.getLsbD_ushiftRight,
    BitVec.getLsbD_allOnes, BitVec.getLsbD_allOnes]
  rw [Bool.eq_iff_iff]
  simp only [Bool.and_eq_true, Bool.not_eq_true',
    decide_eq_true_eq, decide_eq_false_iff_not]
  omega

/- A mask of the whole width. -/
theorem isMask_mask
    {x y : Nat}
    (hY : y < 64) :
    IsMask x y (mask 64 x y) := by
  intro j hJ
  rw [BitVec.getMsbD]
  unfold mask
  split
  · rename_i hWrap
    rw [BitVec.getLsbD_or,
      getLsbD_maskRange (Nat.le_refl _) hY,
      getLsbD_maskRange (Nat.le_refl _) (by omega)]
    rw [Bool.eq_iff_iff]
    simp only [Bool.and_eq_true, Bool.or_eq_true,
      decide_eq_true_eq]
    rw [inMask_of_lt hWrap]
    omega
  · rename_i hRange
    rw [getLsbD_maskRange (Nat.le_refl _) hY,
      Bool.eq_iff_iff]
    simp only [Bool.and_eq_true, decide_eq_true_eq]
    rw [inMask_of_le (by omega)]
    omega

def rol
    {w : Nat}
    (value : BitVec w)
    (count : BitVec 32) : BitVec w :=
  let mask := BitVec.ofNat 32 (w - 1)
  let count := count &&& mask
  (value <<< count.toNat) |||
    (value >>> ((-count) &&& mask).toNat)

private theorem toNat_count
    {k : Nat}
    (hK : k < 32)
    (count : BitVec 32) :
    (count &&& BitVec.ofNat 32 (2 ^ k - 1)).toNat =
      count.toNat % 2 ^ k := by
  have hLt : 2 ^ k - 1 < 2 ^ 32 := by
    have hPow : 2 ^ k < 2 ^ 32 :=
      Nat.pow_lt_pow_of_lt (by decide) hK
    omega
  rw [BitVec.toNat_and, BitVec.toNat_ofNat,
    Nat.mod_eq_of_lt hLt, Nat.and_two_pow_sub_one_eq_mod]

/- The count is taken modulo a width that is a power of two. -/
theorem rol_eq_rotateLeft
    {k : Nat}
    (hK : k < 32)
    (value : BitVec (2 ^ k))
    (count : BitVec 32) :
    rol value count = value.rotateLeft count.toNat := by
  have hPos : 0 < 2 ^ k := Nat.two_pow_pos k
  have hDvd : 2 ^ k ∣ 2 ^ 32 :=
    Nat.pow_dvd_pow 2 (Nat.le_of_lt hK)
  unfold rol
  rw [BitVec.rotateLeft_def]
  simp only [toNat_count hK]
  rw [BitVec.toNat_neg, toNat_count hK,
    Nat.mod_mod_of_dvd _ hDvd]
  by_cases hZero : count.toNat % 2 ^ k = 0
  · rw [hZero, Nat.sub_zero, Nat.sub_zero,
      Nat.mod_eq_zero_of_dvd hDvd]
    simp [BitVec.ushiftRight_eq_zero]
  · have hRest :
        (2 ^ 32 - count.toNat % 2 ^ k) % 2 ^ k =
          2 ^ k - count.toNat % 2 ^ k := by
      rcases hDvd with ⟨n, hn⟩
      have hLt := Nat.mod_lt count.toNat hPos
      have hN : 0 < n := by
        rcases Nat.eq_zero_or_pos n with rfl | hN
        · omega
        · exact hN
      have hSplit :
          2 ^ 32 - count.toNat % 2 ^ k =
            (2 ^ k - count.toNat % 2 ^ k) +
              2 ^ k * (n - 1) := by
        rw [hn, Nat.mul_sub_one]
        have hLe : 2 ^ k * 1 ≤ 2 ^ k * n :=
          Nat.mul_le_mul_left _ hN
        omega
      rw [hSplit, Nat.add_mul_mod_self_left,
        Nat.mod_eq_of_lt (by omega)]
    rw [hRest]

theorem rol_64
    (value : BitVec 64)
    (count : BitVec 32) :
    rol value count = value.rotateLeft count.toNat :=
  @rol_eq_rotateLeft 6 (by decide) value count

theorem rol_32
    (value : BitVec 32)
    (count : BitVec 32) :
    rol value count = value.rotateLeft count.toNat :=
  @rol_eq_rotateLeft 5 (by decide) value count

/- Rotation loses no bit. -/
theorem rotateLeft_eq_zero_iff
    {w : Nat}
    (value : BitVec w)
    (n : Nat) :
    value.rotateLeft n = 0#w ↔ value = 0#w := by
  constructor
  · intro hZero
    apply eq_of_getMsbD
    intro j hJ
    have hBack : (n + (j + w - n % w) % w) % w = j := by
      have hLt : n % w < w := Nat.mod_lt n (by omega)
      have hSum : n % w + (j + w - n % w) = j + w := by
        omega
      rw [Nat.add_mod_mod, ← Nat.mod_add_mod, hSum,
        Nat.add_mod_right, Nat.mod_eq_of_lt hJ]
    have hPos : (j + w - n % w) % w < w :=
      Nat.mod_lt _ (by omega)
    have hBit :=
      congrArg
        (fun v => v.getMsbD ((j + w - n % w) % w)) hZero
    simp only [BitVec.getMsbD_rotateLeft, hBack, hPos,
      decide_true, Bool.true_and] at hBit
    simpa using hBit
  · intro hZero
    rw [hZero]
    apply eq_of_getMsbD
    intro j hJ
    rw [BitVec.getMsbD_rotateLeft]
    simp

/- The bit at `pos` of a number of `width` bits. -/
def bitTest
    {w : Nat}
    (number : BitVec w)
    (width pos : Nat) : Bool :=
  number.getLsbD (width - pos - 1)

def bitSet
    (number : BitVec 32)
    (pos : Nat)
    (val : Bool) : BitVec 32 :=
  let sh := 32 - pos - 1
  (number &&& ~~~(1#32 <<< sh)) |||
    ((BitVec.ofBool val).setWidth 32 <<< sh)

end Ppu

end Ps3emu
