import Mathlib.Algebra.Group.Nat.Defs
import Mathlib.Tactic.Common

/-
  Bit masks that keep the low or the high bits of a machine
  word, as remainders and multiples of powers of two.

  Key theorems include:
    * `Masks.toNat_and_low`
    * `Masks.toNat_and_high`
    * `Masks.toNat_ushiftRight`
    * `Masks.toNat_sub_of_le`
-/

namespace Ps3emu

namespace Masks

variable {n : Nat}

------------------------------------------------------------
-- Low and High Masks
------------------------------------------------------------

/- Masking with `2 ^ k - 1` is the remainder by `2 ^ k`. -/
theorem toNat_and_low
    (x : BitVec n)
    (k : Nat)
    (hk : k ≤ n) :
    (x &&& BitVec.ofNat n (2 ^ k - 1)).toNat =
      x.toNat % 2 ^ k := by
  have hPow : 2 ^ k ≤ 2 ^ n := Nat.pow_le_pow_right (by omega) hk
  have hPos : 0 < 2 ^ k := Nat.two_pow_pos k
  have hMask : 2 ^ k - 1 < 2 ^ n := by omega
  rw [BitVec.toNat_and, BitVec.toNat_ofNat,
    Nat.mod_eq_of_lt hMask, Nat.and_two_pow_sub_one_eq_mod]

/-
  Masking with `2 ^ n - 2 ^ k` rounds down to a multiple of
  `2 ^ k`.
-/
theorem toNat_and_high
    (x : BitVec n)
    (k : Nat)
    (hk : k ≤ n) :
    (x &&& BitVec.ofNat n (2 ^ n - 2 ^ k)).toNat =
      x.toNat / 2 ^ k * 2 ^ k := by
  have hPos : 0 < 2 ^ k := Nat.two_pow_pos k
  have hPow : 2 ^ n = 2 ^ k * 2 ^ (n - k) := by
    rw [← Nat.pow_add, Nat.add_sub_cancel' hk]
  have hMask : 2 ^ n - 2 ^ k = (2 ^ (n - k) - 1) <<< k := by
    rw [Nat.shiftLeft_eq, hPow, Nat.sub_mul, Nat.one_mul,
      Nat.mul_comm]
  have hBound : 2 ^ n - 2 ^ k < 2 ^ n := by
    have := Nat.two_pow_pos n
    omega
  rw [BitVec.toNat_and, BitVec.toNat_ofNat,
    Nat.mod_eq_of_lt hBound, hMask]
  apply Nat.eq_of_testBit_eq
  intro i
  have hRound :
      x.toNat / 2 ^ k * 2 ^ k = (x.toNat >>> k) <<< k := by
    rw [Nat.shiftLeft_eq, Nat.shiftRight_eq_div_pow]
  rw [hRound, Nat.testBit_and, Nat.testBit_shiftLeft,
    Nat.testBit_shiftLeft, Nat.testBit_two_pow_sub_one,
    Nat.testBit_shiftRight]
  by_cases hLow : k ≤ i
  · have hIndex : k + (i - k) = i := by omega
    by_cases hHigh : i - k < n - k
    · simp [hLow, hHigh, hIndex]
    · have hZero : x.toNat.testBit i = false := by
        apply Nat.testBit_lt_two_pow
        exact Nat.lt_of_lt_of_le x.isLt
          (Nat.pow_le_pow_right (by omega) (by omega))
      simp [hHigh, hIndex, hZero]
  · simp [hLow]

/- A logical right shift is a division. -/
theorem toNat_ushiftRight
    (x : BitVec n)
    (k : Nat) :
    (x >>> k).toNat = x.toNat / 2 ^ k := by
  rw [BitVec.toNat_ushiftRight, Nat.shiftRight_eq_div_pow]

/- Subtraction of a smaller word does not wrap. -/
theorem toNat_sub_of_le
    (x y : BitVec n)
    (h : x.toNat ≤ y.toNat) :
    (y - x).toNat = y.toNat - x.toNat := by
  have hy := y.isLt
  rw [BitVec.toNat_sub]
  have hSum :
      2 ^ n - x.toNat + y.toNat =
        y.toNat - x.toNat + 2 ^ n := by
    have := x.isLt
    omega
  rw [hSum, Nat.add_mod_right]
  exact Nat.mod_eq_of_lt (by omega)

end Masks

end Ps3emu
