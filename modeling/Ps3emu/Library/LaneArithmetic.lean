import Mathlib.Algebra.Group.Nat.Defs
import Ps3emu.Library.Sse

/-
  Numbers in the lanes of vectors: orders, products and
  saturation on machine words.

  Key theorems include:
    * `slt_sub_intMin`
    * `ofInt_setWidth`, `sshiftRight_ofInt`
    * `lane_rotateLeft`
    * `product_of_halves`
    * `clamp_ofInt`
-/

------------------------------------------------------------
-- Unsigned and Signed Numbers
------------------------------------------------------------

namespace Ps3emu

namespace Sse

open Lanes

variable {w : Nat}

/- Subtracting the sign bit turns an unsigned order signed. -/
theorem slt_sub_intMin
    (hW : 0 < w)
    (x y : BitVec w) :
    (x - BitVec.intMin w).slt (y - BitVec.intMin w) =
      x.ult y := by
  have hPow : 2 ^ w = 2 * 2 ^ (w - 1) := by
    rw [← Nat.pow_succ', Nat.succ_eq_add_one,
      Nat.sub_add_cancel hW]
  have hX := x.isLt
  have hY := y.isLt
  rw [BitVec.slt_eq_decide, BitVec.ult,
    BitVec.toInt_eq_toNat_cond, BitVec.toInt_eq_toNat_cond,
    BitVec.toNat_sub, BitVec.toNat_sub,
    BitVec.toNat_intMin_of_pos hW]
  rw [hPow] at hX hY ⊢
  generalize 2 ^ (w - 1) = h at *
  have hFlip :
      ∀ z, z < 2 * h →
        (2 * h - h + z) % (2 * h) =
          if z < h then z + h else z - h := by
    intro z hZ
    split
    case isTrue hLow =>
      rw [Nat.mod_eq_of_lt (by omega)]
      omega
    case isFalse hHigh =>
      rw [Nat.mod_eq_sub_mod (by omega),
        Nat.mod_eq_of_lt (by omega)]
      omega
  rw [hFlip _ hX, hFlip _ hY]
  congr 1
  apply propext
  constructor
  all_goals (repeat' split) <;> omega

/- The low bits of a number. -/
theorem ofInt_setWidth
    (v : Int)
    {m n : Nat}
    (hLe : m ≤ n) :
    (BitVec.ofInt n v).setWidth m = BitVec.ofInt m v := by
  have hDvd : ((2 ^ m : Nat) : Int) ∣ ((2 ^ n : Nat) : Int) :=
    Int.natCast_dvd_natCast.mpr (Nat.pow_dvd_pow 2 hLe)
  have hPos : ((2 ^ n : Nat) : Int) ≠ 0 :=
    Int.natCast_ne_zero.mpr
      (Nat.ne_of_gt (Nat.pow_pos (by decide)))
  apply BitVec.eq_of_toInt_eq
  rw [BitVec.toInt_setWidth, BitVec.toInt_ofInt,
    BitVec.toNat_ofInt,
    Int.toNat_of_nonneg (Int.emod_nonneg _ hPos),
    Int.bmod_def, Int.bmod_def, Int.emod_emod_of_dvd _ hDvd]

/- A shift divides, where the number fits. -/
theorem sshiftRight_ofInt
    (hW : 0 < w)
    {v : Int}
    (hLo : -2 ^ (w - 1) ≤ v)
    (hHi : v < 2 ^ (w - 1))
    (k : Nat) :
    (BitVec.ofInt w v).sshiftRight k =
      BitVec.ofInt w (v / ((2 ^ k : Nat) : Int)) := by
  rw [← @BitVec.ofInt_toInt w
      ((BitVec.ofInt w v).sshiftRight k),
    BitVec.toInt_sshiftRight,
    BitVec.toInt_ofInt_eq_self hW hLo hHi,
    Int.shiftRight_eq_div_pow]

/- The low bits of an extension. -/
theorem setWidth_signExtend
    (imm : BitVec w)
    {m n : Nat}
    (hLe : m ≤ n) :
    (imm.signExtend n).setWidth m = imm.signExtend m := by
  apply BitVec.eq_of_getLsbD_eq
  intro j hJ
  have hIn : j < n := Nat.lt_of_lt_of_le hJ hLe
  rw [BitVec.getLsbD_setWidth, BitVec.getLsbD_signExtend,
    BitVec.getLsbD_signExtend]
  simp [hJ, hIn]

theorem mul_eq_ofInt
    (a b : BitVec w) :
    a * b = BitVec.ofInt w (a.toInt * b.toInt) := by
  rw [BitVec.ofInt_mul, BitVec.ofInt_toInt,
    BitVec.ofInt_toInt]

/- A shift there and back extends the low half. -/
theorem signExtend_low_half (x : BitVec 32) :
    (x <<< 16).sshiftRight 16 =
      (x.setWidth 16).signExtend 32 := by
  apply BitVec.eq_of_getLsbD_eq
  intro j hJ
  rw [BitVec.getLsbD_sshiftRight, BitVec.getLsbD_signExtend,
    BitVec.msb_eq_getLsbD_last, BitVec.msb_eq_getLsbD_last,
    BitVec.getLsbD_shiftLeft, BitVec.getLsbD_shiftLeft,
    BitVec.getLsbD_setWidth, BitVec.getLsbD_setWidth]
  by_cases hLow : j < 16
  · have hIn : 16 + j < 32 := by omega
    have hNot : ¬ 16 + j < 16 := by omega
    have hSub : 16 + j - 16 = j := by omega
    simp only [hLow, hIn, hNot, hSub, hJ,
      Nat.not_le_of_lt hJ, decide_true, decide_false,
      Bool.not_false, Bool.true_and, if_true]
  · have hNot : ¬ 16 + j < 32 := by omega
    simp [hLow, hNot, hJ]

variable {k : Nat}

/- A shift of a sign-extended halfword is one of the halfword. -/
theorem setWidth_sshiftRight_signExtend
    (x : BitVec 16)
    (hK : k < 16) :
    ((x.signExtend 32).sshiftRight k).setWidth 16 =
      x.sshiftRight k := by
  apply BitVec.eq_of_getLsbD_eq
  intro j hJ
  have hIn : k + j < 32 := by omega
  have hNot : ¬ 32 ≤ j := by omega
  have hNot' : ¬ 16 ≤ j := by omega
  rw [BitVec.getLsbD_setWidth, BitVec.getLsbD_sshiftRight,
    BitVec.getLsbD_sshiftRight, BitVec.getLsbD_signExtend]
  simp only [hJ, hIn, hNot, hNot', decide_true, decide_false,
    Bool.not_false, Bool.true_and, if_true]

/- The same for a shift to the left. -/
theorem setWidth_shiftLeft_signExtend
    {w n : Nat}
    (x : BitVec w)
    (hLe : w ≤ n)
    (k : Nat) :
    (x.signExtend n <<< k).setWidth w = x <<< k := by
  apply BitVec.eq_of_getLsbD_eq
  intro j hJ
  have hIn : j < n := Nat.lt_of_lt_of_le hJ hLe
  have hSub : j - k < n := by omega
  have hSub' : j - k < w := by omega
  rw [BitVec.getLsbD_setWidth, BitVec.getLsbD_shiftLeft,
    BitVec.getLsbD_shiftLeft, BitVec.getLsbD_signExtend]
  simp [hJ, hIn, hSub, hSub']

/- A shift by the width or more leaves the sign. -/
theorem sshiftRight_of_le
    (x : BitVec w)
    (hLe : w ≤ k) :
    x.sshiftRight k =
      if x.msb then BitVec.allOnes w else 0#w := by
  apply BitVec.eq_of_getLsbD_eq
  intro j hJ
  have hNot : ¬ k + j < w := by omega
  rw [BitVec.getLsbD_sshiftRight]
  cases x.msb <;> simp [hJ, hNot, Nat.not_le_of_lt hJ]

theorem toNat_setWidth_mod
    {w v : Nat}
    (x : BitVec w)
    (hK : k ≤ v) :
    (x.setWidth v).toNat % 2 ^ k = x.toNat % 2 ^ k := by
  rw [BitVec.toNat_setWidth,
    Nat.mod_mod_of_dvd _ (Nat.pow_dvd_pow 2 hK)]

/- The low bits of an opposite are those of the low bits. -/
theorem toNat_neg_mod
    {w v : Nat}
    {x : BitVec w}
    {y : BitVec v}
    (hW : k ≤ w)
    (hV : k ≤ v)
    (hLow : x.setWidth k = y.setWidth k) :
    (-x).toNat % 2 ^ k = (-y).toNat % 2 ^ k := by
  have hNat := congrArg (fun z => (-z).toNat) hLow
  rw [← BitVec.setWidth_neg_of_le hW,
    ← BitVec.setWidth_neg_of_le hV, BitVec.toNat_setWidth,
    BitVec.toNat_setWidth] at hNat
  exact hNat

/- A rotation by whole lanes. -/
theorem lane_rotateLeft
    {w m : Nat}
    (hW : 0 < w)
    (x : BitVec (w * m))
    {k i : Nat}
    (hK : k < m)
    (hI : i < m) :
    lane w (x.rotateLeft (w * k)) i =
      lane w x ((i + (m - k)) % m) := by
  have hFits : w * (i + 1) ≤ w * m :=
    Nat.mul_le_mul_left w hI
  have hLt : w * k < w * m :=
    (Nat.mul_lt_mul_left hW).mpr hK
  rw [BitVec.rotateLeft_def, Nat.mod_eq_of_lt hLt,
    ← Nat.mul_sub, lane_or, lane_shiftLeft w k x hFits,
    lane_ushiftRight]
  by_cases hBelow : i < k
  · rw [if_pos hBelow, BitVec.zero_or,
      Nat.mod_eq_of_lt (by omega)]
  · have hBeyond : lane w x (i + (m - k)) = 0#w := by
      have hLe : w * m ≤ w * (i + (m - k)) :=
        Nat.mul_le_mul_left w (by omega)
      apply BitVec.eq_of_getLsbD_eq
      intro j hJ
      rw [getLsbD_lane, BitVec.getLsbD_of_ge x _ (by omega)]
      simp
    have hIndex : (i + (m - k)) % m = i - k := by
      rw [Nat.mod_eq_sub_mod (by omega),
        Nat.mod_eq_of_lt (by omega)]
      omega
    rw [if_neg hBelow, hBeyond, BitVec.or_zero, hIndex]

/- The two halves of a signed product make the product. -/
theorem product_of_halves (a b : BitVec 16) :
    (a.signExtend 32 * b.signExtend 32).extractLsb' 16 16 ++
        (a * b) =
      BitVec.ofInt 32 (a.toInt * b.toInt) := by
  have hProduct :
      a.signExtend 32 * b.signExtend 32 =
        BitVec.ofInt 32 (a.toInt * b.toInt) :=
    (BitVec.ofInt_mul _ _).symm
  have hLow :
      a * b =
        (BitVec.ofInt 32 (a.toInt * b.toInt)).setWidth 16 := by
    rw [ofInt_setWidth _ (by decide), mul_eq_ofInt]
  rw [hProduct, hLow]
  generalize BitVec.ofInt 32 (a.toInt * b.toInt) = p
  apply BitVec.eq_of_getLsbD_eq
  intro j hJ
  rw [BitVec.getLsbD_append, BitVec.getLsbD_setWidth,
    BitVec.getLsbD_extractLsb']
  by_cases hBelow : j < 16
  · simp only [hBelow, if_true, decide_true, Bool.true_and]
  · have hIn : j - 16 < 16 := by omega
    have hPos : 16 + (j - 16) = j := by omega
    simp only [hBelow, if_false, hIn, hPos, decide_true,
      Bool.true_and]

/- The product of two signed halfwords, and its bounds. -/
theorem product_bounds (a b : BitVec 16) :
    -1073741824 ≤ a.toInt * b.toInt ∧
      a.toInt * b.toInt ≤ 1073741824 :=
  ⟨@BitVec.le_toInt_mul_toInt 16 a b,
    @BitVec.toInt_mul_toInt_le 16 a b⟩

/- Two tests against the bounds of a halfword saturate. -/
theorem clamp_ofInt
    {v : Int}
    (hLo : -2147483648 ≤ v)
    (hHi : v < 2147483648) :
    (let s := BitVec.ofInt 32 v
      let s := if (-32768#32).slt s then s else -32768#32
      if s.slt 32767#32 then s else 32767#32) =
      BitVec.ofInt 32 (saturate (-32768) 32767 v) := by
  have hValue :
      (BitVec.ofInt 32 v).toInt = v :=
    BitVec.toInt_ofInt_eq_self (by decide) hLo hHi
  have hMin : (-32768#32).toInt = -32768 := by decide
  have hMax : (32767#32).toInt = 32767 := by decide
  simp only [BitVec.slt_eq_decide, hValue, hMin, hMax,
    decide_eq_true_eq, saturate]
  by_cases hAbove : -32768 < v
  · simp only [hAbove, if_true, hValue]
    by_cases hBelow : v < 32767
    · have hSame : max (-32768) (min 32767 v) = v := by omega
      simp only [hBelow, if_true, hSame]
    · have hTop : max (-32768) (min 32767 v) = 32767 := by
        omega
      simp only [hBelow, if_false, hTop]
      decide
  · have hBottom : max (-32768) (min 32767 v) = -32768 := by
      omega
    simp only [hAbove, if_false, hMin, hBottom]
    decide

end Sse

end Ps3emu
