import Mathlib.Data.Int.Init
import Mathlib.Tactic.Ring

/-
  The product of two words and its halves, when the words
  have a sign and when they have none.

  Key definitions include:
    * `highSigned`, `highUnsigned`
    * `SignFree`

  Key theorems include:
    * `high_ofInt`, `low_ofInt`
    * `high_eq_iff`
    * `wide_eq_iff`
-/

------------------------------------------------------------
-- Words and Products
------------------------------------------------------------

namespace Ps3emu

namespace Products

variable {w : Nat}

/- The number of words of a width. -/
def base (w : Nat) : Int :=
  (2 ^ w : Nat)

theorem base_pos (w : Nat) : 0 < base w :=
  Int.natCast_pos.mpr (Nat.two_pow_pos w)

theorem base_mul (w v : Nat) :
    base (w + v) = base w * base v := by
  unfold base
  rw [Nat.pow_add, Int.natCast_mul]

/- Integers give one word if they differ by its base. -/
theorem ofInt_eq_iff (p q : Int) :
    BitVec.ofInt w p = BitVec.ofInt w q ↔ base w ∣ p - q := by
  have hBase := (base_pos w).ne'
  have hP : 0 ≤ p % base w := Int.emod_nonneg p hBase
  have hQ : 0 ≤ q % base w := Int.emod_nonneg q hBase
  rw [Int.dvd_iff_emod_eq_zero,
    ← Int.emod_eq_emod_iff_emod_sub_eq_zero,
    ← BitVec.toNat_inj, BitVec.toNat_ofInt,
    BitVec.toNat_ofInt]
  unfold base at hP hQ ⊢
  omega

/- A word of an integer, as the integer it stands for. -/
theorem toNat_ofInt (p : Int) :
    ((BitVec.ofInt w p).toNat : Int) = p % base w := by
  rw [BitVec.toNat_ofInt]
  exact Int.toNat_of_nonneg
    (Int.emod_nonneg p (base_pos w).ne')

/- The low half of a wide word. -/
theorem low_ofInt
    {v : Nat}
    (hLe : w ≤ v)
    (p : Int) :
    (BitVec.ofInt v p).setWidth w = BitVec.ofInt w p := by
  have hBase : base w ∣ base v := by
    rw [← Nat.add_sub_cancel' hLe, base_mul]
    exact Int.dvd_mul_right _ _
  rw [← BitVec.ofNat_toNat, ← BitVec.ofInt_natCast,
    toNat_ofInt, ofInt_eq_iff]
  exact Int.dvd_trans hBase Int.dvd_emod_sub_self

/- The half above it. -/
theorem high_ofInt
    {v : Nat}
    (hLe : w + w ≤ v)
    (p : Int) :
    (BitVec.ofInt v p >>> w).setWidth w =
      BitVec.ofInt w (p / base w) := by
  have hBase : base v = base w * base (w + (v - (w + w))) := by
    rw [← base_mul]
    congr 1
    omega
  have hHigh :
      p % base v / base w =
        p / base w -
          base (w + (v - (w + w))) * (p / base v) := by
    rw [Int.emod_def, hBase, Int.mul_assoc,
      Int.sub_mul_ediv_left _ _ (base_pos w).ne']
  have hNat :
      ((BitVec.ofInt v p).toNat / 2 ^ w : Nat) =
        p % base v / base w := by
    rw [← toNat_ofInt]
    rfl
  rw [← BitVec.ofNat_toNat, BitVec.toNat_ushiftRight,
    Nat.shiftRight_eq_div_pow, ← BitVec.ofInt_natCast,
    hNat, hHigh, ofInt_eq_iff, base_mul, Int.mul_assoc]
  refine ⟨- (base (v - (w + w)) * (p / base v)), ?_⟩
  ring

def highSigned (a b : BitVec w) : BitVec w :=
  BitVec.ofInt w (a.toInt * b.toInt / base w)

def highUnsigned (a b : BitVec w) : BitVec w :=
  BitVec.ofNat w (a.toNat * b.toNat / 2 ^ w)

/-
  Words whose signs do not show in their product: none is
  negative, or one is zero, or both are the least number.
-/
def SignFree (a b : BitVec w) : Prop :=
  (a.msb = false ∧ b.msb = false) ∨ a = 0#w ∨ b = 0#w ∨
    (a = BitVec.intMin w ∧ b = BitVec.intMin w)

/- What the signs add to a product, above its low half. -/
def signPart (a b : BitVec w) : Int :=
  (if a.msb && b.msb then base w else 0) -
    (if a.msb then (b.toNat : Int) else 0) -
      (if b.msb then (a.toNat : Int) else 0)

theorem toInt_mul_toInt (a b : BitVec w) :
    a.toInt * b.toInt =
      (a.toNat * b.toNat : Nat) + base w * signPart a b := by
  unfold signPart
  rw [BitVec.toInt_eq_msb_cond, BitVec.toInt_eq_msb_cond,
    Int.natCast_mul]
  cases a.msb with
  | false =>
      cases b.msb with
      | false => simp
      | true =>
          simp [base]
          ring
  | true =>
      cases b.msb with
      | false =>
          simp [base]
          ring
      | true =>
          simp [base]
          ring

/- A multiple of the base that is too small for one. -/
private theorem dvd_neg_toNat_iff (a : BitVec w) :
    base w ∣ -(a.toNat : Int) ↔ a = 0#w := by
  rw [Int.dvd_neg]
  constructor
  · intro hDvd
    have hZero := Nat.eq_zero_of_dvd_of_lt
      (Int.natCast_dvd_natCast.mp hDvd) a.isLt
    exact BitVec.eq_of_toNat_eq hZero
  · intro hZero
    rw [hZero]
    exact Int.dvd_zero _

/- Two negative words that add up to the base. -/
private theorem dvd_both_iff
    {a b : BitVec w}
    (hA : a.msb = true)
    (hB : b.msb = true) :
    base w ∣ base w - (b.toNat : Int) - (a.toNat : Int) ↔
      a = BitVec.intMin w ∧ b = BitVec.intMin w := by
  have hHalfA := BitVec.msb_eq_true_iff_two_mul_ge.mp hA
  have hHalfB := BitVec.msb_eq_true_iff_two_mul_ge.mp hB
  have hLtA := a.isLt
  have hLtB := b.isLt
  have hWidth : 0 < w := by
    by_contra hZero
    have hW : w = 0 := by omega
    subst hW
    rw [BitVec.eq_nil a] at hA
    cases hA
  have hPow : 2 ^ w = 2 * 2 ^ (w - 1) := by
    rw [← Nat.pow_succ', Nat.succ_eq_add_one,
      Nat.sub_add_cancel hWidth]
  rw [← BitVec.toNat_inj, ← BitVec.toNat_inj,
    BitVec.toNat_intMin_of_pos hWidth]
  constructor
  · intro hDvd
    have hRest :
        base w ∣ ((a.toNat + b.toNat - 2 ^ w : Nat) : Int) := by
      rw [← Int.dvd_neg]
      convert hDvd using 1
      unfold base
      omega
    have hZero := Nat.eq_zero_of_dvd_of_lt
      (Int.natCast_dvd_natCast.mp hRest) (by omega)
    omega
  · rintro ⟨hEqA, hEqB⟩
    have hZero :
        base w - (b.toNat : Int) - (a.toNat : Int) = 0 := by
      unfold base
      omega
    rw [hZero]
    exact Int.dvd_zero _

private theorem ne_zero_of_msb
    {a : BitVec w}
    (hA : a.msb = true) :
    a ≠ 0#w := by
  intro hZero
  rw [hZero, BitVec.msb_zero] at hA
  cases hA

private theorem not_intMin_of_msb
    {a b : BitVec w}
    (hMsb : a.msb ≠ b.msb) :
    ¬ (a = BitVec.intMin w ∧ b = BitVec.intMin w) := by
  rintro ⟨hA, hB⟩
  rw [hA, hB] at hMsb
  exact hMsb rfl

theorem dvd_signPart_iff (a b : BitVec w) :
    base w ∣ signPart a b ↔ SignFree a b := by
  unfold signPart SignFree
  cases hA : a.msb with
  | false =>
      cases hB : b.msb with
      | false => simp
      | true =>
          have hNe := ne_zero_of_msb hB
          have hMin := @not_intMin_of_msb w a b (by simp [*])
          have hDvd := dvd_neg_toNat_iff a
          simpa only [hMin, hNe, or_false, false_or,
            Bool.false_and, Bool.false_eq_true, and_false,
            if_false, if_true, reduceCtorEq, Int.sub_zero,
            Int.zero_sub] using hDvd
  | true =>
      have hNe := ne_zero_of_msb hA
      cases hB : b.msb with
      | false =>
          have hMin := @not_intMin_of_msb w a b (by simp [*])
          have hDvd := dvd_neg_toNat_iff b
          simpa only [hMin, hNe, or_false, false_or,
            Bool.and_false, Bool.false_eq_true, false_and,
            if_false, if_true, reduceCtorEq, Int.sub_zero,
            Int.zero_sub] using hDvd
      | true =>
          have hOther := ne_zero_of_msb hB
          simpa [hNe, hOther] using dvd_both_iff hA hB

/- The upper halves of both products. -/
theorem high_eq_iff (a b : BitVec w) :
    highUnsigned a b = highSigned a b ↔ SignFree a b := by
  have hNat :
      ((a.toNat * b.toNat / 2 ^ w : Nat) : Int) =
        (a.toNat * b.toNat : Nat) / base w :=
    rfl
  unfold highUnsigned highSigned
  rw [← BitVec.ofInt_natCast, ofInt_eq_iff, hNat,
    toInt_mul_toInt, Int.add_mul_ediv_left _ _ (base_pos w).ne',
    sub_add_cancel_left, Int.dvd_neg, dvd_signPart_iff]

/- The whole products, in a word of twice the width. -/
theorem wide_eq_iff (a b : BitVec w) :
    BitVec.ofNat (w + w) (a.toNat * b.toNat) =
        BitVec.ofInt (w + w) (a.toInt * b.toInt) ↔
      SignFree a b := by
  rw [← BitVec.ofInt_natCast, ofInt_eq_iff, toInt_mul_toInt,
    sub_add_cancel_left, Int.dvd_neg, base_mul,
    Int.mul_dvd_mul_iff_left (base_pos w).ne',
    dvd_signPart_iff]

end Products

end Ps3emu
