import Ps3emu.Library.Products
import Ps3emu.Ppu.Carry
import Ps3emu.Ppu.Shift

/-
  The multiplications and divisions, against the products and
  the truncated quotients of the instruction set.

  Key definitions include:
    * `SignedQuotient`, `UnsignedQuotient`
    * `ProductExact`, `ProductCondition`

  Key theorems include:
    * `emulate_product_iff`
-/

------------------------------------------------------------
-- Multiplication
------------------------------------------------------------

namespace Ps3emu

namespace Ppu

open Products

variable {R : Type}

def IsProduct : IntegerInstr → Prop
  | .mulli | .mullw | .mulld | .mulhw | .mulhwu | .mulhd
  | .mulhdu | .divw | .divwu | .divd | .divdu => True
  | _ => False

/-
  The truncated quotient, for a divisor that is not zero and
  a quotient that the width has.
-/
def SignedQuotient
    {w : Nat}
    (a b q : BitVec w) : Prop :=
  let quotient := a.toInt.tdiv b.toInt
  b ≠ 0#w → 2 * quotient < 2 ^ w → q.toInt = quotient

def UnsignedQuotient
    {w : Nat}
    (a b q : BitVec w) : Prop :=
  b ≠ 0#w → q.toNat = a.toNat / b.toNat

/- Only the low word of four of the results is defined. -/
def ProductExact
    (i : IntegerInstr)
    (x : BitVec 32)
    (r : Registers R)
    (result : BitVec 64) : Prop :=
  let a := r.gpr (ra x)
  let b := r.gpr (rb x)
  let wordA := a.setWidth 32
  let wordB := b.setWidth 32
  let word := result.setWidth 32
  match i with
  | .mulli =>
      result = BitVec.ofInt 64 (a.toInt * (si x).toInt)
  | .mulld => result = BitVec.ofInt 64 (a.toInt * b.toInt)
  | .mullw =>
      result = BitVec.ofInt 64 (wordA.toInt * wordB.toInt)
  | .mulhd => result = highSigned a b
  | .mulhdu => result = highUnsigned a b
  | .mulhw => word = highSigned wordA wordB
  | .mulhwu => word = highUnsigned wordA wordB
  | .divd => SignedQuotient a b result
  | .divdu => UnsignedQuotient a b result
  | .divw => SignedQuotient wordA wordB word
  | .divwu => UnsignedQuotient wordA wordB word
  | _ => False

/- `mulhd` and `mullw` multiply without a sign. -/
def ProductCondition
    (i : IntegerInstr)
    (x : BitVec 32)
    (r : Registers R) : Prop :=
  let a := r.gpr (ra x)
  let b := r.gpr (rb x)
  match i with
  | .mulhd => SignFree a b
  | .mullw => SignFree (a.setWidth 32) (b.setWidth 32)
  | _ => True

/- A product of widened words, without a sign. -/
theorem setWidth_mul_setWidth
    {w : Nat}
    (v : Nat)
    (a b : BitVec w) :
    a.setWidth v * b.setWidth v =
      BitVec.ofInt v (a.toNat * b.toNat : Nat) := by
  rw [← BitVec.ofNat_toNat, ← BitVec.ofNat_toNat,
    BitVec.ofNat_mul_ofNat, BitVec.ofInt_natCast]

/- With a sign. -/
theorem signExtend_mul_signExtend
    {w u : Nat}
    (v : Nat)
    (a : BitVec w)
    (b : BitVec u) :
    a.signExtend v * b.signExtend v =
      BitVec.ofInt v (a.toInt * b.toInt) := by
  rw [BitVec.ofInt_mul]
  rfl

theorem highUnsigned_eq
    {w v : Nat}
    (hLe : w + w ≤ v)
    (a b : BitVec w) :
    ((a.setWidth v * b.setWidth v) >>> w).setWidth w =
      highUnsigned a b := by
  rw [setWidth_mul_setWidth, high_ofInt hLe]
  unfold highUnsigned
  rw [← BitVec.ofInt_natCast]
  rfl

theorem highSigned_eq
    {w v : Nat}
    (hLe : w + w ≤ v)
    (a b : BitVec w) :
    ((a.signExtend v * b.signExtend v) >>> w).setWidth w =
      highSigned a b := by
  rw [signExtend_mul_signExtend, high_ofInt hLe]
  rfl

theorem and_low (value : BitVec 64) :
    value &&& 0xffffffff#64 =
      (value.setWidth 32).setWidth 64 := by
  apply BitVec.eq_of_toNat_eq
  have hLow :
      (value &&& 0xffffffff#64).toNat =
        value.toNat % 2 ^ 32 :=
    toNat_and_mask 32 (by decide) value
  rw [hLow, BitVec.toNat_setWidth, BitVec.toNat_setWidth]
  omega

------------------------------------------------------------
-- Division
------------------------------------------------------------

/- The host divides where the instruction does. -/
theorem hostSdiv_eq
    {a b : BitVec 64}
    (hDivisor : b ≠ 0#64)
    (hFits : a ≠ BitVec.intMin 64 ∨ b ≠ BitVec.allOnes 64) :
    hostSdiv a b = .ok (a.sdiv b) := by
  unfold hostSdiv
  rw [if_neg]
  rintro (hZero | ⟨hMin, hOnes⟩)
  · exact hDivisor hZero
  · rcases hFits with hA | hB
    · exact hA hMin
    · exact hB hOnes

/- A quotient that does not fit says nothing. -/
theorem signedQuotient_of_intMin
    {w : Nat}
    (hWidth : 0 < w)
    (q : BitVec w) :
    SignedQuotient (BitVec.intMin w) (BitVec.allOnes w) q := by
  intro _ hFits
  exfalso
  have hMin := BitVec.toInt_intMin_of_pos hWidth
  have hOnes : (BitVec.allOnes w).toInt = -1 := by
    rw [BitVec.toInt_allOnes, if_pos hWidth]
  have hPow : (2 : Int) ^ w = 2 * 2 ^ (w - 1) := by
    rw [← pow_succ', Nat.sub_add_cancel hWidth]
  rw [hMin, hOnes, Int.tdiv_neg, Int.tdiv_one, Int.neg_neg,
    hPow] at hFits
  exact lt_irrefl _ hFits

theorem signedQuotient_sdiv
    {w : Nat}
    {a b : BitVec w}
    (hFits : a ≠ BitVec.intMin w ∨ b ≠ BitVec.allOnes w) :
    SignedQuotient a b (a.sdiv b) := by
  intro _ _
  apply BitVec.toInt_sdiv_of_ne_or_ne
  rw [BitVec.neg_one_eq_allOnes]
  exact hFits

theorem emulateDivd_quotient
    (ra rb rt : Gpr)
    (oe rc : Bool)
    (r : Registers R) :
    ∃ ov q,
      emulateDivd ra rb rt oe rc r =
          .ok (updateCR0OV oe rc ov q (r.setGPR rt q)) ∧
        SignedQuotient (r.gpr ra) (r.gpr rb) q := by
  unfold emulateDivd
  dsimp only
  split
  · rename_i hOv
    refine ⟨_, _, rfl, ?_⟩
    rw [Bool.or_eq_true, Bool.and_eq_true, beq_iff_eq,
      beq_iff_eq, beq_iff_eq] at hOv
    rcases hOv with hZero | ⟨hMin, hOnes⟩
    · exact fun hNe => absurd hZero hNe
    · rw [hMin, hOnes]
      exact signedQuotient_of_intMin (by decide) _
  · rename_i hOv
    rw [Bool.or_eq_true, Bool.and_eq_true, beq_iff_eq,
      beq_iff_eq, beq_iff_eq, not_or, not_and_or] at hOv
    rw [hostSdiv_eq hOv.1 hOv.2]
    exact ⟨_, _, rfl, signedQuotient_sdiv hOv.2⟩

/- A word with its sign in a register. -/
private theorem signExtend_bounds (word : BitVec 32) :
    (word.signExtend 64).toInt = word.toInt ∧
      -2 ^ 31 ≤ word.toInt ∧ word.toInt < 2 ^ 31 := by
  have hLow := BitVec.le_toInt word
  have hHigh := BitVec.toInt_lt (x := word)
  refine ⟨BitVec.toInt_signExtend_of_le (by decide), ?_⟩
  omega

/- A quotient of words, taken in a wider register. -/
theorem signedQuotient_word
    {wordA wordB : BitVec 32}
    (hFits : wordA.signExtend 64 ≠ BitVec.intMin 64) :
    SignedQuotient wordA wordB
      (((wordA.signExtend 64).sdiv
        (wordB.signExtend 64)).setWidth 32) := by
  intro hNe hRange
  rcases signExtend_bounds wordA with ⟨hA, hLow, hHigh⟩
  rcases signExtend_bounds wordB with ⟨hB, -, -⟩
  have hQuotient :=
    BitVec.toInt_sdiv_of_ne_or_ne (wordA.signExtend 64)
      (wordB.signExtend 64) (.inl hFits)
  rw [hA, hB] at hQuotient
  have hAbs :=
    Int.natAbs_tdiv_le_natAbs wordA.toInt wordB.toInt
  have hWord :
      (wordA.signExtend 64).sdiv (wordB.signExtend 64) =
        BitVec.ofInt 64
          (wordA.toInt.tdiv wordB.toInt) := by
    rw [← hQuotient, BitVec.ofInt_toInt]
  rw [hWord, low_ofInt (by decide)]
  apply BitVec.toInt_ofInt_eq_self (by decide)
  · omega
  · omega

theorem emulateDivw_quotient
    (ra rb rt : Gpr)
    (oe rc : Bool)
    (r : Registers R) :
    ∃ ov q,
      emulateDivw ra rb rt oe rc r =
          .ok (updateCR0OV oe rc ov q (r.setGPR rt q)) ∧
        SignedQuotient ((r.gpr ra).setWidth 32)
          ((r.gpr rb).setWidth 32) (q.setWidth 32) := by
  rcases signExtend_bounds ((r.gpr ra).setWidth 32) with
    ⟨hA, hLow, hHigh⟩
  rcases signExtend_bounds ((r.gpr rb).setWidth 32) with
    ⟨hB, -, -⟩
  have hMin :
      ((r.gpr ra).setWidth 32).signExtend 64 ≠
        BitVec.intMin 64 := by
    intro hEq
    rw [hEq] at hA
    have hValue : (BitVec.intMin 64).toInt = -2 ^ 63 := rfl
    omega
  unfold emulateDivw
  dsimp only
  split
  · rename_i hOv
    refine ⟨_, _, rfl, fun hNe => ?_⟩
    exfalso
    rw [Bool.or_eq_true, Bool.and_eq_true, beq_iff_eq,
      beq_iff_eq, beq_iff_eq] at hOv
    rcases hOv with hZero | ⟨hEq, -⟩
    · rw [hZero] at hB
      exact hNe (BitVec.eq_of_toInt_eq hB.symm)
    · rw [hEq] at hA
      have hValue : (0x80000000#64).toInt = 2 ^ 31 := rfl
      omega
  · rename_i hOv
    rw [Bool.or_eq_true, beq_iff_eq, not_or] at hOv
    rw [hostSdiv_eq hOv.1 (.inl hMin)]
    exact ⟨_, _, rfl, signedQuotient_word hMin⟩

theorem emulateDivwu_quotient
    (ra rb rt : Gpr)
    (oe rc : Bool)
    (r : Registers R) :
    ∃ ov q,
      emulateDivwu ra rb rt oe rc r =
          .ok (updateCR0OV oe rc ov q (r.setGPR rt q)) ∧
        UnsignedQuotient ((r.gpr ra).setWidth 32)
          ((r.gpr rb).setWidth 32) (q.setWidth 32) := by
  unfold emulateDivwu
  dsimp only
  split
  · rename_i hOv
    exact
      ⟨_, _, rfl, fun hNe => absurd (beq_iff_eq.mp hOv) hNe⟩
  · rename_i hOv
    rw [beq_iff_eq] at hOv
    unfold hostUdiv
    rw [if_neg hOv]
    refine ⟨_, _, rfl, fun _ => ?_⟩
    rw [BitVec.setWidth_setWidth_of_le _ (by decide),
      BitVec.setWidth_eq]
    exact BitVec.toNat_udiv

theorem emulateDivdu_quotient
    (ra rb rt : Gpr)
    (oe rc : Bool)
    (r : Registers R) :
    ∃ ov q,
      emulateDivdu ra rb rt oe rc r =
          .ok (updateCR0OV oe rc ov q (r.setGPR rt q)) ∧
        UnsignedQuotient (r.gpr ra) (r.gpr rb) q := by
  unfold emulateDivdu
  dsimp only
  split
  · rename_i hOv
    exact
      ⟨_, _, rfl, fun hNe => absurd (beq_iff_eq.mp hOv) hNe⟩
  · rename_i hOv
    rw [beq_iff_eq] at hOv
    unfold hostUdiv
    rw [if_neg hOv]
    exact ⟨_, _, rfl, fun _ => BitVec.toNat_udiv⟩

def IsDivision : IntegerInstr → Prop
  | .divd | .divdu | .divw | .divwu => True
  | _ => False

/- What is shown of a division is shown of its quotient. -/
theorem division_rule
    {i : IntegerInstr}
    {x : BitVec 32}
    {r : Registers R}
    {P : Registers R → Prop}
    (hDivision : IsDivision i)
    (hAll :
      ∀ ov q, ProductExact i x r q →
        P (updateCR0OV (oe x) (rc x) ov q
          (r.setGPR (rt x) q))) :
    ∃ r', emulateInteger i x r = .ok r' ∧ P r' := by
  have hQuotient :
      ∃ ov q,
        emulateInteger i x r =
            .ok (updateCR0OV (oe x) (rc x) ov q
              (r.setGPR (rt x) q)) ∧
          ProductExact i x r q := by
    cases i with
    | divd => exact emulateDivd_quotient _ _ _ _ _ r
    | divdu => exact emulateDivdu_quotient _ _ _ _ _ r
    | divw => exact emulateDivw_quotient _ _ _ _ _ r
    | divwu => exact emulateDivwu_quotient _ _ _ _ _ r
    | _ => cases hDivision
  rcases hQuotient with ⟨ov, q, hRun, hExact⟩
  exact ⟨_, hRun, hAll ov q hExact⟩

theorem emulateInteger_product_iff
    {i : IntegerInstr}
    (hProduct : IsProduct i)
    (x : BitVec 32)
    (r : Registers R) :
    ∃ r', emulateInteger i x r = .ok r' ∧
      (ProductExact i x r (r'.gpr (rt x)) ↔
        ProductCondition i x r) := by
  cases i with
  | mulli =>
      refine ⟨_, rfl, iff_of_true ?_ trivial⟩
      simp only [emulateMulli, Registers.setGPR_gpr_self,
        ProductExact]
      rw [signExtend_mul_signExtend,
        low_ofInt (by decide)]
  | mulld =>
      refine ⟨_, rfl, iff_of_true ?_ trivial⟩
      simp only [emulateMulld, updateCR0OV_gpr,
        Registers.setGPR_gpr_self, ProductExact]
      rw [BitVec.setWidth_setWidth_of_le _ (by decide),
        BitVec.setWidth_eq, BitVec.ofInt_mul,
        BitVec.ofInt_toInt, BitVec.ofInt_toInt]
  | mullw =>
      refine ⟨_, rfl, ?_⟩
      simp only [emulateMullw, updateCR0OV_gpr,
        Registers.setGPR_gpr_self, ProductExact,
        ProductCondition]
      rw [and_low, and_low, setWidth_mul_setWidth,
        BitVec.ofInt_natCast]
      exact wide_eq_iff _ _
  | mulhd =>
      refine ⟨_, rfl, ?_⟩
      simp only [emulateMulhd, setRecorded_gpr_self,
        ProductExact, ProductCondition]
      rw [highUnsigned_eq (by decide), high_eq_iff]
  | mulhdu =>
      refine ⟨_, rfl, iff_of_true ?_ trivial⟩
      simp only [emulateMulhdu, setRecorded_gpr_self,
        ProductExact]
      exact highUnsigned_eq (by decide) _ _
  | mulhw =>
      refine ⟨_, rfl, iff_of_true ?_ trivial⟩
      simp only [emulateMulhw, setRecorded_gpr_self,
        ProductExact]
      exact highSigned_eq (by decide) _ _
  | mulhwu =>
      refine ⟨_, rfl, iff_of_true ?_ trivial⟩
      simp only [emulateMulhwu, setRecorded_gpr_self,
        ProductExact]
      exact highUnsigned_eq (by decide) _ _
  | divd | divdu | divw | divwu =>
      refine
        division_rule trivial
          (fun ov q hQuotient => iff_of_true ?_ trivial)
      rw [updateCR0OV_gpr, Registers.setGPR_gpr_self]
      exact hQuotient
  | _ => cases hProduct

/- The same of a word that decodes to the instruction. -/
theorem emulate_product_iff
    (env : Env R)
    (x : BitVec 32)
    (cia : BitVec 64)
    (t : PPUThread R)
    (i : IntegerInstr)
    (hDecode : decode x = some (.integer i))
    (hProduct : IsProduct i) :
    ∃ t', emulate env x cia t = .ok t' ∧
      (ProductExact i x t.regs (t'.regs.gpr (rt x)) ↔
        ProductCondition i x t.regs) := by
  rcases emulateInteger_product_iff hProduct x t.regs with
    ⟨r, hRun, hIff⟩
  exact ⟨_, emulate_integer env hDecode cia hRun, hIff⟩

/- divw r4,r3,r5, with a zero divisor. -/
theorem emulate_product_iff_divw :
    ∃ t', emulate (idle Unit) 0x7c832bd6#32 0#64 cleared =
        .ok t' ∧
      (ProductExact .divw 0x7c832bd6#32 cleared.regs
          (t'.regs.gpr (rt 0x7c832bd6#32)) ↔
        ProductCondition .divw 0x7c832bd6#32
          cleared.regs) :=
  emulate_product_iff (idle Unit) 0x7c832bd6#32 0#64 cleared
    .divw (by decide) trivial

/- mulhd r4,r3,r3 with minus one in r3: 1 has no high half. -/
theorem mulhd_not_exact :
    ¬ ∀ (env : Env Unit)
        (x : BitVec 32)
        (cia : BitVec 64)
        (t : PPUThread Unit)
        (i : IntegerInstr),
        decode x = some (.integer i) → IsProduct i →
          ∃ t', emulate env x cia t = .ok t' ∧
            ProductExact i x t.regs
              (t'.regs.gpr (rt x)) := by
  intro hAll
  rcases hAll (idle Unit) 0x7c831892#32 0#64
      { cleared with
        regs :=
          { cleared.regs with
            gpr := fun _ => BitVec.allOnes 64 } }
      .mulhd (by decide) trivial with
    ⟨t', hRun, hExact⟩
  cases hRun
  have hHigh :
      0xfffffffffffffffe#64 =
        highSigned (BitVec.allOnes 64)
          (BitVec.allOnes 64) :=
    hExact
  revert hHigh
  decide

end Ppu

end Ps3emu
