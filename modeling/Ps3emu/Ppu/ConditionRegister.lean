import Ps3emu.Ppu.Interpreter

/-
  The instructions on the bits and the fields of the
  condition register, against the boolean functions they are
  named after.

  Key definitions include:
    * `ConditionInstr`
    * `ConditionInstr.function`
    * `Meets`

  Key theorems include:
    * `crBit_bitSet`
    * `meets_of_function`
    * `emulateRegister_meets_iff`
-/

------------------------------------------------------------
-- Bits and Instructions
------------------------------------------------------------

namespace Ps3emu

namespace Ppu

variable {R : Type}

/- The bits are numbered from the left. -/
def crBit
    (cr : BitVec 32)
    (b : BitVec 5) : Bool :=
  cr.getMsbD b.toNat

theorem bitTest_eq_crBit
    (cr : BitVec 32)
    (b : BitVec 5) :
    bitTest cr 32 b.toNat = crBit cr b := by
  have hB := b.isLt
  have hPos : 32 - b.toNat - 1 = 32 - 1 - b.toNat := by omega
  rw [bitTest, crBit, BitVec.getMsbD, hPos]
  simp [hB]

/- A bit that is written, and the others. -/
theorem crBit_bitSet
    (cr : BitVec 32)
    (t b : BitVec 5)
    (val : Bool) :
    crBit (bitSet cr t.toNat val) b =
      if b = t then val else crBit cr b := by
  have hB := b.isLt
  have hT := t.isLt
  have hOne :
      ∀ j, (1#32 <<< (32 - t.toNat - 1)).getLsbD j =
        decide (32 - t.toNat - 1 = j) := by
    intro j
    rw [← BitVec.twoPow_eq, BitVec.getLsbD_twoPow]
    have hLt : 32 - t.toNat - 1 < 32 := by omega
    simp [hLt]
  have hAt : 32 - 1 - b.toNat < 32 := by omega
  unfold crBit bitSet
  rw [BitVec.getMsbD, BitVec.getMsbD]
  simp only [hB, decide_true, Bool.true_and]
  rw [BitVec.getLsbD_or, BitVec.getLsbD_and,
    BitVec.getLsbD_not, hOne, BitVec.getLsbD_shiftLeft,
    BitVec.getLsbD_setWidth, BitVec.getLsbD_ofBool]
  by_cases hSame : b = t
  · subst hSame
    have hPos : 32 - b.toNat - 1 = 32 - 1 - b.toNat := by
      omega
    have hZero :
        32 - 1 - b.toNat - (32 - b.toNat - 1) = 0 := by
      omega
    simp [hPos, hAt]
  · have hNe : b.toNat ≠ t.toNat := fun hEq =>
      hSame (BitVec.eq_of_toNat_eq hEq)
    have hOther : 32 - t.toNat - 1 ≠ 32 - 1 - b.toNat := by
      omega
    by_cases hBelow : 32 - 1 - b.toNat < 32 - t.toNat - 1
    · simp [hSame, hOther, hAt, hBelow]
    · have hShift :
          32 - 1 - b.toNat - (32 - t.toNat - 1) ≠ 0 := by
        omega
      simp [hSame, hOther, hAt, hBelow, hShift]

inductive ConditionInstr where
  | crand | crnand | cror | crxor | crnor | creqv | crandc
  | crorc | mcrf
deriving DecidableEq

namespace ConditionInstr

def instr : ConditionInstr → RegisterInstr
  | crand => .crand
  | crnand => .crnand
  | cror => .cror
  | crxor => .crxor
  | crnor => .crnor
  | creqv => .creqv
  | crandc => .crandc
  | crorc => .crorc
  | mcrf => .mcrf

/- The boolean function an instruction is named after. -/
def function : ConditionInstr → Option (Bool → Bool → Bool)
  | crand => some (fun a b => a && b)
  | crnand => some (fun a b => !(a && b))
  | cror => some (fun a b => a || b)
  | crxor => some (fun a b => a != b)
  | crnor => some (fun a b => !(a || b))
  | creqv => some (fun a b => a == b)
  | crandc => some (fun a b => a && !b)
  | crorc => some (fun a b => a || !b)
  | mcrf => none

end ConditionInstr

/- One bit becomes a function of two bits. -/
structure SetsBit
    (f : Bool → Bool → Bool)
    (t a b : BitVec 5)
    (r r' : Registers R) : Prop where
  target : crBit r'.cr t = f (crBit r.cr a) (crBit r.cr b)
  others : ∀ c, c ≠ t → crBit r'.cr c = crBit r.cr c
  rest : r' = { r with cr := r'.cr }

/- One field becomes a copy of a field. -/
structure CopiesField
    (n m : CrIndex)
    (r r' : Registers R) : Prop where
  target : crField r'.cr n = crField r.cr m
  others : ∀ c, c ≠ n → crField r'.cr c = crField r.cr c
  rest : r' = { r with cr := r'.cr }

/- What the instruction set says of an instruction. -/
def Meets
    (i : ConditionInstr)
    (x : BitVec 32)
    (r r' : Registers R) : Prop :=
  match i.function with
  | some f => SetsBit f (bt x) (ba x) (bb x) r r'
  | none => CopiesField (bf x) (bfa x) r r'

------------------------------------------------------------
-- Correctness
------------------------------------------------------------

/-
  The target bit is all that tells whether the function that
  is computed is the one that was meant.
-/
theorem setsBit_emulateCrLogical_iff
    (op f : Bool → Bool → Bool)
    (t a b : BitVec 5)
    (r : Registers R) :
    SetsBit f t a b r (emulateCrLogical op t a b r) ↔
      op (crBit r.cr a) (crBit r.cr b) =
        f (crBit r.cr a) (crBit r.cr b) := by
  have hBits :
      ∀ c, crBit (emulateCrLogical op t a b r).cr c =
        if c = t then op (crBit r.cr a) (crBit r.cr b)
        else crBit r.cr c := by
    intro c
    rw [emulateCrLogical, bitTest_eq_crBit,
      bitTest_eq_crBit]
    exact crBit_bitSet r.cr t c _
  constructor
  · intro hSets
    have hTarget := hSets.target
    rwa [hBits, if_pos rfl] at hTarget
  · intro hEq
    refine ⟨?_, ?_, rfl⟩
    · rw [hBits, if_pos rfl, hEq]
    · intro c hNe
      rw [hBits, if_neg hNe]

theorem copiesField_emulateMcrf
    (n m : CrIndex)
    (r : Registers R) :
    CopiesField n m r (emulateMcrf n m r) := by
  have hFields :
      ∀ c, crField (emulateMcrf n m r).cr c =
        if c = n then crField r.cr m else crField r.cr c := by
    intro c
    rw [emulateMcrf, Registers.getCRF, get4bitField_eq]
    exact Registers.crField_setCRF r n c _
  refine ⟨?_, ?_, rfl⟩
  · rw [hFields, if_pos rfl]
  · intro c hNe
    rw [hFields, if_neg hNe]

/- An instruction that computes the function of its name. -/
theorem setsBit_of_function
    (f : Bool → Bool → Bool)
    (t a b : BitVec 5)
    (r : Registers R) :
    SetsBit f t a b r (emulateCrLogical f t a b r) :=
  (setsBit_emulateCrLogical_iff f f t a b r).mpr rfl

/-
  Only the first operand of `crnor` is negated before the
  two are combined, and they are combined by an or.
-/
theorem setsBit_emulateCrnor_iff
    (t a b : BitVec 5)
    (r : Registers R) :
    SetsBit (fun a b => !(a || b)) t a b r
        (emulateCrnor t a b r) ↔
      crBit r.cr b = false := by
  rw [emulateCrnor, setsBit_emulateCrLogical_iff]
  cases crBit r.cr a <;> cases crBit r.cr b <;> decide

/-
  Every instruction meets its definition on every register,
  but for `crnor`, which does when its second bit is clear.
-/
theorem emulateRegister_meets_iff
    (i : ConditionInstr)
    (x : BitVec 32)
    (r : Registers R) :
    (∃ r', emulateRegister i.instr x r = .ok r' ∧
        Meets i x r r') ↔
      (i = .crnor → crBit r.cr (bb x) = false) := by
  have hTotal :
      ∀ (f : Registers R), emulateRegister i.instr x r = .ok f →
        ((∃ r', emulateRegister i.instr x r = .ok r' ∧
          Meets i x r r') ↔ Meets i x r f) := by
    intro f hF
    constructor
    · rintro ⟨r', hOk, hMeets⟩
      rw [hF] at hOk
      obtain rfl := Except.ok.inj hOk
      exact hMeets
    · exact fun hMeets => ⟨f, hF, hMeets⟩
  cases i with
  | crnor =>
      rw [hTotal (emulateCrnor (bt x) (ba x) (bb x) r) rfl]
      simp only [forall_const]
      exact setsBit_emulateCrnor_iff (bt x) (ba x) (bb x) r
  | mcrf =>
      rw [hTotal (emulateMcrf (bf x) (bfa x) r) rfl]
      exact iff_of_true (copiesField_emulateMcrf _ _ r) nofun
  | _ =>
      rw [hTotal _ rfl]
      exact iff_of_true (setsBit_of_function _ _ _ _ r) nofun

/- crnor 0,1,2 sets the bit although bit 2 is set. -/
theorem crnor_not_meets :
    ¬ ∀ (i : ConditionInstr)
        (x : BitVec 32)
        (r : Registers Unit),
        ∃ r', emulateRegister i.instr x r = .ok r' ∧
          Meets i x r r' := by
  intro hAll
  rcases hAll .crnor 0x4c011042#32
      ⟨0#64, 0#64, fun _ => 0#64, 1#32 <<< 29, 0#64, 0#32, ()⟩
    with ⟨r', hOk, hMeets⟩
  obtain rfl := Except.ok.inj hOk
  have hBit := (setsBit_emulateCrnor_iff _ _ _ _).mp hMeets
  revert hBit
  decide

end Ppu

end Ps3emu
