import Ps3emu.Ppu.Record

/-
  The overflow forms of the XO-form instructions, against the
  overflow bits of the instruction set.

  Key definitions include:
    * `clearOE`
    * `Overflows`
    * `OverflowExact`, `OverflowCondition`

  Key theorems include:
    * `decode_clears_eq_none`
    * `emulate_overflow_iff`
-/

------------------------------------------------------------
-- Words and Instruction Set
------------------------------------------------------------

namespace Ps3emu

namespace Ppu

open Registers

variable {R : Type}

/- The form of a word that does not enable overflows. -/
def clearOE (x : BitVec 32) : BitVec 32 :=
  x &&& ~~~(1#32 <<< 10)

theorem getLsbD_clearOE
    (x : BitVec 32)
    {j : Nat}
    (hJ : j ≠ 10) :
    (clearOE x).getLsbD j = x.getLsbD j := by
  unfold clearOE
  rw [← BitVec.twoPow_eq, BitVec.getLsbD_and,
    BitVec.getLsbD_not, BitVec.getLsbD_twoPow]
  by_cases hLt : j < 32
  · simp [hLt, hJ.symm]
  · simp [BitVec.getLsbD_of_ge x j (Nat.not_lt.mp hLt)]

/- The other fields of a word stay. -/
theorem field_clearOE
    (x : BitVec 32)
    {pos next : Nat}
    (hNext : next ≤ 32)
    (hApart : next ≤ 21 ∨ 22 ≤ pos) :
    field (clearOE x) pos next = field x pos next := by
  apply BitVec.eq_of_getLsbD_eq
  intro i hi
  rw [getLsbD_field, getLsbD_field, getLsbD_clearOE x]
  omega

def IsOverflowForm : IntegerInstr → Prop
  | .add | .addc | .addze | .subf | .subfc | .subfe | .neg
  | .mullw | .mulld | .divw | .divwu | .divd | .divdu => True
  | _ => False

/- A number that a width does not have. -/
def OutOfRange (w : Nat) (v : Int) : Prop :=
  2 * v < -2 ^ w ∨ 2 ^ w ≤ 2 * v

instance (w : Nat) (v : Int) :
    Decidable (OutOfRange w v) :=
  inferInstanceAs (Decidable (_ ∨ _))

/- When the instruction set has an overflow. -/
def Overflows
    (i : IntegerInstr)
    (x : BitVec 32)
    (r : Registers R) : Prop :=
  let a := r.gpr (ra x)
  let b := r.gpr (rb x)
  let wordA := a.setWidth 32
  let wordB := b.setWidth 32
  let ca : Int := r.getCA.toNat
  match i with
  | .add | .addc => OutOfRange 64 (a.toInt + b.toInt)
  | .addze => OutOfRange 64 (a.toInt + ca)
  | .subf | .subfc => OutOfRange 64 (b.toInt - a.toInt)
  | .subfe => OutOfRange 64 (b.toInt - a.toInt - 1 + ca)
  | .neg => OutOfRange 64 (-a.toInt)
  | .mullw => OutOfRange 32 (wordA.toInt * wordB.toInt)
  | .mulld => OutOfRange 64 (a.toInt * b.toInt)
  | .divd =>
      b = 0#64 ∨ OutOfRange 64 (a.toInt.tdiv b.toInt)
  | .divw =>
      wordB = 0#32 ∨
        OutOfRange 32 (wordA.toInt.tdiv wordB.toInt)
  | .divdu => b = 0#64
  | .divwu => wordB = 0#32
  | _ => False

/-
  A word is decoded to the instruction of the plain form,
  has its result, and sets both overflow bits.
-/
def OverflowExact
    (env : Env R)
    (x : BitVec 32)
    (cia : BitVec 64)
    (t : PPUThread R)
    (i : IntegerInstr) : Prop :=
  decode x = some (.integer i) ∧
    ∃ t' t₀,
      emulate env x cia t = .ok t' ∧
        emulate env (clearOE x) cia t = .ok t₀ ∧
          t'.regs.gpr = t₀.regs.gpr ∧
            (t'.regs.getOV = true ↔ Overflows i x t.regs) ∧
              t'.regs.getSO =
                (t.regs.getSO || t'.regs.getOV)

/-
  The two instructions that are decoded take a borrow or a
  carry for an overflow, and never clear the bit.
-/
def OverflowCondition
    (i : IntegerInstr)
    (x : BitVec 32)
    (r : Registers R) : Prop :=
  (i = .subf ∨ i = .addze) ∧
    if raises i x r then Overflows i x r
    else
      (r.getOV = true ↔ Overflows i x r) ∧
        (r.getOV = true → r.getSO = true)

------------------------------------------------------------
-- Decoding
------------------------------------------------------------

theorem xoXO_clearOE (x : BitVec 32) :
    xoXO (clearOE x) = xoXO x :=
  field_clearOE x (by decide) (.inr (by decide))

theorem opcd_clearOE (x : BitVec 32) :
    opcd (clearOE x) = opcd x :=
  field_clearOE x (by decide) (.inl (by decide))

theorem oe_clearOE (x : BitVec 32) :
    oe (clearOE x) = false := by
  unfold oe flag clearOE
  simp

/- The overflow bit is the first one of the opcode. -/
theorem toNat_xoX (x : BitVec 32) :
    (xoX x).toNat = 512 * (oe x).toNat + (xoXO x).toNat := by
  unfold xoX xoXO oe flag field
  rw [BitVec.extractLsb'_toNat, BitVec.extractLsb'_toNat,
    BitVec.getLsbD, Nat.toNat_testBit,
    Nat.shiftRight_eq_div_pow]
  omega

theorem toNat_xoXS (x : BitVec 32) :
    (xoXS x).toNat = (xoX x).toNat / 2 := by
  unfold xoXS xoX field
  rw [BitVec.extractLsb'_toNat, BitVec.extractLsb'_toNat,
    Nat.shiftRight_eq_div_pow, Nat.shiftRight_eq_div_pow]
  omega

/- Two instructions are found whatever their first bit is. -/
theorem decode_eq_subf (x : BitVec 32) :
    decode x = some (.integer .subf) ↔
      opcd x = 31#6 ∧ xoXO x = 40#9 := by
  constructor
  · intro hDecode
    have hCases :=
      @decode31_of_decode x
        (fun i => decide (i = .integer .subf)) (by decide)
        (.integer .subf) hDecode rfl
    refine ⟨hCases.1, ?_⟩
    rcases decode31_cases hCases.2 with
      ⟨hXo, -⟩ | ⟨-, hEq⟩ | ⟨-, hEq⟩ | ⟨-, -, hLookup⟩
    · exact hXo
    · cases hEq
    · cases hEq
    · exact absurd rfl
        (@of_lookup opcode31
          (fun _ i => i ≠ .integer .subf) (by decide) _ _
          hLookup)
  · rintro ⟨hOpcd, hXo⟩
    unfold decode decode31
    rw [hOpcd, hXo]
    rfl

theorem decode_eq_addze (x : BitVec 32) :
    decode x = some (.integer .addze) ↔
      opcd x = 31#6 ∧ xoXO x = 202#9 := by
  constructor
  · intro hDecode
    have hCases :=
      @decode31_of_decode x
        (fun i => decide (i = .integer .addze)) (by decide)
        (.integer .addze) hDecode rfl
    refine ⟨hCases.1, ?_⟩
    rcases decode31_cases hCases.2 with
      ⟨-, hEq⟩ | ⟨hXo, -⟩ | ⟨-, hEq⟩ | ⟨-, -, hLookup⟩
    · cases hEq
    · exact hXo
    · cases hEq
    · exact absurd rfl
        (@of_lookup opcode31
          (fun _ i => i ≠ .integer .addze) (by decide) _ _
          hLookup)
  · rintro ⟨hOpcd, hXo⟩
    unfold decode decode31
    rw [hOpcd, hXo]
    rfl

/- The others have no case with their first bit set. -/
def opcode31Rejects (k : Nat) (i : Instr) : Prop :=
  i.clearsOE = true →
    opcode31.lookup (512 + k) = none ∧ (512 + k) / 2 ≠ 413

instance (k : Nat) (i : Instr) :
    Decidable (opcode31Rejects k i) :=
  inferInstanceAs (Decidable (_ → _))

theorem decode_clears_eq_none
    {x : BitVec 32}
    {i : IntegerInstr}
    (hOE : oe x = true)
    (hDecode : decode (clearOE x) = some (.integer i))
    (hClears : ClearsOE i = true) :
    decode x = none := by
  have hCases :=
    decode31_of_decode
      (show ∀ table ∈ otherTables, ∀ p ∈ table,
        Instr.clearsOE p.2 = false by decide)
      hDecode hClears
  have hOpcd := hCases.1
  have hPlain := toNat_xoX (clearOE x)
  rw [oe_clearOE, xoXO_clearOE, Bool.toNat_false,
    Nat.mul_zero, Nat.zero_add] at hPlain
  have hWord := toNat_xoX x
  rw [hOE, Bool.toNat_true, Nat.mul_one] at hWord
  rw [opcd_clearOE] at hOpcd
  rcases decode31_cases hCases.2 with
    ⟨-, hEq⟩ | ⟨-, hEq⟩ | ⟨-, hEq⟩ |
      ⟨hSubf, hAddze, hLookup⟩
  · cases hEq
    cases hClears
  · cases hEq
    cases hClears
  · cases hEq
    cases hClears
  rw [xoXO_clearOE] at hSubf hAddze
  have hRejects :=
    of_lookup
      (show ∀ p ∈ opcode31, opcode31Rejects p.1 p.2 by
        decide)
      hLookup hClears
  rw [hPlain, ← hWord] at hRejects
  have hSradi : xoXS x ≠ 413#9 := by
    intro hEq
    apply hRejects.2
    rw [← toNat_xoXS, hEq]
    rfl
  unfold decode
  rw [hOpcd]
  unfold decode31
  simp only [hSubf, hAddze, hSradi, if_false, hRejects.1]
  rfl

------------------------------------------------------------
-- Overflow Forms
------------------------------------------------------------

@[simp] theorem updateCR0_getOV
    (result : BitVec 64)
    (r : Registers R) :
    (updateCR0 result r).getOV = r.getOV :=
  rfl

theorem updateCR0OV_getOV
    (oe rc ov : Bool)
    (result : BitVec 64)
    (r : Registers R) :
    (updateCR0OV oe rc ov result r).getOV =
      (r.getOV || (oe && ov)) := by
  unfold updateCR0OV
  cases oe && ov with
  | false => cases rc <;> simp
  | true => cases rc <;> simp

theorem updateCR0OV_getSO
    (oe rc ov : Bool)
    (result : BitVec 64)
    (r : Registers R) :
    (updateCR0OV oe rc ov result r).getSO =
      (r.getSO || (oe && ov)) := by
  unfold updateCR0OV
  cases oe && ov with
  | false => cases rc <;> simp
  | true => cases rc <;> simp

/- An overflow that is only ever raised. -/
private theorem raised_iff
    (ov so raised : Bool)
    (P : Prop) :
    (((ov || raised) = true ↔ P) ∧
        (so || raised) = (so || (ov || raised))) ↔
      if raised then P
      else (ov = true ↔ P) ∧ (ov = true → so = true) := by
  cases raised with
  | false => cases ov <;> cases so <;> simp
  | true => simp

/- What both instructions that are decoded come to. -/
private theorem overflow_iff_of_update
    {i : IntegerInstr}
    {x : BitVec 32}
    {env : Env R}
    {cia : BitVec 64}
    {t : PPUThread R}
    {ov : Bool}
    {result : BitVec 64}
    (hDecode : decode x = some (.integer i))
    (hPlain : decode (clearOE x) = some (.integer i))
    (hRun : emulateInteger i x t.regs =
      .ok (updateCR0OV (oe x) (rc x) ov result
        (t.regs.setGPR (rt x) result)))
    (hRunPlain : ∃ ov₀,
      emulateInteger i (clearOE x) t.regs =
        .ok (updateCR0OV false (rc x) ov₀ result
          (t.regs.setGPR (rt x) result)))
    (hRaises : (oe x && ov) = raises i x t.regs)
    (hForm : i = .subf ∨ i = .addze) :
    OverflowExact env x cia t i ↔
      OverflowCondition i x t.regs := by
  rcases hRunPlain with ⟨ov₀, hRunPlain⟩
  have hWord := emulate_integer env hDecode cia hRun
  have hWordPlain :=
    emulate_integer env hPlain cia hRunPlain
  unfold OverflowExact OverflowCondition
  rw [and_iff_right hDecode, and_iff_right hForm,
    ← raised_iff]
  constructor
  · rintro ⟨t', t₀, hOk, -, -, hOV, hSO⟩
    rw [hWord] at hOk
    rw [← Except.ok.inj hOk] at hOV hSO
    dsimp only at hOV hSO
    rw [updateCR0OV_getOV, hRaises] at hOV hSO
    rw [updateCR0OV_getSO, hRaises] at hSO
    exact ⟨hOV, hSO⟩
  · rintro ⟨hOV, hSO⟩
    refine ⟨_, _, hWord, hWordPlain, ?_, ?_⟩
    · rw [updateCR0OV_gpr, updateCR0OV_gpr]
    · dsimp only
      rw [updateCR0OV_getOV, updateCR0OV_getSO, hRaises]
      exact ⟨hOV, hSO⟩

theorem emulate_overflow_iff
    (env : Env R)
    (x : BitVec 32)
    (cia : BitVec 64)
    (t : PPUThread R)
    (i : IntegerInstr)
    (hOE : oe x = true)
    (hPlain : decode (clearOE x) = some (.integer i))
    (hForm : IsOverflowForm i) :
    OverflowExact env x cia t i ↔
      OverflowCondition i x t.regs := by
  have hRt : rt (clearOE x) = rt x :=
    field_clearOE x (by decide) (.inl (by decide))
  have hRa : ra (clearOE x) = ra x :=
    field_clearOE x (by decide) (.inl (by decide))
  have hRb : rb (clearOE x) = rb x :=
    field_clearOE x (by decide) (.inl (by decide))
  have hRc : rc (clearOE x) = rc x :=
    getLsbD_clearOE x (by decide)
  have hOEPlain := oe_clearOE x
  by_cases hClears : ClearsOE i = true
  · refine iff_of_false ?_ ?_
    · rintro ⟨hDecode, -⟩
      rw [decode_clears_eq_none hOE hPlain hClears]
        at hDecode
      cases hDecode
    · rintro ⟨hSubf | hAddze, -⟩
      · rw [hSubf] at hClears
        cases hClears
      · rw [hAddze] at hClears
        cases hClears
  cases i with
  | subf =>
      have hDecode := (decode_eq_subf _).mp hPlain
      rw [opcd_clearOE, xoXO_clearOE, ← decode_eq_subf]
        at hDecode
      refine overflow_iff_of_update hDecode hPlain rfl ?_ ?_
        (.inl rfl)
      · unfold emulateInteger
        dsimp only
        rw [hRa, hRb, hRt, hRc, hOEPlain]
        exact ⟨_, rfl⟩
      · rw [hOE]
        unfold raises
        rw [hOE]
        rfl
  | addze =>
      have hDecode := (decode_eq_addze _).mp hPlain
      rw [opcd_clearOE, xoXO_clearOE, ← decode_eq_addze]
        at hDecode
      refine overflow_iff_of_update hDecode hPlain rfl ?_ ?_
        (.inr rfl)
      · unfold emulateInteger
        dsimp only
        rw [hRa, hRt, hRc, hOEPlain]
        exact ⟨_, rfl⟩
      · rw [maxWord_lt_iff]
        rfl
  | add | addc | subfc | subfe | neg | mullw | mulld | divw
  | divwu | divd | divdu => exact absurd rfl hClears
  | _ => cases hForm

/- subfo r4,r3,r5. -/
theorem emulate_overflow_iff_subfo :
    OverflowExact (idle Unit) 0x7c832c50#32 0#64 cleared
        .subf ↔
      OverflowCondition .subf 0x7c832c50#32 cleared.regs :=
  emulate_overflow_iff (idle Unit) 0x7c832c50#32 0#64 cleared
    .subf (by decide) (by decide) trivial

/- addo r4,r3,r5 is not decoded. -/
theorem addo_not_exact :
    ¬ ∀ (env : Env Unit)
        (x : BitVec 32)
        (cia : BitVec 64)
        (t : PPUThread Unit)
        (i : IntegerInstr),
        oe x = true →
          decode (clearOE x) = some (.integer i) →
            IsOverflowForm i →
              OverflowExact env x cia t i := by
  intro hAll
  have hExact :=
    hAll (idle Unit) 0x7c832e14#32 0#64 cleared .add
      (by decide) (by decide) trivial
  have hDecode := hExact.1
  revert hDecode
  decide

end Ppu

end Ps3emu
