import Ps3emu.Ppu.Multiply

/-
  What the fixed-point instructions write to the condition
  register, against the record forms and the comparisons of
  the instruction set.

  Key definitions include:
    * `orderField`
    * `Recorded`, `RecordExact`, `RecordCondition`

  Key theorems include:
    * `oe_of_decode`
    * `emulate_record_iff`
-/

------------------------------------------------------------
-- Overflow and Instructions
------------------------------------------------------------

namespace Ps3emu

namespace Ppu

open Registers

variable {R : Type}

/- The XO-forms that are only decoded with `OE` clear. -/
def ClearsOE : IntegerInstr → Bool
  | .add | .addc | .subfc | .subfe | .neg | .mullw | .mulld
  | .divw | .divwu | .divd | .divdu => true
  | _ => false

def Instr.clearsOE : Instr → Bool
  | .integer i => ClearsOE i
  | _ => false

def opcode31Clears (k : Nat) (i : Instr) : Prop :=
  i.clearsOE = true → k < 512

instance (k : Nat) (i : Instr) :
    Decidable (opcode31Clears k i) :=
  inferInstanceAs (Decidable (_ → _))

variable {x : BitVec 32}

private theorem oe_of_xoX
    (hLt : (xoX x).toNat < 512) :
    oe x = false := by
  have hBit : (xoX x).getLsbD 9 = false :=
    Nat.testBit_lt_two_pow hLt
  unfold xoX at hBit
  rw [getLsbD_field] at hBit
  exact hBit

variable {i : IntegerInstr}

theorem oe_of_decode
    (hDecode : decode x = some (.integer i))
    (hClears : ClearsOE i = true) :
    oe x = false := by
  have hDecode31 :=
    (decode31_of_decode
      (show ∀ table ∈ otherTables, ∀ p ∈ table,
        Instr.clearsOE p.2 = false by decide)
      hDecode hClears).2
  rcases decode31_cases hDecode31 with
    ⟨-, hEq⟩ | ⟨-, hEq⟩ | ⟨-, hEq⟩ | ⟨-, -, hLookup⟩
  · cases hEq
    cases hClears
  · cases hEq
    cases hClears
  · cases hEq
    cases hClears
  · exact oe_of_xoX
      (of_lookup
        (show ∀ p ∈ opcode31, opcode31Clears p.1 p.2 by
          decide)
        hLookup hClears)

/- Less, greater, equal, and the summary overflow. -/
def orderField
    (a b : Int)
    (so : Bool) : BitVec 4 :=
  BitVec.ofBool (decide (a < b)) ++
    BitVec.ofBool (decide (b < a)) ++
      BitVec.ofBool (decide (a = b)) ++ BitVec.ofBool so

/- Field `n` gets a value, and the others stay. -/
def OnlyField
    (n : CrIndex)
    (f : BitVec 4)
    (r r' : Registers R) : Prop :=
  ∀ m, crField r'.cr m = if m = n then f else crField r.cr m

/- What an instruction that may record does to the fields. -/
def Recorded
    (record : Bool)
    (result : BitVec 64)
    (r r' : Registers R) : Prop :=
  if record then
    OnlyField 0#3 (orderField result.toInt 0 r'.getSO) r r'
  else r'.cr = r.cr

/-
  Whether a word records: three instructions always do, and
  those whose words have an immediate never.
-/
def records
    (i : IntegerInstr)
    (x : BitVec 32) : Bool :=
  match i with
  | .addicd | .andid | .andisd => true
  | .addi | .addis | .addic | .subfic | .ori | .oris | .xori
  | .xoris | .mulli => false
  | _ => rc x

/- The register that an instruction writes. -/
def target
    (i : IntegerInstr)
    (x : BitVec 32) : Gpr :=
  match i with
  | .addi | .addis | .add | .addze | .subf | .addic | .addicd
  | .subfic | .addc | .subfc | .subfe | .neg | .divd | .divw
  | .divdu | .divwu | .mulld | .mullw | .mulhd | .mulhw
  | .mulhwu | .mulhdu | .mulli => rt x
  | _ => ra x

/- A word of a comparison stands for its signed number. -/
def signedValue
    (l : Bool)
    (value : BitVec 64) : Int :=
  if l then value.toInt else (value.setWidth 32).toInt

def unsignedValue
    (l : Bool)
    (value : BitVec 64) : Int :=
  if l then value.toNat else (value.setWidth 32).toNat

/- The numbers that a comparison compares. -/
def compared
    (i : IntegerInstr)
    (x : BitVec 32)
    (r : Registers R) : Option (Int × Int) :=
  let a := r.gpr (ra x)
  let b := r.gpr (rb x)
  match i with
  | .cmpi => some (signedValue (l x) a, (si x).toInt)
  | .cmp =>
      some (signedValue (l x) a, signedValue (l x) b)
  | .cmpli => some (unsignedValue (l x) a, (ui x).toNat)
  | .cmpl =>
      some (unsignedValue (l x) a, unsignedValue (l x) b)
  | _ => none

def RecordExact
    (i : IntegerInstr)
    (x : BitVec 32)
    (r r' : Registers R) : Prop :=
  match compared i x r with
  | some (a, b) =>
      OnlyField (bf x) (orderField a b r.getSO) r r'
  | none =>
      Recorded (records i x) (r'.gpr (target i x)) r r'

/- Two instructions can raise an overflow. -/
def raises
    (i : IntegerInstr)
    (x : BitVec 32)
    (r : Registers R) : Bool :=
  match i with
  | .subf =>
      oe x && decide (r.gpr (rb x) < r.gpr (ra x))
  | .addze =>
      oe x && (r.getCA && r.gpr (ra x) == BitVec.allOnes 64)
  | _ => false

/- The number of bits that a sign extension reads. -/
def extended : IntegerInstr → Option Nat
  | .extsb => some 8
  | .extsh => some 16
  | .extsw => some 32
  | _ => none

/-
  The summary bit of the field is that of the other register
  already, or an overflow sets both of them.
-/
def RecordCondition
    (i : IntegerInstr)
    (x : BitVec 32)
    (r : Registers R) : Prop :=
  if (compared i x r).isSome then
    r.summary (bf x) = r.getSO
  else
    match extended i with
    | some w =>
        rc x = true →
          crField r.cr 0#3 =
            orderField ((r.gpr (rs x)).setWidth w).toInt 0
              r.getSO
    | none =>
        if records i x then
          raises i x r = true ∨ r.summary 0#3 = r.getSO
        else
          raises i x r = false ∨ r.summary 0#3 = true

------------------------------------------------------------
-- Fields
------------------------------------------------------------

/- The order of two numbers, as three bits. -/
def signBits (a b : Int) : BitVec 3 :=
  BitVec.ofBool (decide (a < b)) ++
    BitVec.ofBool (decide (b < a)) ++
      BitVec.ofBool (decide (a = b))

theorem orderField_eq
    (a b : Int)
    (so : Bool) :
    orderField a b so = signBits a b ++ BitVec.ofBool so :=
  rfl

theorem sign_eq (a b : Int) :
    (if a < b then 4#8 else if b < a then 2#8 else 1#8) =
      (signBits a b).setWidth 8 := by
  unfold signBits
  rcases lt_trichotomy a b with hLt | rfl | hGt
  · rw [if_pos hLt, decide_eq_true hLt,
      decide_eq_false hLt.not_gt, decide_eq_false hLt.ne]
    rfl
  · rw [if_neg (lt_irrefl a), if_neg (lt_irrefl a),
      decide_eq_false (lt_irrefl a), decide_eq_true rfl]
    rfl
  · rw [if_neg hGt.not_gt, if_pos hGt,
      decide_eq_false hGt.not_gt, decide_eq_true hGt,
      decide_eq_false hGt.ne']
    rfl

theorem orderField_inj
    (a b : Int)
    {so so' : Bool} :
    orderField a b so = orderField a b so' ↔ so = so' := by
  constructor
  · intro hEq
    have hBit :
        (orderField a b so).getLsbD 0 =
          (orderField a b so').getLsbD 0 :=
      congrArg (fun f => f.getLsbD 0) hEq
    rw [orderField_eq, orderField_eq, BitVec.getLsbD_append,
      BitVec.getLsbD_append] at hBit
    simpa using hBit
  · intro hEq
    rw [hEq]

theorem crField_updateCR0
    (result : BitVec 64)
    (r : Registers R)
    (m : CrIndex) :
    crField (updateCR0 result r).cr m =
      if m = 0#3 then
        orderField result.toInt 0 (r.summary 0#3)
      else crField r.cr m := by
  have hSign :
      (if result.slt 0#64 then 4#8
        else if (0#64).slt result then 2#8 else 1#8) =
        (signBits result.toInt 0).setWidth 8 := by
    rw [← sign_eq]
    simp only [BitVec.slt, decide_eq_true_eq,
      BitVec.toInt_zero]
  unfold updateCR0
  rw [hSign, crField_setCRFSign]
  rfl

/- A field that is written is exact if its last bit is. -/
theorem onlyField_iff
    {n : CrIndex}
    {f g : BitVec 4}
    {r r' : Registers R}
    (hOnly : OnlyField n f r r') :
    OnlyField n g r r' ↔ f = g := by
  constructor
  · intro hOther
    have hF := hOnly n
    have hG := hOther n
    rw [if_pos rfl] at hF hG
    rw [← hF, ← hG]
  · intro hEq
    rw [← hEq]
    exact hOnly

@[simp] theorem updateCR0_getSO
    (result : BitVec 64)
    (r : Registers R) :
    (updateCR0 result r).getSO = r.getSO :=
  rfl

theorem summary_setOV (r : Registers R) :
    r.setOV.summary 0#3 = true := by
  unfold summary
  rw [crField_setOV, if_pos rfl, BitVec.getLsbD_or]
  simp

variable {r r₁ : Registers R}

theorem setOV_cr_iff
    (hCr : r₁.cr = r.cr) :
    r₁.setOV.cr = r.cr ↔ r.summary 0#3 = true := by
  have hOr :
      ∀ f : BitVec 4, f ||| 1#4 = f ↔ f.getLsbD 0 = true := by
    decide
  have hField := crField_setOV r₁
  rw [hCr] at hField
  unfold summary
  rw [← hOr]
  constructor
  · intro hEq
    have hZero := hField 0#3
    rw [if_pos rfl, hEq] at hZero
    exact hZero.symm
  · intro hEq
    apply eq_of_crField
    intro m
    rw [hField]
    by_cases hZero : m = 0#3
    · rw [if_pos hZero, hZero, hEq]
    · rw [if_neg hZero]

variable {result : BitVec 64}

/- What is recorded after an instruction that may overflow. -/
theorem recorded_iff
    {oe record ov : Bool}
    (hCr : r₁.cr = r.cr)
    (hSO : r₁.getSO = r.getSO) :
    Recorded record result r
        (updateCR0OV oe record ov result r₁) ↔
      if record then
        (oe && ov) = true ∨ r.summary 0#3 = r.getSO
      else (oe && ov) = false ∨ r.summary 0#3 = true := by
  have hSummary : r₁.summary 0#3 = r.summary 0#3 := by
    unfold summary
    rw [hCr]
  unfold updateCR0OV
  dsimp only
  cases hRaised : oe && ov with
  | false =>
      cases record with
      | false =>
          refine iff_of_true ?_ (.inl rfl)
          exact hCr
      | true =>
          have hOnly :
              OnlyField 0#3
                (orderField result.toInt 0
                  (r.summary 0#3)) r
                (updateCR0 result r₁) := by
            intro m
            rw [crField_updateCR0, hSummary, hCr]
          refine (onlyField_iff hOnly).trans ?_
          rw [orderField_inj, if_pos rfl, if_pos rfl,
            updateCR0_getSO, if_neg Bool.false_ne_true, hSO]
          simp
  | true =>
      cases record with
      | false =>
          refine (setOV_cr_iff hCr).trans ?_
          simp
      | true =>
          refine iff_of_true ?_ (.inl rfl)
          intro m
          rw [if_pos rfl, if_pos rfl, crField_updateCR0,
            summary_setOV, updateCR0_getSO,
            Registers.getSO_setOV, crField_setOV, hCr]
          by_cases hZero : m = 0#3
          · rw [if_pos hZero, if_pos hZero]
          · rw [if_neg hZero, if_neg hZero, if_neg hZero]

------------------------------------------------------------
-- Single Instructions
------------------------------------------------------------

/- An instruction that writes a result and then records it. -/
theorem exact_iff_of_update
    {oe ov : Bool}
    (hCompared : compared i x r = none)
    (hExtended : extended i = none)
    (hCr : r₁.cr = r.cr)
    (hSO : r₁.getSO = r.getSO)
    (hResult : r₁.gpr (target i x) = result)
    (hRaises : (oe && ov) = raises i x r) :
    RecordExact i x r
        (updateCR0OV oe (records i x) ov result r₁) ↔
      RecordCondition i x r := by
  unfold RecordExact RecordCondition
  rw [hCompared, hExtended]
  simp only [Option.isSome_none, Bool.false_eq_true,
    if_false]
  rw [updateCR0OV_gpr, hResult, recorded_iff hCr hSO,
    hRaises]

/- The same, when no overflow can be raised. -/
theorem exact_iff_of_record
    (hCompared : compared i x r = none)
    (hExtended : extended i = none)
    (hCr : r₁.cr = r.cr)
    (hSO : r₁.getSO = r.getSO)
    (hResult : r₁.gpr (target i x) = result)
    (hRaises : raises i x r = false) :
    RecordExact i x r
        (if records i x then updateCR0 result r₁ else r₁) ↔
      RecordCondition i x r := by
  have hUpdate :
      updateCR0OV false (records i x) false result r₁ =
        if records i x then updateCR0 result r₁ else r₁ :=
    rfl
  have hNone : (false && false) = raises i x r :=
    hRaises.symm
  rw [← hUpdate]
  exact
    exact_iff_of_update hCompared hExtended hCr hSO hResult
      hNone

/- Most instructions write a register and may record it. -/
theorem exact_iff_of_setRecorded
    (result : BitVec 64)
    (hCompared : compared i x r = none)
    (hExtended : extended i = none)
    (hRaises : raises i x r = false) :
    RecordExact i x r
        (setRecorded (target i x) (records i x) result r) ↔
      RecordCondition i x r :=
  exact_iff_of_record hCompared hExtended rfl rfl
    (Registers.setGPR_gpr_self _ _ _) hRaises

theorem exact_iff_of_setShifted
    (ca : Bool)
    (result : BitVec 64)
    (hCompared : compared i x r = none)
    (hExtended : extended i = none)
    (hRaises : raises i x r = false) :
    RecordExact i x r
        (setShifted (target i x) (records i x) ca result
          r) ↔
      RecordCondition i x r :=
  exact_iff_of_record hCompared hExtended rfl
    (Registers.getSO_setCA _ _)
    (Registers.setGPR_gpr_self _ _ _) hRaises

/- Sign extensions write no field, whatever `Rc` says. -/
theorem exact_iff_of_extended
    {w : Nat}
    (r : Registers R)
    (hCompared : compared i x r = none)
    (hExtended : extended i = some w)
    (hWidth : w ≤ 64)
    (hRecords : records i x = rc x)
    (hTarget : target i x = ra x) :
    RecordExact i x r
        (r.setGPR (ra x)
          (((r.gpr (rs x)).setWidth w).signExtend 64)) ↔
      RecordCondition i x r := by
  unfold RecordExact RecordCondition Recorded
  rw [hCompared, hExtended, hRecords, hTarget]
  simp only [Option.isSome_none, Bool.false_eq_true,
    if_false, Registers.setGPR_gpr_self,
    Registers.getSO_setGPR, Registers.setGPR_cr]
  cases rc x with
  | false => simp
  | true =>
      rw [if_pos rfl,
        BitVec.toInt_signExtend_of_le hWidth]
      have hOnly :
          OnlyField 0#3 (crField r.cr 0#3) r
            (r.setGPR (ra x)
              (((r.gpr (rs x)).setWidth w).signExtend
                64)) := by
        intro m
        by_cases hZero : m = 0#3
        · rw [if_pos hZero, hZero, Registers.setGPR_cr]
        · rw [if_neg hZero, Registers.setGPR_cr]
      rw [onlyField_iff hOnly]
      exact ⟨fun hEq _ => hEq, fun hEq => hEq rfl⟩

/- A comparison keeps the last bit of its field. -/
theorem exact_iff_of_compared
    {a b : Int}
    {sign : BitVec 8}
    (hCompared : compared i x r = some (a, b))
    (hSign : sign = if a < b then 4#8
      else if b < a then 2#8 else 1#8) :
    RecordExact i x r (r.setCRFSign (bf x) sign) ↔
      RecordCondition i x r := by
  unfold RecordExact RecordCondition
  rw [hCompared]
  simp only [Option.isSome_some, if_true]
  have hOnly :
      OnlyField (bf x)
        (orderField a b (r.summary (bf x))) r
        (r.setCRFSign (bf x) sign) := by
    intro m
    rw [hSign, sign_eq, crField_setCRFSign]
    rfl
  rw [onlyField_iff hOnly, orderField_inj]

theorem toInt_getCmpAb
    (l : Bool)
    (value : BitVec 64) :
    (getCmpAb l value).toInt = signedValue l value := by
  unfold getCmpAb signedValue
  cases l with
  | false => exact BitVec.toInt_signExtend_of_le (by decide)
  | true => rfl

theorem toNat_getCmplAb
    (l : Bool)
    (value : BitVec 64) :
    ((getCmplAb l value).toNat : Int) =
      unsignedValue l value := by
  unfold getCmplAb unsignedValue
  cases l with
  | false =>
      simp only [Bool.false_eq_true, if_false]
      rw [BitVec.toNat_setWidth_of_le (by decide)]
  | true => rfl

/- An addition of the carry runs over from all ones only. -/
theorem maxWord_lt_iff
    (a : BitVec 64)
    (c : Bool) :
    decide (maxWord <
        a.setWidth 128 + (BitVec.ofBool c).setWidth 128) =
      (c && a == BitVec.allOnes 64) := by
  have hLt := a.isLt
  have hWide := toNat_wide_add a 0#64 c
  rw [BitVec.setWidth_zero, BitVec.add_zero] at hWide
  rw [Bool.eq_iff_iff, Bool.and_eq_true, beq_iff_eq,
    decide_eq_true_eq, BitVec.lt_def, hWide,
    ← BitVec.toNat_inj, BitVec.toNat_allOnes]
  cases c with
  | false => simp [maxWord]; omega
  | true => simp [maxWord]; omega

theorem emulateInteger_record_iff
    (hOE : ClearsOE i = true → oe x = false)
    (r : Registers R) :
    ∃ r', emulateInteger i x r = .ok r' ∧
      (RecordExact i x r r' ↔ RecordCondition i x r) := by
  cases i with
  | and | or | xor | nand | nor | eqv | andc | orc | cntlzd
  | cntlzw | rldicl | rldicr | rldimi | rldic | rldcl | rldcr
  | rlwinm | rlwnm | rlwimi | sld | slw | srd | srw | mulhd
  | mulhw | mulhwu | mulhdu =>
      exact
        ⟨_, rfl, exact_iff_of_setRecorded _ rfl rfl rfl⟩
  | sradi | srawi | srad | sraw =>
      exact
        ⟨_, rfl, exact_iff_of_setShifted _ _ rfl rfl rfl⟩
  | addi | addis | ori | oris | xori | xoris | mulli =>
      exact
        ⟨_, rfl,
          exact_iff_of_record rfl rfl rfl rfl
            (Registers.setGPR_gpr_self _ _ _) rfl⟩
  | addic | subfic =>
      exact
        ⟨_, rfl,
          exact_iff_of_record rfl rfl rfl
            (Registers.getSO_setCA _ _)
            (Registers.setGPR_gpr_self _ _ _) rfl⟩
  | addicd =>
      exact
        ⟨_, rfl,
          exact_iff_of_record rfl rfl rfl
            (Registers.getSO_setCA _ _)
            (Registers.setGPR_gpr_self _ _ _) rfl⟩
  | andid | andisd =>
      exact
        ⟨_, rfl, exact_iff_of_setRecorded _ rfl rfl rfl⟩
  | extsb | extsh | extsw =>
      exact
        ⟨_, rfl,
          exact_iff_of_extended r rfl rfl (by decide) rfl
            rfl⟩
  | add | neg | mulld | mullw =>
      refine
        ⟨_, rfl,
          exact_iff_of_update rfl rfl rfl rfl
            (Registers.setGPR_gpr_self _ _ _) ?_⟩
      rw [hOE rfl]
      rfl
  | addc | subfc | subfe =>
      refine
        ⟨_, rfl,
          exact_iff_of_update rfl rfl rfl
            (Registers.getSO_setCA _ _)
            (Registers.setGPR_gpr_self _ _ _) ?_⟩
      rw [hOE rfl]
      rfl
  | subf =>
      refine
        ⟨_, rfl,
          exact_iff_of_update rfl rfl rfl rfl
            (Registers.setGPR_gpr_self _ _ _) ?_⟩
      unfold raises BitVec.usubOverflow
      cases oe x <;> rfl
  | addze =>
      refine
        ⟨_, rfl,
          exact_iff_of_update rfl rfl rfl rfl
            (Registers.setGPR_gpr_self _ _ _) ?_⟩
      rw [maxWord_lt_iff]
      rfl
  | divd | divdu | divw | divwu =>
      refine
        division_rule trivial (fun ov q _ =>
          exact_iff_of_update rfl rfl rfl rfl
            (Registers.setGPR_gpr_self _ _ _) ?_)
      rw [hOE rfl]
      rfl
  | cmpi =>
      refine ⟨_, rfl, exact_iff_of_compared rfl ?_⟩
      simp only [BitVec.slt, toInt_getCmpAb,
        BitVec.toInt_signExtend_of_le (show 16 ≤ 64 by decide),
        decide_eq_true_eq]
  | cmp =>
      refine ⟨_, rfl, exact_iff_of_compared rfl ?_⟩
      simp only [BitVec.slt, toInt_getCmpAb,
        decide_eq_true_eq]
  | cmpli =>
      refine ⟨_, rfl, exact_iff_of_compared rfl ?_⟩
      simp only [BitVec.lt_def, ← toNat_getCmplAb,
        BitVec.toNat_setWidth_of_le (show 16 ≤ 64 by decide),
        Int.ofNat_lt]
  | cmpl =>
      refine ⟨_, rfl, exact_iff_of_compared rfl ?_⟩
      simp only [BitVec.lt_def, ← toNat_getCmplAb,
        Int.ofNat_lt]

/- The same of a word that decodes to the instruction. -/
theorem emulate_record_iff
    (env : Env R)
    (x : BitVec 32)
    (cia : BitVec 64)
    (t : PPUThread R)
    (i : IntegerInstr)
    (hDecode : decode x = some (.integer i)) :
    ∃ t', emulate env x cia t = .ok t' ∧
      (RecordExact i x t.regs t'.regs ↔
        RecordCondition i x t.regs) := by
  rcases emulateInteger_record_iff
      (oe_of_decode hDecode) t.regs with
    ⟨r, hRun, hIff⟩
  exact ⟨_, emulate_integer env hDecode cia hRun, hIff⟩

/- and. r4,r3,r5. -/
theorem emulate_record_iff_and :
    ∃ t', emulate (idle Unit) 0x7c642839#32 0#64 cleared =
        .ok t' ∧
      (RecordExact .and 0x7c642839#32 cleared.regs t'.regs ↔
        RecordCondition .and 0x7c642839#32 cleared.regs) :=
  emulate_record_iff (idle Unit) 0x7c642839#32 0#64 cleared
    .and (by decide)

/-
  cmpwi r3,0 with the summary overflow set in one register
  and not in the other: it does not reach the field.
-/
theorem cmpi_not_exact :
    ¬ ∀ (env : Env Unit)
        (x : BitVec 32)
        (cia : BitVec 64)
        (t : PPUThread Unit)
        (i : IntegerInstr),
        decode x = some (.integer i) →
          ∃ t', emulate env x cia t = .ok t' ∧
            RecordExact i x t.regs t'.regs := by
  intro hAll
  rcases hAll (idle Unit) 0x2c030000#32 0#64
      { cleared with
        regs := { cleared.regs with xer := 0x80000000#64 } }
      .cmpi (by decide) with
    ⟨t', hRun, hExact⟩
  cases hRun
  have hField := hExact 0#3
  revert hField
  decide

end Ppu

end Ps3emu
