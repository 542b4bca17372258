import Ps3emu.Library.Limbs
import Ps3emu.Ppu.Rotate

/-
  The carrying instructions, against the sums of the
  instruction set, and the chains that compute numbers of
  several limbs.

  Key definitions include:
    * `carrySum`
    * `CarryExact`, `CarryCondition`
    * `CarryStep`

  Key theorems include:
    * `emulateInteger_carry_iff`
    * `carry_iff`
-/

------------------------------------------------------------
-- Results and Instructions
------------------------------------------------------------

namespace Ps3emu

namespace Ppu

open Limbs

variable {R : Type}

@[simp] theorem updateCR0_xer
    (result : BitVec 64)
    (r : Registers R) :
    (updateCR0 result r).xer = r.xer :=
  rfl

@[simp] theorem updateCR0_getCA
    (result : BitVec 64)
    (r : Registers R) :
    (updateCR0 result r).getCA = r.getCA :=
  rfl

@[simp] theorem updateCR0OV_gpr
    (oe rc ov : Bool)
    (result : BitVec 64)
    (r : Registers R) :
    (updateCR0OV oe rc ov result r).gpr = r.gpr := by
  unfold updateCR0OV
  cases oe && ov <;> cases rc <;> rfl

@[simp] theorem updateCR0OV_getCA
    (oe rc ov : Bool)
    (result : BitVec 64)
    (r : Registers R) :
    (updateCR0OV oe rc ov result r).getCA = r.getCA := by
  unfold updateCR0OV
  cases oe && ov <;> cases rc <;> simp

theorem toNat_wide_add
    (a b : BitVec 64)
    (c : Bool) :
    (a.setWidth 128 + b.setWidth 128 +
        (BitVec.ofBool c).setWidth 128).toNat =
      a.toNat + b.toNat + c.toNat := by
  have hA := a.isLt
  have hB := b.isLt
  have hC := Bool.toNat_lt c
  simp only [BitVec.toNat_add, BitVec.toNat_setWidth,
    BitVec.toNat_ofBool]
  omega

/- The low half of a sum. -/
theorem setWidth_of_toNat
    {res : BitVec 128}
    {s : Nat}
    (hSum : res.toNat = s) :
    res.setWidth 64 = BitVec.ofNat 64 s := by
  apply BitVec.eq_of_toNat_eq
  rw [BitVec.toNat_setWidth, BitVec.toNat_ofNat, hSum]

/- What is left of a sum above its low half. -/
theorem carry_of_toNat
    {res : BitVec 128}
    {s : Nat}
    (hSum : res.toNat = s)
    (hLt : s < 2 ^ 65) :
    (res >>> 64).getLsbD 0 = true ↔ 2 ^ 64 ≤ s := by
  rw [BitVec.getLsbD_ushiftRight, BitVec.getLsbD, hSum,
    Nat.testBit_eq_decide_div_mod_eq, decide_eq_true_eq]
  omega

def IsCarry : IntegerInstr → Prop
  | .addic | .addicd | .subfic | .addc | .subfc | .subfe
  | .addze => True
  | _ => False

/- The two numbers that an instruction adds. -/
def leftOperand
    (i : IntegerInstr)
    (x : BitVec 32)
    (r : Registers R) : BitVec 64 :=
  match i with
  | .subfic | .subfc | .subfe => ~~~(r.gpr (ra x))
  | _ => r.gpr (ra x)

def rightOperand
    (i : IntegerInstr)
    (x : BitVec 32)
    (r : Registers R) : BitVec 64 :=
  match i with
  | .addic | .addicd | .subfic => (si x).signExtend 64
  | .addze => 0#64
  | _ => r.gpr (rb x)

/- The carry that is added to them. -/
def carryIn
    (i : IntegerInstr)
    (r : Registers R) : Bool :=
  match i with
  | .subfic | .subfc => true
  | .subfe | .addze => r.getCA
  | _ => false

def carrySum
    (i : IntegerInstr)
    (x : BitVec 32)
    (r : Registers R) : Nat :=
  (leftOperand i x r).toNat + (rightOperand i x r).toNat +
    (carryIn i r).toNat

/- The result and the carry that the instruction set has. -/
def CarryExact
    (i : IntegerInstr)
    (x : BitVec 32)
    (r r' : Registers R) : Prop :=
  r'.gpr (rt x) = BitVec.ofNat 64 (carrySum i x r) ∧
    (r'.getCA = true ↔ 2 ^ 64 ≤ carrySum i x r)

/-
  `subfic` takes a signed overflow for the carry, and
  `addze` leaves the carry as it was.
-/
def CarryCondition
    (i : IntegerInstr)
    (x : BitVec 32)
    (r : Registers R) : Prop :=
  match i with
  | .subfic =>
      ((si x).signExtend 64).toNat % 2 ^ 63 <
        (r.gpr (ra x)).toNat % 2 ^ 63
  | .addze =>
      r.getCA = true → r.gpr (ra x) = BitVec.allOnes 64
  | _ => True

theorem carrySum_lt
    (i : IntegerInstr)
    (x : BitVec 32)
    (r : Registers R) :
    carrySum i x r < 2 ^ 65 := by
  have hLeft := (leftOperand i x r).isLt
  have hRight := (rightOperand i x r).isLt
  have hCarry := Bool.toNat_lt (carryIn i r)
  unfold carrySum
  omega

------------------------------------------------------------
-- Single Instructions
------------------------------------------------------------

variable {i : IntegerInstr}

/- A sum of 128 bits gives the result and its carry. -/
private theorem exact_of_wide
    {x : BitVec 32}
    {r r' : Registers R}
    {res : BitVec 128}
    (hSum : res.toNat = carrySum i x r)
    (hResult : r'.gpr (rt x) = res.setWidth 64)
    (hCarry : r'.getCA = (res >>> 64).getLsbD 0) :
    CarryExact i x r r' := by
  constructor
  · rw [hResult, setWidth_of_toNat hSum]
  · rw [hCarry,
      carry_of_toNat hSum (carrySum_lt i x r)]

/- So does a sum of 64 bits with its unsigned overflow. -/
private theorem exact_of_overflow
    {x : BitVec 32}
    {r r' : Registers R}
    {a b : BitVec 64}
    (hSum : carrySum i x r = a.toNat + b.toNat)
    (hResult : r'.gpr (rt x) = a + b)
    (hCarry : r'.getCA = BitVec.uaddOverflow a b) :
    CarryExact i x r r' := by
  constructor
  · rw [hResult, hSum]
    apply BitVec.eq_of_toNat_eq
    rw [BitVec.toNat_add, BitVec.toNat_ofNat]
  · rw [hCarry, hSum]
    unfold BitVec.uaddOverflow
    rw [decide_eq_true_eq]

/- The signed overflow of a difference, as a carry. -/
private theorem ssubOverflow_iff
    (a b : BitVec 64) :
    (BitVec.ssubOverflow b a = true ↔
        2 ^ 64 ≤ (~~~a).toNat + b.toNat + 1) ↔
      b.toNat % 2 ^ 63 < a.toNat % 2 ^ 63 := by
  have hA := a.isLt
  have hB := b.isLt
  unfold BitVec.ssubOverflow
  rw [Bool.or_eq_true, decide_eq_true_eq, decide_eq_true_eq,
    BitVec.toInt_eq_toNat_cond, BitVec.toInt_eq_toNat_cond,
    BitVec.toNat_not]
  split <;> split <;> omega

/- A carry that stays, after adding it to a register. -/
private theorem carry_kept_iff
    (a : BitVec 64)
    (c : Bool) :
    (c = true ↔ 2 ^ 64 ≤ a.toNat + c.toNat) ↔
      (c = true → a = BitVec.allOnes 64) := by
  have hLt := a.isLt
  have hOnes :
      a = BitVec.allOnes 64 ↔ a.toNat = 2 ^ 64 - 1 := by
    rw [← BitVec.toNat_inj, BitVec.toNat_allOnes]
  rw [hOnes]
  cases c with
  | false => simpa using hLt
  | true =>
      simp only [Bool.toNat_true, true_iff, forall_const]
      omega

theorem emulateInteger_carry_iff
    (hCarry : IsCarry i)
    (x : BitVec 32)
    (r : Registers R) :
    ∃ r', emulateInteger i x r = .ok r' ∧
      (CarryExact i x r r' ↔ CarryCondition i x r) := by
  cases i with
  | addic =>
      refine ⟨_, rfl, iff_of_true ?_ trivial⟩
      apply exact_of_overflow rfl
      · simp only [emulateAddic, Registers.setCA_gpr,
          Registers.setGPR_gpr_self]
        rfl
      · simp only [emulateAddic, Registers.getCA_setCA]
        rfl
  | addicd =>
      refine ⟨_, rfl, iff_of_true ?_ trivial⟩
      apply exact_of_overflow rfl
      · simp only [emulateAddicd, updateCR0_gpr,
          Registers.setCA_gpr, Registers.setGPR_gpr_self]
        rfl
      · simp only [emulateAddicd, updateCR0_getCA,
          Registers.getCA_setCA]
        rfl
  | subfic =>
      refine ⟨_, rfl, ?_⟩
      have hSum :
          carrySum .subfic x r =
            (~~~(r.gpr (ra x))).toNat +
              ((si x).signExtend 64).toNat + 1 :=
        rfl
      unfold CarryExact
      rw [hSum]
      simp only [emulateSubfic, Registers.setCA_gpr,
        Registers.setGPR_gpr_self, Registers.getCA_setCA,
        CarryCondition]
      rw [ssubOverflow_iff]
      refine and_iff_right ?_
      apply BitVec.eq_of_toNat_eq
      have hA := (r.gpr (ra x)).isLt
      rw [BitVec.toNat_sub, BitVec.toNat_not,
        BitVec.toNat_ofNat]
      congr 1
      omega
  | addc =>
      refine ⟨_, rfl, iff_of_true ?_ trivial⟩
      refine @exact_of_wide _ _ _ _ _
        ((r.gpr (ra x)).setWidth 128 +
          (r.gpr (rb x)).setWidth 128) ?_ ?_ ?_
      · have hWide :=
          toNat_wide_add (r.gpr (ra x)) (r.gpr (rb x)) false
        have hZero :
            (BitVec.ofBool false).setWidth 128 = 0#128 :=
          rfl
        rw [hZero, BitVec.add_zero] at hWide
        exact hWide
      · simp only [emulateAddc, updateCR0OV_gpr,
          Registers.setGPR_gpr_self]
      · simp only [emulateAddc, updateCR0OV_getCA,
          Registers.getCA_setGPR, Registers.getCA_setCA]
  | subfc =>
      refine ⟨_, rfl, iff_of_true ?_ trivial⟩
      refine @exact_of_wide _ _ _ _ _
        ((~~~(r.gpr (ra x))).setWidth 128 +
          (r.gpr (rb x)).setWidth 128 + 1#128) ?_ ?_ ?_
      · exact
          toNat_wide_add (~~~(r.gpr (ra x))) (r.gpr (rb x))
            true
      · simp only [emulateSubfc, updateCR0OV_gpr,
          Registers.setGPR_gpr_self]
      · simp only [emulateSubfc, updateCR0OV_getCA,
          Registers.getCA_setGPR, Registers.getCA_setCA]
  | subfe =>
      refine ⟨_, rfl, iff_of_true ?_ trivial⟩
      refine @exact_of_wide _ _ _ _ _
        ((~~~(r.gpr (ra x))).setWidth 128 +
          (r.gpr (rb x)).setWidth 128 +
            (BitVec.ofBool r.getCA).setWidth 128) ?_ ?_ ?_
      · exact
          toNat_wide_add (~~~(r.gpr (ra x))) (r.gpr (rb x))
            r.getCA
      · simp only [emulateSubfe, updateCR0OV_gpr,
          Registers.setGPR_gpr_self]
      · simp only [emulateSubfe, updateCR0OV_getCA,
          Registers.getCA_setGPR, Registers.getCA_setCA]
  | addze =>
      refine ⟨_, rfl, ?_⟩
      have hSum :
          carrySum .addze x r =
            (r.gpr (ra x)).toNat + r.getCA.toNat :=
        rfl
      have hWide :=
        toNat_wide_add (r.gpr (ra x)) 0#64 r.getCA
      rw [BitVec.setWidth_zero, BitVec.add_zero] at hWide
      have hResult := setWidth_of_toNat hWide
      unfold CarryExact
      rw [hSum]
      simp only [emulateAddze, updateCR0OV_gpr,
        Registers.setGPR_gpr_self, updateCR0OV_getCA,
        Registers.getCA_setGPR, CarryCondition]
      rw [hResult]
      refine (and_iff_right rfl).trans ?_
      exact carry_kept_iff (r.gpr (ra x)) r.getCA
  | _ => cases hCarry

------------------------------------------------------------
-- Chains of Instructions
------------------------------------------------------------

/- A carrying instruction that a thread has executed. -/
structure CarryStep (env : Env R) where
  word : BitVec 32
  instr : IntegerInstr
  cia : BitVec 64
  before : PPUThread R
  after : PPUThread R
  hDecode : decode word = some (.integer instr)
  hCarry : IsCarry instr
  hRun : emulate env word cia before = .ok after

namespace CarryStep

variable {env : Env R}

/- The registers that it reads and writes. -/
def valueA (s : CarryStep env) : BitVec 64 :=
  s.before.regs.gpr (ra s.word)

def valueB (s : CarryStep env) : BitVec 64 :=
  s.before.regs.gpr (rb s.word)

def result (s : CarryStep env) : BitVec 64 :=
  s.after.regs.gpr (rt s.word)

def left (s : CarryStep env) : BitVec 64 :=
  leftOperand s.instr s.word s.before.regs

def right (s : CarryStep env) : BitVec 64 :=
  rightOperand s.instr s.word s.before.regs

def carryIn (s : CarryStep env) : Bool :=
  Ppu.carryIn s.instr s.before.regs

def carryOut (s : CarryStep env) : Bool :=
  s.after.regs.getCA

/- What is known of the state after a step. -/
theorem exact_iff (s : CarryStep env) :
    CarryExact s.instr s.word s.before.regs s.after.regs ↔
      CarryCondition s.instr s.word s.before.regs := by
  rcases emulateInteger_carry_iff s.hCarry s.word
      s.before.regs with
    ⟨r, hInteger, hIff⟩
  have hAfter :=
    emulate_integer env s.hDecode s.cia hInteger
  rw [s.hRun] at hAfter
  rw [Except.ok.inj hAfter]
  exact hIff

/- An exact step adds its operands and its carry. -/
theorem sum_of_exact
    {s : CarryStep env}
    (hExact : CarryExact s.instr s.word s.before.regs
      s.after.regs) :
    s.left.toNat + s.right.toNat + s.carryIn.toNat =
      s.result.toNat + 2 ^ 64 * s.carryOut.toNat := by
  have hLt := carrySum_lt s.instr s.word s.before.regs
  have hResult := congrArg BitVec.toNat hExact.1
  rw [BitVec.toNat_ofNat] at hResult
  refine (eq_add_carry_iff s.carryOut s.result.isLt ?_).mpr
    ⟨hResult, hExact.2⟩
  exact hLt

end CarryStep

variable {env : Env R}

/-
  Steps that follow each other, with no change to the carry
  between them; the first one takes the carry `c`.
-/
abbrev Chained
    (c : Bool)
    (steps : List (CarryStep env)) : Prop :=
  Linked CarryStep.carryIn CarryStep.carryOut c steps

abbrev lastCarry
    (c : Bool)
    (steps : List (CarryStep env)) : Bool :=
  finalCarry CarryStep.carryOut c steps

/-
  The difference of the numbers in two lists of registers;
  its carry says that there is no borrow.
-/
def DifferenceExact (steps : List (CarryStep env)) : Prop :=
  let a := value (steps.map CarryStep.valueA)
  let b := value (steps.map CarryStep.valueB)
  let base := (2 ^ 64) ^ steps.length
  value (steps.map CarryStep.result) =
      (b + base - a) % base ∧
    (lastCarry true steps = true ↔ a ≤ b)

/- The sum of a number and the second operand of a step. -/
def SumExact
    (s : CarryStep env)
    (rest : List (CarryStep env)) : Prop :=
  let a := value ((s :: rest).map CarryStep.valueA)
  let base := (2 ^ 64) ^ (rest.length + 1)
  value ((s :: rest).map CarryStep.result) =
      (a + s.right.toNat) % base ∧
    (lastCarry false (s :: rest) = true ↔
      base ≤ a + s.right.toNat)

/- No carry, or one that passes through all other limbs. -/
def SumCondition
    (s : CarryStep env)
    (rest : List (CarryStep env)) : Prop :=
  s.valueA.toNat + s.right.toNat < 2 ^ 64 ∨
    ∀ t ∈ rest, t.valueA = BitVec.allOnes 64

/- A step of a difference adds a complement. -/
theorem difference_step
    {t : CarryStep env}
    (hKind : t.instr = .subfc ∨ t.instr = .subfe) :
    (~~~t.valueA).toNat + t.valueB.toNat +
        t.carryIn.toNat =
      t.result.toNat + 2 ^ 64 * t.carryOut.toNat := by
  have hOperands :
      t.left = ~~~t.valueA ∧ t.right = t.valueB ∧
        CarryCondition t.instr t.word t.before.regs := by
    unfold CarryStep.left CarryStep.right
    rcases hKind with hInstr | hInstr
    · rw [hInstr]
      exact ⟨rfl, rfl, trivial⟩
    · rw [hInstr]
      exact ⟨rfl, rfl, trivial⟩
  rcases hOperands with ⟨hLeft, hRight, hCondition⟩
  rw [← hLeft, ← hRight]
  exact CarryStep.sum_of_exact (t.exact_iff.mpr hCondition)

variable {rest : List (CarryStep env)} {s : CarryStep env}

theorem difference_exact
    (hFirst : s.instr = .subfc)
    (hRest : ∀ t ∈ rest, t.instr = .subfe)
    (hChained : Chained true (s :: rest)) :
    DifferenceExact (s :: rest) := by
  have hSteps :
      ∀ t ∈ s :: rest,
        (~~~t.valueA).toNat + t.valueB.toNat +
            t.carryIn.toNat =
          t.result.toNat + 2 ^ 64 * t.carryOut.toNat := by
    intro t hT
    rcases List.mem_cons.mp hT with rfl | hT
    · exact difference_step (.inl hFirst)
    · exact difference_step (.inr (hRest t hT))
  have hSum := linked_value _ _ hSteps hChained
  have hNot :=
    value_not ((s :: rest).map CarryStep.valueA)
  have hA := value_lt ((s :: rest).map CarryStep.valueA)
  have hB := value_lt ((s :: rest).map CarryStep.valueB)
  have hS := value_lt ((s :: rest).map CarryStep.result)
  rw [ofDigits_add, Bool.toNat_true] at hSum
  rw [List.map_map, List.length_map] at hNot
  rw [List.length_map] at hA hB hS
  unfold DifferenceExact
  have hTotal :
      value ((s :: rest).map CarryStep.valueB) +
            (2 ^ 64) ^ (s :: rest).length -
          value ((s :: rest).map CarryStep.valueA) =
        value ((s :: rest).map CarryStep.result) +
          (2 ^ 64) ^ (s :: rest).length *
            (lastCarry true (s :: rest)).toNat := by
    rw [← hSum, ← hNot]
    have hComp :
        ((fun a => ~~~a) ∘ CarryStep.valueA) =
          (fun t : CarryStep env => ~~~t.valueA) :=
      rfl
    rw [hComp]
    omega
  have hSplit :=
    (eq_add_carry_iff (lastCarry true (s :: rest)) hS
      (by omega)).mp hTotal
  refine ⟨hSplit.1, hSplit.2.trans ?_⟩
  omega

/- The carry of an `addze` stays as it is. -/
theorem addze_step
    {t : CarryStep env}
    (hInstr : t.instr = .addze) :
    t.carryOut = t.carryIn ∧
      t.result =
        t.valueA + (BitVec.ofBool t.carryIn).setWidth 64 := by
  have hDecode := t.hDecode
  rw [hInstr] at hDecode
  have hAfter :=
    @emulate_integer R env t.word .addze hDecode t.cia
      t.before _ rfl
  rw [t.hRun] at hAfter
  have hRegs :
      t.after.regs =
        emulateAddze (ra t.word) (rt t.word) (oe t.word)
          (rc t.word) t.before.regs :=
    congrArg PPUThread.regs (Except.ok.inj hAfter)
  have hIn : t.carryIn = t.before.regs.getCA := by
    unfold CarryStep.carryIn
    rw [hInstr]
    rfl
  unfold CarryStep.carryOut CarryStep.result CarryStep.valueA
  rw [hRegs, hIn]
  simp only [emulateAddze, updateCR0OV_getCA,
    updateCR0OV_gpr, Registers.getCA_setGPR,
    Registers.setGPR_gpr_self, true_and]
  rw [BitVec.setWidth_add _ _ (by decide),
    BitVec.setWidth_setWidth_of_le _ (by decide),
    BitVec.setWidth_setWidth_of_le _ (by decide),
    BitVec.setWidth_eq]

/- What a chain of them does to the limbs. -/
theorem addze_chain
    {c : Bool}
    (hRest : ∀ t ∈ rest, t.instr = .addze)
    (hChained : Chained c rest) :
    lastCarry c rest = c ∧
      rest.map CarryStep.result =
        (rest.map CarryStep.valueA).map (fun a =>
          a + (BitVec.ofBool c).setWidth 64) := by
  induction rest with
  | nil => exact ⟨rfl, rfl⟩
  | cons t rest hTail =>
      rcases hChained with ⟨hIn, hChained⟩
      have hStep := addze_step (hRest t List.mem_cons_self)
      rw [hIn] at hStep
      rw [hStep.1] at hChained
      have hMore :=
        hTail (fun u hU => hRest u (List.mem_cons_of_mem _ hU))
          hChained
      refine ⟨?_, ?_⟩
      · have hLast :
            lastCarry c (t :: rest) =
              lastCarry t.carryOut rest :=
          rfl
        rw [hLast, hStep.1]
        exact hMore.1
      · rw [List.map_cons, List.map_cons, List.map_cons,
          hStep.2, hMore.2]

/- The first step of a sum adds its operands. -/
theorem sum_step
    (hFirst : s.instr = .addc ∨ s.instr = .addic ∨
      s.instr = .addicd) :
    s.valueA.toNat + s.right.toNat + s.carryIn.toNat =
      s.result.toNat + 2 ^ 64 * s.carryOut.toNat := by
  have hOperands :
      s.left = s.valueA ∧
        CarryCondition s.instr s.word s.before.regs := by
    unfold CarryStep.left
    rcases hFirst with hInstr | hInstr | hInstr
    · rw [hInstr]
      exact ⟨rfl, trivial⟩
    · rw [hInstr]
      exact ⟨rfl, trivial⟩
    · rw [hInstr]
      exact ⟨rfl, trivial⟩
  rw [← hOperands.1]
  exact
    CarryStep.sum_of_exact (s.exact_iff.mpr hOperands.2)

theorem sum_exact_iff
    (hFirst : s.instr = .addc ∨ s.instr = .addic ∨
      s.instr = .addicd)
    (hRest : ∀ t ∈ rest, t.instr = .addze)
    (hChained : Chained false (s :: rest)) :
    SumExact s rest ↔ SumCondition s rest := by
  have hStep := sum_step hFirst
  rw [hChained.1, Bool.toNat_false, Nat.add_zero] at hStep
  rcases addze_chain hRest hChained.2 with ⟨hLast, hMap⟩
  have hResult := s.result.isLt
  have hA := value_lt ((s :: rest).map CarryStep.valueA)
  have hS := value_lt ((s :: rest).map CarryStep.result)
  rw [List.length_map, List.length_cons] at hA hS
  have hRight := s.right.isLt
  have hBase :
      (2 ^ 64) ^ (rest.length + 1) =
        2 ^ 64 * (2 ^ 64) ^ rest.length :=
    Nat.pow_succ'
  have hPos : 0 < (2 ^ 64) ^ rest.length :=
    Nat.pow_pos (by decide)
  have hCarry :
      s.carryOut = true ↔
        2 ^ 64 ≤ s.valueA.toNat + s.right.toNat := by
    rw [hStep]
    cases s.carryOut with
    | false => simpa using hResult
    | true => simp
  have hLastEq :
      lastCarry false (s :: rest) = s.carryOut :=
    hLast
  unfold SumExact
  dsimp only
  rw [← eq_add_carry_iff _ hS (by omega), hLastEq,
    List.map_cons, List.map_cons, value_cons, value_cons,
    hMap]
  unfold SumCondition
  cases hOut : s.carryOut with
  | false =>
      rw [hOut] at hStep hCarry
      have hKept :
          (fun a : BitVec 64 =>
              a + (BitVec.ofBool false).setWidth 64) = id :=
        funext (fun a => BitVec.add_zero a)
      rw [hKept, List.map_id]
      rw [Bool.toNat_false, Nat.mul_zero,
        Nat.add_zero] at hStep ⊢
      refine iff_of_true ?_ (.inl ?_)
      · omega
      · omega
  | true =>
      rw [hOut] at hStep hCarry
      have hOne :
          (fun a : BitVec 64 =>
              a + (BitVec.ofBool true).setWidth 64) =
            (fun a => a + 1#64) :=
        rfl
      have hOnes :=
        value_increment_iff (rest.map CarryStep.valueA)
      rw [List.length_map, List.forall_mem_map] at hOnes
      rw [hOne, ← hOnes, hBase]
      rw [Bool.toNat_true, Nat.mul_one] at hStep ⊢
      have hOver := hCarry.mp rfl
      rw [or_iff_right (by omega)]
      omega

------------------------------------------------------------
-- All Carrying Instructions
------------------------------------------------------------

/- Single instructions, differences, and sums. -/
theorem carry_iff (env : Env R) :
    (∀ (x : BitVec 32)
        (cia : BitVec 64)
        (t : PPUThread R)
        (i : IntegerInstr),
        decode x = some (.integer i) → IsCarry i →
          ∃ t', emulate env x cia t = .ok t' ∧
            (CarryExact i x t.regs t'.regs ↔
              CarryCondition i x t.regs)) ∧
      (∀ (s : CarryStep env)
          (rest : List (CarryStep env)),
          s.instr = .subfc →
            (∀ t ∈ rest, t.instr = .subfe) →
              Chained true (s :: rest) →
                DifferenceExact (s :: rest)) ∧
        (∀ (s : CarryStep env)
            (rest : List (CarryStep env)),
            s.instr = .addc ∨ s.instr = .addic ∨
                s.instr = .addicd →
              (∀ t ∈ rest, t.instr = .addze) →
                Chained false (s :: rest) →
                  (SumExact s rest ↔
                    SumCondition s rest)) := by
  refine ⟨?_, ?_, ?_⟩
  · intro x cia t i hDecode hCarry
    rcases emulateInteger_carry_iff hCarry x t.regs with
      ⟨r, hRun, hIff⟩
    exact ⟨_, emulate_integer env hDecode cia hRun, hIff⟩
  · intro s rest hFirst hRest hChained
    exact difference_exact hFirst hRest hChained
  · intro s rest hFirst hRest hChained
    exact sum_exact_iff hFirst hRest hChained

/- subfc r4,r3,r5 and addc r4,r3,r5, from cleared registers. -/
def subfcStep : CarryStep (idle Unit) where
  word := 0x7c832810#32
  instr := .subfc
  cia := 0#64
  before := cleared
  after :=
    { cleared with
      regs := emulateSubfc 3 5 4 false false cleared.regs }
  hDecode := by decide
  hCarry := trivial
  hRun := rfl

def addcStep : CarryStep (idle Unit) where
  word := 0x7c832814#32
  instr := .addc
  cia := 0#64
  before := cleared
  after :=
    { cleared with
      regs := emulateAddc 3 5 4 false false cleared.regs }
  hDecode := by decide
  hCarry := trivial
  hRun := rfl

/- subfe r4,r3,r5 and addze r4,r3, after them. -/
def subfeStep : CarryStep (idle Unit) where
  word := 0x7c832910#32
  instr := .subfe
  cia := 4#64
  before := subfcStep.after
  after :=
    { cleared with
      regs := emulateSubfe 3 5 4 false false
        subfcStep.after.regs }
  hDecode := by decide
  hCarry := trivial
  hRun := rfl

def addzeStep : CarryStep (idle Unit) where
  word := 0x7c830194#32
  instr := .addze
  cia := 4#64
  before := addcStep.after
  after :=
    { cleared with
      regs := emulateAddze 3 4 false false
        addcStep.after.regs }
  hDecode := by decide
  hCarry := trivial
  hRun := rfl

theorem carry_iff_two_limbs :
    (∃ t', emulate (idle Unit) 0x7c830194#32 0#64 cleared =
        .ok t' ∧
      (CarryExact .addze 0x7c830194#32 cleared.regs t'.regs ↔
        CarryCondition .addze 0x7c830194#32
          cleared.regs)) ∧
      DifferenceExact [subfcStep, subfeStep] ∧
        (SumExact addcStep [addzeStep] ↔
          SumCondition addcStep [addzeStep]) := by
  refine ⟨?_, ?_, ?_⟩
  · exact (carry_iff (idle Unit)).1 0x7c830194#32 0#64
      cleared .addze (by decide) trivial
  · refine (carry_iff (idle Unit)).2.1 subfcStep [subfeStep]
      rfl ?_ ⟨rfl, rfl, trivial⟩
    intro t hT
    rw [List.mem_singleton.mp hT]
    rfl
  · refine (carry_iff (idle Unit)).2.2 addcStep [addzeStep]
      (.inl rfl) ?_ ⟨rfl, rfl, trivial⟩
    intro t hT
    rw [List.mem_singleton.mp hT]
    rfl

/-
  subfic r4,r3,0 with a zero in r3: nothing is borrowed, and
  the carry is lost.
-/
theorem subfic_not_exact :
    ¬ ∀ (env : Env Unit)
        (x : BitVec 32)
        (cia : BitVec 64)
        (t : PPUThread Unit)
        (i : IntegerInstr),
        decode x = some (.integer i) → IsCarry i →
          ∃ t', emulate env x cia t = .ok t' ∧
            CarryExact i x t.regs t'.regs := by
  intro hAll
  rcases hAll (idle Unit) 0x20830000#32 0#64 cleared
      .subfic (by decide) trivial with
    ⟨t', hRun, -, hCarry⟩
  cases hRun
  revert hCarry
  decide

end Ppu

end Ps3emu
