import Mathlib.Data.Finset.Insert
import Ps3emu.Rewriter.BasicBlocks
import Ps3emu.Spu.Branch

/-
  The addresses an indirect branch at the end of a block may
  go to: a scan of the block from its end, with the set of
  the registers the branch depends on.

  Key definitions include:
    * `discoverIndirectLocations`
    * `Instr.target`
    * `Flows`, `Reaches`, `LinkedTo`
    * `Discovers`

  Key theorems include:
    * `discoverIndirectLocations_spec`
    * `discovers_iff`
-/

------------------------------------------------------------
-- Scan
------------------------------------------------------------

namespace Ps3emu

namespace Rewriter

/-
  A loop that has not ended, an access outside the map of a
  segment, or an exception with its text.
-/
inductive Halt where
  | unfinished
  | outside (va : Ps3Uintptr)
  | threw (text : String)
deriving DecidableEq

abbrev AnalyzeSpu := Ps3Uintptr → Spu.InstructionInfo

/- The instruction of a name, if it is one of the SPU. -/
abbrev Name := Ps3Uintptr → Except String (Option Spu.Instr)

/- Call a function that may throw. -/
def call {α : Type} (result : Except String α) : Except Halt α :=
  result.mapError Halt.threw

/- The last operands of a loop that ends at `start`. -/
def descend (start : Ps3Uintptr) : Nat → List Ps3Uintptr
  | 0 => []
  | n + 1 =>
      (start + BitVec.ofNat 32 (4 * (n + 1))) ::
        descend start n

/-
  `for (; ip > start; ip -= 4)`.  The distance is a multiple
  of four.
-/
def whileGt (ip start : Ps3Uintptr) : List Ps3Uintptr :=
  if start.toNat < ip.toNat then
    descend start ((ip - start).toNat / 4)
  else []

def operand
    (operands : List Spu.OperandInfo)
    (i : Nat) : Spu.OperandInfo :=
  operands.getD i ⟨.none, 0, 0⟩

/- The sets of the scan. -/
structure Marks where
  marked : Finset Spu.OperandInfo
  labels : Finset (BitVec 32)

/- The inputs of an instruction with a marked output. -/
def markInputs
    (info : Spu.InstructionInfo)
    (s : Marks) : Option Spu.Instr → Marks
  | some (.compute .selb) =>
      if operand info.outputs 0 ∈ s.marked then
        { s with
          marked :=
            insert (operand info.inputs 1)
              (insert (operand info.inputs 0) s.marked) }
      else s
  | some (.compute .ila) =>
      let imm := (operand info.inputs 0).imm
      if operand info.outputs 0 ∈ s.marked ∧
          imm.toNat % 4 = 0 then
        { s with labels := insert imm s.labels }
      else s
  | _ => s

def discoverIndirectLocationsStep
    (analyze : AnalyzeSpu)
    (name : Name)
    (s : Marks)
    (ip : Ps3Uintptr) : Except Halt Marks := do
  let info := analyze ip
  if info.flow && info.target.isNone && info.extInfo then
    return { s with
      marked := insert (operand info.inputs 0) s.marked }
  else
    let n ← call (name ip)
    return markInputs info s n

def discoverIndirectLocations
    (start len : BitVec 32)
    (analyze : AnalyzeSpu)
    (name : Name) : Except Halt (Finset (BitVec 32)) := do
  let s ←
    (whileGt (start + len - 4#32) start).foldlM
      (discoverIndirectLocationsStep analyze name) ⟨∅, ∅⟩
  return s.labels

/- The analysis and the names of the words of a segment. -/
def analyzeWords (code : Ps3Uintptr → BitVec 32) : AnalyzeSpu :=
  fun cia => Spu.analyzeSpu (code cia) cia

def nameWords (code : Ps3Uintptr → BitVec 32) : Name :=
  fun cia =>
    match Spu.decode (code cia) with
    | some i => .ok (some i)
    | none => .error "IllegalInstructionException"

end Rewriter

------------------------------------------------------------
-- Targets
------------------------------------------------------------

namespace Spu

/- The register an instruction writes. -/
def ComputeInstr.target
    (x : BitVec 32) : ComputeInstr → Option (BitVec 7)
  | .fscrwr => none
  | .mpya => some (rtAbc x)
  | .selb => some (rtAbc x)
  | .shufb => some (rtAbc x)
  | .fma => some (rtAbc x)
  | .dfma => some (rtAbc x)
  | .fnms => some (rtAbc x)
  | .fms => some (rtAbc x)
  | _ => some (rt x)

def Instr.target
    (x : BitVec 32) : Instr → Option (BitVec 7)
  | .direct .brsl => some (rt x)
  | .direct .brasl => some (rt x)
  | .indirect .bisl => some (rt x)
  | .channel .rdch => some (rt x)
  | .channel .rchcnt => some (rt x)
  | .memory .lqd => some (rt x)
  | .memory .lqx => some (rt x)
  | .memory .lqa => some (rt x)
  | .memory .lqr => some (rt x)
  | .compute i => i.target x
  | _ => none

/- The register with the address of an indirect branch. -/
def IndirectBranch.register
    (x : BitVec 32) : IndirectBranch → Option (BitVec 7)
  | .iret => none
  | _ => some (ra x)

/- `ila` and `selb` are known by the fronts of their words. -/
def operandCase (width k : Nat) : Instr → Bool
  | .compute .ila => width == 7 && k == 0b0100001
  | .compute .selb => width == 4 && k == 0b1000
  | _ => true

set_option maxRecDepth 2000 in
theorem operandCase_switches :
    ∀ s ∈ switches, ∀ p ∈ s.2,
      operandCase s.1 p.1 p.2 = true := by decide

variable {x : BitVec 32}

theorem operandCase_of_decode
    {i : Instr}
    (hDecode : decode x = some i) :
    ∃ width, operandCase width (op x width) i = true := by
  rcases Switch.mem_of_decode hDecode with ⟨s, hMem, hCase⟩
  exact ⟨s.1, operandCase_switches s hMem _ hCase⟩

theorem analyzeSpu_selb
    (hDecode : decode x = some (.compute .selb))
    (cia : BitVec 32) :
    (analyzeSpu x cia).inputs =
        [spuR (ra x), spuR (rb x), spuR (rc x)] ∧
      (analyzeSpu x cia).outputs = [spuR (rtAbc x)] := by
  rcases operandCase_of_decode hDecode with ⟨width, hCase⟩
  simp only [operandCase, Bool.and_eq_true, beq_iff_eq]
    at hCase
  rw [hCase.1] at hCase
  unfold analyzeSpu analyze4
  rw [if_pos hCase.2]
  exact ⟨rfl, rfl⟩

theorem analyzeSpu_ila
    (hDecode : decode x = some (.compute .ila))
    (cia : BitVec 32) :
    (analyzeSpu x cia).inputs =
        [immediate ((i18 x).setWidth 32)] ∧
      (analyzeSpu x cia).outputs = [spuR (rt x)] := by
  rcases operandCase_of_decode hDecode with ⟨width, hCase⟩
  simp only [operandCase, Bool.and_eq_true, beq_iff_eq]
    at hCase
  rw [hCase.1] at hCase
  have hFront : op x 4 ≠ 0b1000 := by
    rw [@op_div x 4 7 (by decide) (by decide), hCase.2]
    decide
  unfold analyzeSpu analyze4 analyze7
  rw [if_neg hFront, if_pos hCase.2]
  exact ⟨rfl, rfl⟩

/- Of the indirect branches only `bi` has its operand. -/
theorem analyzeSpu_indirect
    {j : IndirectBranch}
    (hDecode : decode x = some (.indirect j))
    (cia : BitVec 32) :
    (analyzeSpu x cia).flow = true ∧
      (analyzeSpu x cia).target = none ∧
      (analyzeSpu x cia).extInfo = (j == .bi) ∧
      (j = .bi →
        (analyzeSpu x cia).inputs = [spuR (ra x)]) := by
  have hOp := (decode_eq_indirect j).mp hDecode
  have hFlow := analyze_indirect hOp cia
  have hOp9 : op9 x = (j.opcode >>> 2).setWidth 9 := by
    rw [op9_eq_shift, hOp]
  have hKey : op x 11 = j.opcode.toNat :=
    congrArg BitVec.toNat hOp
  have hOp7 : op x 7 = j.opcode.toNat / 2 ^ (11 - 7) := by
    rw [@op_div x 7 11 (by decide) (by decide), hKey]
  have hOp4 : op x 4 = j.opcode.toNat / 2 ^ (11 - 4) := by
    rw [@op_div x 4 11 (by decide) (by decide), hKey]
  refine
    ⟨congrArg Rewriter.InstructionInfo.flow hFlow,
      congrArg Rewriter.InstructionInfo.target hFlow, ?_, ?_⟩
  · cases j <;>
      simp [analyzeSpu, analyze4, analyze7, analyze9,
        analyze11, hOp, hOp9, hOp7, hOp4, noInfo,
        IndirectBranch.opcode]
  · rintro rfl
    simp [analyzeSpu, analyze4, analyze7, analyze9,
      analyze11, hOp, hOp9, hOp7, hOp4, noInfo,
      IndirectBranch.opcode]

end Spu

------------------------------------------------------------
-- Values That Reach the Branch
------------------------------------------------------------

namespace Rewriter

section Block

variable (code : Ps3Uintptr → BitVec 32) (start len : BitVec 32)

/- The words of the block, and how many there are. -/
def wordAt (i : Nat) : BitVec 32 :=
  code (start + BitVec.ofNat 32 (4 * i))

def instrAt (i : Nat) : Option Spu.Instr :=
  Spu.decode (wordAt code start i)

def wordCount : Nat := len.toNat / 4

/- A block of instructions of which only the last is flow. -/
structure IndirectBlock : Prop where
  aligned : 4 ∣ len.toNat
  nonempty : 4 ≤ len.toNat
  fits : start.toNat + len.toNat ≤ 2 ^ 32
  decodes : ∀ i < wordCount len, (instrAt code start i).isSome
  body :
    ∀ i < wordCount len - 1,
      (analyzeWords code
        (start + BitVec.ofNat 32 (4 * i))).flow = false
  last :
    ∃ j, instrAt code start (wordCount len - 1) =
      some (.indirect j)

/-
  What register `r` has before instruction `i` gets to the
  register of the branch, through the instructions that keep
  it and through selections.
-/
inductive Flows
    (kept : Nat → BitVec 7 → Prop) :
    Nat → BitVec 7 → Prop where
  | branch {i : Nat} {j : Spu.IndirectBranch} {r : BitVec 7} :
      i + 1 = wordCount len →
      instrAt code start i = some (.indirect j) →
      j.register (wordAt code start i) = some r →
      Flows kept i r
  | keep {i : Nat} {r : BitVec 7} :
      kept i r →
      Flows kept (i + 1) r →
      Flows kept i r
  | first {i : Nat} :
      instrAt code start i = some (.compute .selb) →
      Flows kept (i + 1)
        (Spu.rtAbc (wordAt code start i)) →
      Flows kept i (Spu.ra (wordAt code start i))
  | second {i : Nat} :
      instrAt code start i = some (.compute .selb) →
      Flows kept (i + 1)
        (Spu.rtAbc (wordAt code start i)) →
      Flows kept i (Spu.rb (wordAt code start i))

/- The register is not written on the way. -/
def Reaches : Nat → BitVec 7 → Prop :=
  Flows code start len (fun i r =>
    ∀ instr, instrAt code start i = some instr →
      instr.target (wordAt code start i) ≠ some r)

/- Writes on the way are not looked at. -/
def LinkedTo : Nat → BitVec 7 → Prop :=
  Flows code start len (fun _ _ => True)

/- Instruction `i` loads a word-aligned address. -/
def Loads (i : Nat) (a : BitVec 32) : Prop :=
  instrAt code start i = some (.compute .ila) ∧
    (Spu.i18 (wordAt code start i)).setWidth 32 = a ∧
    a.toNat % 4 = 0

/- The value that instruction `i` loads gets to the branch. -/
def LoadReaches (i : Nat) : Prop :=
  Reaches code start len (i + 1)
    (Spu.rt (wordAt code start i))

def LoadLinked (i : Nat) : Prop :=
  LinkedTo code start len (i + 1)
    (Spu.rt (wordAt code start i))

/- The branch may go to the address. -/
def Location (a : BitVec 32) : Prop :=
  ∃ i, Loads code start i a ∧ LoadReaches code start len i

/- All locations are reported, and nothing else. -/
def Discovers : Prop :=
  ∃ labels,
    discoverIndirectLocations start len (analyzeWords code)
        (nameWords code) =
      .ok labels ∧
    (∀ a, Location code start len a → a ∈ labels) ∧
    ∀ a ∈ labels, Location code start len a

/-
  The branch is `bi`.  What the first instruction loads for
  it is loaded by a later one as well, and so is each address
  that is loaded into a register on the way to the branch and
  overwritten.  For another branch nothing is loaded.
-/
def BlockCondition : Prop :=
  if instrAt code start (wordCount len - 1) =
      some (.indirect .bi) then
    (∀ a, Loads code start 0 a →
      LoadReaches code start len 0 →
        ∃ i, 0 < i ∧ Loads code start i a ∧
          LoadLinked code start len i) ∧
    ∀ i a, 0 < i → Loads code start i a →
      LoadLinked code start len i →
      ¬ LoadReaches code start len i →
        Location code start len a
  else
    ∀ i a, Loads code start i a →
      ¬ LoadReaches code start len i

end Block

------------------------------------------------------------
-- Flows
------------------------------------------------------------

section Flows

variable {code : Ps3Uintptr → BitVec 32} {start len : BitVec 32}
variable {kept kept' : Nat → BitVec 7 → Prop}
variable {i : Nat}

theorem Flows.lt
    {r : BitVec 7}
    (hFlows : Flows code start len kept i r) :
    i < wordCount len := by
  induction hFlows with
  | branch hLast _ _ => omega
  | keep _ _ ih => omega
  | first _ _ ih => omega
  | second _ _ ih => omega

theorem Flows.mono
    (hKept : ∀ i r, kept i r → kept' i r)
    {r : BitVec 7}
    (hFlows : Flows code start len kept i r) :
    Flows code start len kept' i r := by
  induction hFlows with
  | branch hLast hInstr hRegister =>
      exact .branch hLast hInstr hRegister
  | keep hKeep _ ih => exact .keep (hKept _ _ hKeep) ih
  | first hSelb _ ih => exact .first hSelb ih
  | second hSelb _ ih => exact .second hSelb ih

theorem LoadReaches.linked
    (hReaches : LoadReaches code start len i) :
    LoadLinked code start len i :=
  Flows.mono (fun _ _ _ => trivial) hReaches

/- At the branch, only its register is linked. -/
theorem linked_last
    {j : Spu.IndirectBranch}
    (hLast : i + 1 = wordCount len)
    (hInstr : instrAt code start i = some (.indirect j))
    (r : BitVec 7) :
    LinkedTo code start len i r ↔
      j.register (wordAt code start i) = some r := by
  constructor
  · intro hLinked
    cases hLinked with
    | branch _ hInstr' hRegister =>
        rw [hInstr] at hInstr'
        cases hInstr'
        exact hRegister
    | keep _ hNext =>
        have hLt := hNext.lt
        omega
    | first hSelb _ =>
        rw [hInstr] at hSelb
        cases hSelb
    | second hSelb _ =>
        rw [hInstr] at hSelb
        cases hSelb
  · exact Flows.branch hLast hInstr

/- Before it, a selection links what it selects from. -/
theorem linked_body
    (hBody : i + 1 < wordCount len)
    (r : BitVec 7) :
    LinkedTo code start len i r ↔
      LinkedTo code start len (i + 1) r ∨
        (instrAt code start i = some (.compute .selb) ∧
          LinkedTo code start len (i + 1)
            (Spu.rtAbc (wordAt code start i)) ∧
          (r = Spu.ra (wordAt code start i) ∨
            r = Spu.rb (wordAt code start i))) := by
  constructor
  · intro hLinked
    cases hLinked with
    | branch hLast _ _ => omega
    | keep _ hNext => exact .inl hNext
    | first hSelb hNext => exact .inr ⟨hSelb, hNext, .inl rfl⟩
    | second hSelb hNext =>
        exact .inr ⟨hSelb, hNext, .inr rfl⟩
  · rintro (hNext | ⟨hSelb, hNext, rfl | rfl⟩)
    · exact .keep trivial hNext
    · exact .first hSelb hNext
    · exact .second hSelb hNext

end Flows

------------------------------------------------------------
-- Steps of the Scan
------------------------------------------------------------

section Scan

variable {code : Ps3Uintptr → BitVec 32} {start len : BitVec 32}

theorem spuR_inj
    {i j : BitVec 7} :
    Spu.spuR i = Spu.spuR j ↔ i = j := by
  constructor
  · intro hEq
    have hNum := congrArg (fun o => o.num.toNat) hEq
    simp only [Spu.spuR, BitVec.toNat_setWidth] at hNum
    apply BitVec.eq_of_toNat_eq
    omega
  · exact congrArg Spu.spuR

variable {instr : Spu.Instr}

/- The name of an instruction of the block. -/
theorem nameWords_of_instrAt
    {i : Nat}
    (hInstr : instrAt code start i = some instr) :
    nameWords code (start + BitVec.ofNat 32 (4 * i)) =
      .ok (some instr) := by
  have hDecode :
      Spu.decode (code (start + BitVec.ofNat 32 (4 * i))) =
        some instr :=
    hInstr
  unfold nameWords
  rw [hDecode]

/- A name is looked up where no register is marked anew. -/
theorem step_name
    {i : Nat}
    (hInstr : instrAt code start i = some instr)
    (hInfo :
      ((analyzeWords code
          (start + BitVec.ofNat 32 (4 * i))).flow &&
        (analyzeWords code
          (start + BitVec.ofNat 32 (4 * i))).target.isNone &&
        (analyzeWords code
          (start + BitVec.ofNat 32 (4 * i))).extInfo) = false)
    (s : Marks) :
    discoverIndirectLocationsStep (analyzeWords code)
        (nameWords code) s
        (start + BitVec.ofNat 32 (4 * i)) =
      .ok (markInputs
        (analyzeWords code (start + BitVec.ofNat 32 (4 * i)))
        s (some instr)) := by
  unfold discoverIndirectLocationsStep
  dsimp only
  rw [hInfo, nameWords_of_instrAt hInstr]
  rfl

/- What is marked, and reported, from instruction `k` on. -/
structure Scanned
    (code : Ps3Uintptr → BitVec 32)
    (start len : BitVec 32)
    (k : Nat)
    (s : Marks) : Prop where
  marked :
    ∀ r, Spu.spuR r ∈ s.marked ↔ LinkedTo code start len k r
  labels :
    ∀ a, a ∈ s.labels ↔
      ∃ i, k ≤ i ∧ Loads code start i a ∧
        LoadLinked code start len i

/- The first instruction from `k` on, or a later one. -/
theorem exists_from_iff
    {P : Nat → Prop}
    (k : Nat) :
    (∃ i, k ≤ i ∧ P i) ↔ P k ∨ ∃ i, k + 1 ≤ i ∧ P i := by
  constructor
  · rintro ⟨i, hLe, hP⟩
    rcases Nat.eq_or_lt_of_le hLe with rfl | hLt
    · exact .inl hP
    · exact .inr ⟨i, hLt, hP⟩
  · rintro (hP | ⟨i, hLe, hP⟩)
    · exact ⟨k, Nat.le_refl k, hP⟩
    · exact ⟨i, Nat.le_of_succ_le hLe, hP⟩

variable {k : Nat} {s : Marks}

/- Only `ila` adds to what is reported. -/
theorem Scanned.labels_of_not_ila
    (hIla : instrAt code start k ≠ some (.compute .ila))
    (hScanned : Scanned code start len (k + 1) s)
    (a : BitVec 32) :
    a ∈ s.labels ↔
      ∃ i, k ≤ i ∧ Loads code start i a ∧
        LoadLinked code start len i := by
  rw [exists_from_iff, hScanned.labels]
  constructor
  · exact .inr
  · rintro (⟨⟨hLoad, -⟩, -⟩ | hLater)
    · exact absurd hLoad hIla
    · exact hLater

/- Only `selb` adds to what is marked. -/
theorem Scanned.marked_of_not_selb
    (hBody : k + 1 < wordCount len)
    (hSelb : instrAt code start k ≠ some (.compute .selb))
    (hScanned : Scanned code start len (k + 1) s)
    (r : BitVec 7) :
    Spu.spuR r ∈ s.marked ↔ LinkedTo code start len k r := by
  rw [hScanned.marked, linked_body hBody]
  simp [hSelb]

theorem markInputs_selb
    (hInstr :
      instrAt code start k = some (.compute .selb))
    (s : Marks) :
    markInputs
        (analyzeWords code (start + BitVec.ofNat 32 (4 * k)))
        s (some (.compute .selb)) =
      if Spu.spuR (Spu.rtAbc (wordAt code start k)) ∈
          s.marked then
        { s with
          marked :=
            insert (Spu.spuR (Spu.rb (wordAt code start k)))
              (insert
                (Spu.spuR (Spu.ra (wordAt code start k)))
                s.marked) }
      else s := by
  have hInfo :=
    Spu.analyzeSpu_selb hInstr
      (start + BitVec.ofNat 32 (4 * k))
  unfold markInputs analyzeWords
  change
    (if operand (Spu.analyzeSpu (wordAt code start k)
        _).outputs 0 ∈ s.marked then _ else s) = _
  rw [hInfo.2]
  refine if_congr Iff.rfl ?_ rfl
  change
    ({ s with
        marked :=
          insert (operand (Spu.analyzeSpu
              (wordAt code start k) _).inputs 1)
            (insert (operand (Spu.analyzeSpu
              (wordAt code start k) _).inputs 0)
              s.marked) } : Marks) = _
  rw [hInfo.1]
  rfl

theorem markInputs_ila
    (hInstr :
      instrAt code start k = some (.compute .ila))
    (s : Marks) :
    markInputs
        (analyzeWords code (start + BitVec.ofNat 32 (4 * k)))
        s (some (.compute .ila)) =
      if Spu.spuR (Spu.rt (wordAt code start k)) ∈
            s.marked ∧
          ((Spu.i18 (wordAt code start k)).setWidth
            32).toNat % 4 = 0 then
        { s with
          labels :=
            insert
              ((Spu.i18 (wordAt code start k)).setWidth 32)
              s.labels }
      else s := by
  have hInfo :=
    Spu.analyzeSpu_ila hInstr
      (start + BitVec.ofNat 32 (4 * k))
  have hImm :
      (operand
          (analyzeWords code
            (start + BitVec.ofNat 32 (4 * k))).inputs
          0).imm =
        (Spu.i18 (wordAt code start k)).setWidth 32 :=
    congrArg (fun inputs => (operand inputs 0).imm) hInfo.1
  have hOutput :
      operand
          (analyzeWords code
            (start + BitVec.ofNat 32 (4 * k))).outputs 0 =
        Spu.spuR (Spu.rt (wordAt code start k)) :=
    congrArg (fun outputs => operand outputs 0) hInfo.2
  unfold markInputs
  dsimp only
  rw [hImm, hOutput]

theorem Scanned.selb
    (hBody : k + 1 < wordCount len)
    (hInstr :
      instrAt code start k = some (.compute .selb))
    (hScanned : Scanned code start len (k + 1) s) :
    Scanned code start len k
      (markInputs
        (analyzeWords code (start + BitVec.ofNat 32 (4 * k)))
        s (some (.compute .selb))) := by
  have hIla :
      instrAt code start k ≠ some (.compute .ila) := by
    rw [hInstr]
    decide
  have hOutput :=
    hScanned.marked (Spu.rtAbc (wordAt code start k))
  have hLabels := hScanned.labels_of_not_ila hIla
  rw [markInputs_selb hInstr]
  split
  case isTrue hMarked =>
    refine ⟨fun r => ?_, hLabels⟩
    rw [linked_body hBody, ← hScanned.marked r, ← hOutput]
    simp only [Finset.mem_insert, spuR_inj, hInstr, hMarked,
      true_and]
    tauto
  case isFalse hMarked =>
    refine ⟨fun r => ?_, hLabels⟩
    rw [linked_body hBody, ← hScanned.marked r, ← hOutput]
    simp only [hMarked, false_and, and_false, or_false]

theorem Scanned.ila
    (hBody : k + 1 < wordCount len)
    (hInstr :
      instrAt code start k = some (.compute .ila))
    (hScanned : Scanned code start len (k + 1) s) :
    Scanned code start len k
      (markInputs
        (analyzeWords code (start + BitVec.ofNat 32 (4 * k)))
        s (some (.compute .ila))) := by
  have hSelb :
      instrAt code start k ≠ some (.compute .selb) := by
    rw [hInstr]
    decide
  have hOutput :
      Spu.spuR (Spu.rt (wordAt code start k)) ∈ s.marked ↔
        LoadLinked code start len k :=
    hScanned.marked _
  have hRegisters :=
    hScanned.marked_of_not_selb hBody hSelb
  rw [markInputs_ila hInstr]
  split
  case isTrue hBoth =>
    refine ⟨hRegisters, fun a => ?_⟩
    rw [exists_from_iff, Finset.mem_insert, hScanned.labels]
    refine or_congr ?_ Iff.rfl
    constructor
    · rintro rfl
      exact
        ⟨⟨hInstr, rfl, hBoth.2⟩, hOutput.mp hBoth.1⟩
    · rintro ⟨⟨-, hAddress, -⟩, -⟩
      exact hAddress.symm
  case isFalse hNot =>
    refine ⟨hRegisters, fun a => ?_⟩
    rw [exists_from_iff, hScanned.labels]
    constructor
    · exact .inr
    · rintro (⟨⟨-, rfl, hAligned⟩, hLinked⟩ | hLater)
      · exact absurd ⟨hOutput.mpr hLinked, hAligned⟩ hNot
      · exact hLater

theorem markInputs_other
    (hSelb : instr ≠ .compute .selb)
    (hIla : instr ≠ .compute .ila)
    (info : Spu.InstructionInfo)
    (s : Marks) :
    markInputs info s (some instr) = s := by
  unfold markInputs
  split
  case h_1 hEq => exact absurd (Option.some.inj hEq) hSelb
  case h_2 hEq => exact absurd (Option.some.inj hEq) hIla
  case h_3 => rfl

/- One more instruction, from the end of the block. -/
theorem Scanned.step
    (hBody : k + 1 < wordCount len)
    (hInstr : instrAt code start k = some instr)
    (hScanned : Scanned code start len (k + 1) s) :
    Scanned code start len k
      (markInputs
        (analyzeWords code (start + BitVec.ofNat 32 (4 * k)))
        s (some instr)) := by
  by_cases hSelb : instr = .compute .selb
  · subst hSelb
    exact hScanned.selb hBody hInstr
  · by_cases hIla : instr = .compute .ila
    · subst hIla
      exact hScanned.ila hBody hInstr
    · rw [markInputs_other hSelb hIla]
      constructor
      · apply hScanned.marked_of_not_selb hBody
        rwa [hInstr, Ne, Option.some_inj]
      · apply hScanned.labels_of_not_ila
        rwa [hInstr, Ne, Option.some_inj]

/- The branch itself. -/
theorem Scanned.last
    (hLast : k + 1 = wordCount len)
    (hInstr : instrAt code start k = some (.indirect .bi)) :
    ∃ s,
      discoverIndirectLocationsStep (analyzeWords code)
          (nameWords code) ⟨∅, ∅⟩
          (start + BitVec.ofNat 32 (4 * k)) =
        .ok s ∧
      Scanned code start len k s := by
  have hInfo :=
    Spu.analyzeSpu_indirect hInstr
      (start + BitVec.ofNat 32 (4 * k))
  have hMarks :
      ((analyzeWords code
          (start + BitVec.ofNat 32 (4 * k))).flow &&
        (analyzeWords code
          (start + BitVec.ofNat 32 (4 * k))).target.isNone &&
        (analyzeWords code
          (start + BitVec.ofNat 32 (4 * k))).extInfo) =
        true := by
    unfold analyzeWords
    change ((Spu.analyzeSpu (wordAt code start k) _).flow &&
      (Spu.analyzeSpu (wordAt code start k) _).target.isNone &&
      (Spu.analyzeSpu (wordAt code start k) _).extInfo) = _
    rw [hInfo.1, hInfo.2.1, hInfo.2.2.1]
    rfl
  have hInput :
      operand
          (analyzeWords code
            (start + BitVec.ofNat 32 (4 * k))).inputs 0 =
        Spu.spuR (Spu.ra (wordAt code start k)) :=
    congrArg (fun inputs => operand inputs 0)
      (hInfo.2.2.2 rfl)
  refine
    ⟨⟨{Spu.spuR (Spu.ra (wordAt code start k))}, ∅⟩, ?_, ?_⟩
  · unfold discoverIndirectLocationsStep
    dsimp only
    rw [hMarks, hInput]
    rfl
  · constructor
    · intro r
      rw [linked_last hLast hInstr, Finset.mem_singleton,
        spuR_inj]
      exact ⟨fun hEq => congrArg some hEq.symm,
        fun hEq => (Option.some.inj hEq).symm⟩
    · intro a
      constructor
      · intro hMem
        cases hMem
      · rintro ⟨i, hLe, -, hLinked⟩
        have hLt := hLinked.lt
        omega

/- The rest of the scan, which leaves the first one out. -/
theorem Scanned.run
    (hBlock : IndirectBlock code start len)
    (hBody : k + 1 < wordCount len)
    (hScanned : Scanned code start len (k + 1) s) :
    ∃ t,
      (descend start k).foldlM
          (discoverIndirectLocationsStep (analyzeWords code)
            (nameWords code)) s =
        .ok t ∧
      Scanned code start len 1 t := by
  induction k generalizing s with
  | zero => exact ⟨s, rfl, hScanned⟩
  | succ k ih =>
      have hSome := hBlock.decodes (k + 1) (by omega)
      rcases Option.isSome_iff_exists.mp hSome with
        ⟨instr, hInstr⟩
      have hFlow := hBlock.body (k + 1) (by omega)
      have hStep :=
        step_name hInstr
          (by rw [hFlow]; rfl) s
      rcases ih (by omega) (hScanned.step hBody hInstr) with
        ⟨t, hRun, hEnd⟩
      refine ⟨t, ?_, hEnd⟩
      rw [descend, List.foldlM_cons, hStep]
      exact hRun

end Scan

------------------------------------------------------------
-- Reported Locations
------------------------------------------------------------

section Reported

variable {code : Ps3Uintptr → BitVec 32} {start len : BitVec 32}

/- The scan goes from the last instruction to the second. -/
theorem whileGt_block
    (hBlock : IndirectBlock code start len) :
    whileGt (start + len - 4#32) start =
      descend start (wordCount len - 1) := by
  have hFits := hBlock.fits
  have hNonempty := hBlock.nonempty
  have hLast :
      (start + len - 4#32).toNat =
        start.toNat + (len.toNat - 4) := by
    bv_omega
  have hDistance :
      (start + len - 4#32 - start).toNat = len.toNat - 4 := by
    bv_omega
  unfold whileGt wordCount
  rw [hLast, hDistance]
  split
  case isTrue hLt =>
    congr 1
    omega
  case isFalse hNot =>
    have hZero : len.toNat / 4 - 1 = 0 := by omega
    rw [hZero]
    rfl

/- Without `bi` nothing is marked, and nothing is reported. -/
theorem run_without_bi
    (hBlock : IndirectBlock code start len)
    {j : Spu.IndirectBranch}
    (hLast :
      instrAt code start (wordCount len - 1) =
        some (.indirect j))
    (hOther : j ≠ .bi)
    {k : Nat}
    (hBody : k < wordCount len) :
    (descend start k).foldlM
        (discoverIndirectLocationsStep (analyzeWords code)
          (nameWords code)) ⟨∅, ∅⟩ =
      .ok ⟨∅, ∅⟩ := by
  induction k with
  | zero => rfl
  | succ k ih =>
      have hSome := hBlock.decodes (k + 1) hBody
      rcases Option.isSome_iff_exists.mp hSome with
        ⟨instr, hInstr⟩
      have hInfo :
          ((analyzeWords code
              (start + BitVec.ofNat 32 (4 * (k + 1)))).flow &&
            (analyzeWords code
              (start +
                BitVec.ofNat 32 (4 * (k + 1)))).target.isNone &&
            (analyzeWords code
              (start +
                BitVec.ofNat 32 (4 * (k + 1)))).extInfo) =
            false := by
        by_cases hEnd : k + 1 = wordCount len - 1
        · have hBranch :
              (analyzeWords code
                (start +
                  BitVec.ofNat 32 (4 * (k + 1)))).extInfo =
                (j == .bi) := by
            rw [← hEnd] at hLast
            exact (Spu.analyzeSpu_indirect hLast _).2.2.1
          rw [hBranch, beq_eq_false_iff_ne.mpr hOther,
            Bool.and_false]
        · rw [hBlock.body (k + 1) (by omega)]
          rfl
      have hSame :
          ∀ info,
            markInputs info ⟨∅, ∅⟩ (some instr) = ⟨∅, ∅⟩ := by
        intro info
        unfold markInputs
        split
        case h_1 => rw [if_neg (Finset.notMem_empty _)]
        case h_2 =>
          exact if_neg (fun hBoth =>
            Finset.notMem_empty _ hBoth.1)
        case h_3 => rfl
      have hStep := step_name hInstr hInfo ⟨∅, ∅⟩
      rw [hSame] at hStep
      rw [descend, List.foldlM_cons, hStep]
      exact ih (by omega)

/-
  What is reported: what the instructions after the first
  load into registers that are linked to the branch of a
  block that ends in `bi`.
-/
theorem discoverIndirectLocations_spec
    (hBlock : IndirectBlock code start len) :
    ∃ labels,
      discoverIndirectLocations start len (analyzeWords code)
          (nameWords code) =
        .ok labels ∧
      ∀ a, a ∈ labels ↔
        instrAt code start (wordCount len - 1) =
            some (.indirect .bi) ∧
          ∃ i, 1 ≤ i ∧ Loads code start i a ∧
            LoadLinked code start len i := by
  have hNonempty := hBlock.nonempty
  have hCount : 1 ≤ wordCount len := by
    unfold wordCount
    omega
  rcases hBlock.last with ⟨j, hLast⟩
  unfold discoverIndirectLocations
  rw [whileGt_block hBlock]
  by_cases hBi : j = .bi
  · subst hBi
    cases hWords : wordCount len - 1 with
    | zero =>
        refine ⟨∅, rfl, ?_⟩
        intro a
        constructor
        · intro hMem
          cases hMem
        · rintro ⟨-, i, hLe, -, hLinked⟩
          have hLt := hLinked.lt
          omega
    | succ k =>
        rw [hWords] at hLast
        have hEnds : k + 1 + 1 = wordCount len := by omega
        have hBody : k + 1 < wordCount len := by omega
        rcases Scanned.last hEnds hLast with
          ⟨s, hStep, hScanned⟩
        rcases Scanned.run hBlock hBody hScanned with
          ⟨t, hRun, hEnd⟩
        refine ⟨t.labels, ?_, ?_⟩
        · rw [descend, List.foldlM_cons, hStep]
          change ((descend start k).foldlM _ s >>= _) = _
          rw [hRun]
          rfl
        · intro a
          rw [hEnd.labels]
          exact (and_iff_right hLast).symm
  · refine ⟨∅, ?_, ?_⟩
    · rw [run_without_bi hBlock hLast hBi (by omega)]
      rfl
    · intro a
      constructor
      · intro hMem
        cases hMem
      · rintro ⟨hEq, -⟩
        rw [hLast] at hEq
        exact absurd
          (Spu.Instr.indirect.inj (Option.some.inj hEq)) hBi

/-
  The first instruction is not looked at, registers stay
  marked when they are written, and only `bi` marks one.
-/
theorem discovers_iff
    (code : Ps3Uintptr → BitVec 32)
    (start len : BitVec 32)
    (hBlock : IndirectBlock code start len) :
    Discovers code start len ↔
      BlockCondition code start len := by
  rcases discoverIndirectLocations_spec hBlock with
    ⟨labels, hRun, hLabels⟩
  have hDiscovers :
      Discovers code start len ↔
        (∀ a, Location code start len a → a ∈ labels) ∧
          ∀ a ∈ labels, Location code start len a := by
    constructor
    · rintro ⟨labels', hRun', hReports⟩
      rw [hRun] at hRun'
      obtain rfl := Except.ok.inj hRun'
      exact hReports
    · exact fun hReports => ⟨labels, hRun, hReports⟩
  rw [hDiscovers]
  unfold BlockCondition
  split
  case isTrue hBi =>
    have hMem :
        ∀ a, a ∈ labels ↔
          ∃ i, 1 ≤ i ∧ Loads code start i a ∧
            LoadLinked code start len i :=
      fun a => (hLabels a).trans (and_iff_right hBi)
    constructor
    · rintro ⟨hComplete, hSound⟩
      constructor
      · intro a hLoads hReaches
        rcases (hMem a).mp
            (hComplete a ⟨0, hLoads, hReaches⟩) with
          ⟨i, hPos, hLater⟩
        exact ⟨i, hPos, hLater⟩
      · intro i a hPos hLoads hLinked _
        exact hSound a
          ((hMem a).mpr ⟨i, hPos, hLoads, hLinked⟩)
    · rintro ⟨hFirst, hOverwritten⟩
      constructor
      · rintro a ⟨i, hLoads, hReaches⟩
        rw [hMem]
        cases i with
        | zero => exact hFirst a hLoads hReaches
        | succ i =>
            exact
              ⟨i + 1, by omega, hLoads, hReaches.linked⟩
      · intro a ha
        rcases (hMem a).mp ha with
          ⟨i, hPos, hLoads, hLinked⟩
        by_cases hReaches : LoadReaches code start len i
        · exact ⟨i, hLoads, hReaches⟩
        · exact
            hOverwritten i a hPos hLoads hLinked hReaches
  case isFalse hOther =>
    have hNone : ∀ a, a ∉ labels :=
      fun a ha => hOther ((hLabels a).mp ha).1
    constructor
    · rintro ⟨hComplete, -⟩ i a hLoads hReaches
      exact hNone a (hComplete a ⟨i, hLoads, hReaches⟩)
    · intro hNothing
      constructor
      · rintro a ⟨i, hLoads, hReaches⟩
        exact absurd hReaches (hNothing i a hLoads)
      · intro a ha
        exact absurd ha (hNone a)

/- The words of a block at 0x3160, and zeros elsewhere. -/
def listing (words : List (BitVec 32)) : Ps3Uintptr → BitVec 32 :=
  fun va => words.getD ((va - 0x3160#32).toNat / 4) 0#32

/- Two selections between three loaded addresses. -/
def selections : List (BitVec 32) :=
  [0x4080320d, 0x1c19018c, 0x4218c808, 0x3883418b,
    0x42318009, 0x42342802, 0x3b83058a, 0x7c004505,
    0x7c000506, 0x80e24405, 0x80808386, 0x35000200]

set_option maxRecDepth 4000 in
theorem indirectBlock_selections :
    IndirectBlock (listing selections) 0x3160#32 48#32 where
  aligned := by decide
  nonempty := by decide
  fits := by decide
  decodes := by decide
  body := by decide
  last := ⟨.bi, by decide⟩

theorem discovers_iff_selections :
    Discovers (listing selections) 0x3160#32 48#32 ↔
      BlockCondition (listing selections) 0x3160#32 48#32 :=
  discovers_iff _ _ _ indirectBlock_selections

/- ila r3,0x3000 and bi r3. -/
def firstLoad : List (BitVec 32) := [0x42180003, 0x35000180]

theorem indirectBlock_firstLoad :
    IndirectBlock (listing firstLoad) 0x3160#32 8#32 where
  aligned := by decide
  nonempty := by decide
  fits := by decide
  decodes := by decide
  body := by decide
  last := ⟨.bi, by decide⟩

/- The load in the first instruction is not reported. -/
theorem firstLoad_not_discovers :
    ¬ ∀ (code : Ps3Uintptr → BitVec 32)
        (start len : BitVec 32),
        IndirectBlock code start len →
          Discovers code start len := by
  intro hAll
  have hBlock := indirectBlock_firstLoad
  rcases hAll _ _ _ hBlock with
    ⟨labels, hRun, hComplete, -⟩
  rcases discoverIndirectLocations_spec hBlock with
    ⟨labels', hRun', hLabels⟩
  rw [hRun] at hRun'
  obtain rfl := Except.ok.inj hRun'
  have hLoads :
      Loads (listing firstLoad) 0x3160#32 0 0x3000#32 :=
    ⟨by decide, by decide, by decide⟩
  have hReaches :
      LoadReaches (listing firstLoad) 0x3160#32 8#32 0 :=
    @Flows.branch _ _ _ _ _ .bi _ rfl (by decide) (by decide)
  rcases (hLabels _).mp (hComplete _ ⟨0, hLoads, hReaches⟩)
    with ⟨-, i, hLe, hLoads', hLinked⟩
  have hLt := hLinked.lt
  have hCount : wordCount 8#32 = 2 := by decide
  rw [hCount] at hLt
  omega

end Reported

end Rewriter

end Ps3emu
