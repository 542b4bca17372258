import Mathlib.Algebra.GroupWithZero.Nat
import Mathlib.Data.List.Induction
import Mathlib.Data.List.Sort
import Ps3emu.Rewriter.BasicBlocks

/-
  The statements of a block, and the pass that replaces runs
  of adjacent loads or stores by combined accesses.

  Key definitions include:
    * `SimpleInstruction`, `access`
    * `LoadStoreStatement`, `Statement`
    * `transformBasicBlock`
    * `findSeqs`, `mergeSeq`
    * `optimizeAdjacentLoadStores`

  Key theorems include:
    * `findSeqs_spec`
-/

------------------------------------------------------------
-- Instructions and Statements
------------------------------------------------------------

namespace Ps3emu

namespace Rewriter

/- A general purpose register, as a field of a word. -/
abbrev Gpr := BitVec 5

structure SimpleInstruction where
  cia : Ps3Uintptr
  bytes : BitVec 32
deriving DecidableEq

/- The operands of a load or store with a displacement. -/
structure Access where
  load : Bool
  reg : Gpr
  size : Nat
  destReg : Gpr
  disp : Int
deriving DecidableEq

/-
  Whether an instruction is a load, and its size, by its
  name: LBZ, LHZ, LWZ, STB, STH, STW or STD.  The name LDZ is
  compared with too, but no instruction has it.
-/
def kind (bytes : BitVec 32) : Option (Bool × Nat) :=
  match (bytes.extractLsb' 26 6).toNat with
  | 34 => some (true, 1)
  | 40 => some (true, 2)
  | 32 => some (true, 4)
  | 38 => some (false, 1)
  | 44 => some (false, 2)
  | 36 => some (false, 4)
  | 62 =>
      if bytes.extractLsb' 0 2 = 0#2 then some (false, 8)
      else none
  | _ => none

/- The fields of `DForm_3`. -/
def access (bytes : BitVec 32) : Option Access :=
  (kind bytes).map (fun (load, size) =>
    { load := load
      reg := bytes.extractLsb' 21 5
      size := size
      destReg := bytes.extractLsb' 16 5
      disp := (bytes.extractLsb' 0 16).toInt })

/- Bounds on the operands. -/
structure AccessOk (a : Access) : Prop where
  size :
    a.size = 1 ∨ a.size = 2 ∨ a.size = 4 ∨
      (a.size = 8 ∧ a.load = false)
  lower : -32768 ≤ a.disp
  upper : a.disp < 32768

theorem access_ok
    {bytes : BitVec 32}
    {a : Access}
    (hAccess : access bytes = some a) :
    AccessOk a := by
  rcases Option.map_eq_some_iff.mp hAccess with
    ⟨⟨load, size⟩, hKind, rfl⟩
  refine ⟨?_, ?_, ?_⟩
  · unfold kind at hKind
    split at hKind <;> simp_all
  · exact BitVec.le_toInt _
  · exact BitVec.toInt_lt

structure LoadStoreStatementSource where
  reg : Gpr
  size : Nat
deriving DecidableEq

structure LoadStoreStatement where
  simple : SimpleInstruction
  src : List LoadStoreStatementSource
  destReg : Gpr
  disp : Int
  load : Bool
deriving DecidableEq

/- The number of bytes of all sources. -/
def LoadStoreStatement.size (st : LoadStoreStatement) : Nat :=
  (st.src.map LoadStoreStatementSource.size).sum

inductive Statement where
  | simple (i : SimpleInstruction)
  | loadStore (st : LoadStoreStatement)
deriving DecidableEq

/- The statement of one instruction. -/
def transform (i : SimpleInstruction) : Statement :=
  match access i.bytes with
  | some a =>
      .loadStore
        { simple := i
          src := [⟨a.reg, a.size⟩]
          destReg := a.destReg
          disp := a.disp
          load := a.load }
  | none => .simple i

/- The instructions of a block, as they lie in memory. -/
def instructions
    (load32 : Ps3Uintptr → BitVec 32)
    (b : BasicBlock) : List SimpleInstruction :=
  (whileLt b.start (b.start + b.len)).map
    (fun cia => ⟨cia, load32 cia⟩)

def transformBasicBlock
    (load32 : Ps3Uintptr → BitVec 32)
    (b : BasicBlock) : List Statement :=
  (instructions load32 b).map transform

------------------------------------------------------------
-- Runs of Accesses
------------------------------------------------------------

/- `loadStore && loadStore->load == load`. -/
def Statement.isAccess (load : Bool) : Statement → Bool
  | .simple _ => false
  | .loadStore st => st.load == load

/- The variables of the first loop; no start is -1. -/
structure Scan where
  seqs : List (Nat × Nat)
  len : Nat
  start : Option Nat
  cur : Nat
deriving DecidableEq

namespace Scan

def init : Scan where
  seqs := []
  len := 0
  start := some 0
  cur := 0

def step (load : Bool) (s : Scan) (st : Statement) : Scan :=
  if st.isAccess load then
    { s with
      start := if s.start = none then some s.cur else s.start
      len := s.len + 1
      cur := s.cur + 1 }
  else
    { seqs :=
        if s.len > 1 then
          s.seqs ++ [(s.start.getD 0, s.len)]
        else s.seqs
      len := 0
      start := none
      cur := s.cur + 1 }

end Scan

/- A run at the end of the block is not among them. -/
def findSeqs
    (load : Bool)
    (statements : List Statement) : List (Nat × Nat) :=
  (statements.foldl (Scan.step load) Scan.init).seqs

def Statement.loadStore? :
    Statement → Option LoadStoreStatement
  | .simple _ => none
  | .loadStore st => some st

/- The loads and stores of `len` statements from `start` on. -/
def slice
    (statements : List Statement)
    (seq : Nat × Nat) : List LoadStoreStatement :=
  ((statements.drop seq.1).take seq.2).filterMap
    Statement.loadStore?

def sortByDisp
    (sts : List LoadStoreStatement) : List LoadStoreStatement :=
  sts.insertionSort (fun a b => a.disp ≤ b.disp)

def sameDest : List LoadStoreStatement → Bool
  | [] => true
  | a :: rest =>
      (a :: rest).all (fun st => st.destReg == a.destReg)

/- Some access does not start where the one before ends. -/
def overlap : List LoadStoreStatement → Bool
  | a :: b :: rest =>
      decide (a.disp + (a.size : Int) ≠ b.disp) ||
        overlap (b :: rest)
  | _ => false

/- The loop that appends the sources to those of the first. -/
def combine
    (a : LoadStoreStatement) :
    List LoadStoreStatement → LoadStoreStatement
  | [] => a
  | b :: rest => combine { a with src := a.src ++ b.src } rest

/- What replaces a run, unless it is left as it is. -/
def merged
    (run : List LoadStoreStatement) :
    Option LoadStoreStatement :=
  match sortByDisp run with
  | [] => none
  | a :: rest =>
      if !sameDest (a :: rest) || overlap (a :: rest) then none
      else some (combine a rest)

def mergeSeq
    (seq : Nat × Nat)
    (statements : List Statement) : List Statement :=
  match merged (slice statements seq) with
  | none => statements
  | some st =>
      statements.take seq.1 ++ .loadStore st ::
        statements.drop (seq.1 + seq.2)

/- The second loop goes from the last run to the first. -/
def optimizeAdjacentLoadStores
    (load : Bool)
    (statements : List Statement) : List Statement :=
  (findSeqs load statements).foldr mergeSeq statements

------------------------------------------------------------
-- Runs That Are Found
------------------------------------------------------------

/-
  A run that is found has two accesses or more, and is
  followed by another statement.
-/
structure SeqOk
    (load : Bool)
    (statements : List Statement)
    (seq : Nat × Nat) : Prop where
  two : 1 < seq.2
  ends : seq.1 + seq.2 < statements.length
  access :
    ∀ st ∈ (statements.drop seq.1).take seq.2,
      st.isAccess load = true

variable {statements : List Statement} {load : Bool}

theorem SeqOk.append
    {seq : Nat × Nat}
    (hSeq : SeqOk load statements seq)
    (more : List Statement) :
    SeqOk load (statements ++ more) seq := by
  have hEnds := hSeq.ends
  refine ⟨hSeq.two, ?_, ?_⟩
  · rw [List.length_append]
    omega
  · intro st hst
    rw [List.drop_append_of_le_length (by omega),
      List.take_append_of_le_length
        (by rw [List.length_drop]; omega)] at hst
    exact hSeq.access st hst

/- The scan after the statements of a list. -/
structure ScanOk
    (load : Bool)
    (statements : List Statement)
    (s : Scan) : Prop where
  cur : s.cur = statements.length
  len : s.len ≤ s.cur
  start : 0 < s.len → s.start = some (s.cur - s.len)
  fresh : s.len = 0 → s.start = none ∨ s.start = some s.cur
  trailing :
    ∀ st ∈ statements.drop (s.cur - s.len),
      st.isAccess load = true
  seqs : ∀ seq ∈ s.seqs, SeqOk load statements seq
  before :
    ∀ seq ∈ s.seqs, seq.1 + seq.2 ≤ s.cur - s.len
  apart : s.seqs.Pairwise (fun a b => a.1 + a.2 ≤ b.1)

/- Another access of the kind that is looked for. -/
theorem ScanOk.access
    {s : Scan}
    {st : Statement}
    (hScan : ScanOk load statements s)
    (hAccess : st.isAccess load = true) :
    ScanOk load (statements ++ [st]) (Scan.step load s st) := by
  have hCur := hScan.cur
  have hLen := hScan.len
  unfold Scan.step
  rw [if_pos hAccess]
  have hSub :
      s.cur + 1 - (s.len + 1) = s.cur - s.len := by
    omega
  refine ⟨by simp [hCur], by simp only; omega, ?_, by simp,
    ?_, ?_, ?_, hScan.apart⟩
  · intro _
    simp only [hSub]
    cases hZero : s.len with
    | zero =>
        rcases hScan.fresh hZero with hNone | hSome
        · simp [hNone]
        · simp [hSome]
    | succ n =>
        rw [hScan.start (by omega), hZero]
        simp
  · intro x hx
    simp only [hSub] at hx
    rw [List.drop_append_of_le_length (by omega)] at hx
    rcases List.mem_append.mp hx with hOld | hNew
    · exact hScan.trailing x hOld
    · rw [List.mem_singleton.mp hNew]
      exact hAccess
  · intro seq hSeq
    exact (hScan.seqs seq hSeq).append [st]
  · intro seq hSeq
    simp only [hSub]
    exact hScan.before seq hSeq

/- The run that ends at a statement of another kind. -/
theorem ScanOk.run
    {s : Scan}
    (hScan : ScanOk load statements s)
    (hLen : 1 < s.len)
    (st : Statement) :
    SeqOk load (statements ++ [st])
      (s.start.getD 0, s.len) := by
  have hCur := hScan.cur
  have hLe := hScan.len
  rw [hScan.start (by omega), Option.getD_some]
  refine ⟨hLen, ?_, ?_⟩
  · simp only [List.length_append, List.length_singleton]
    omega
  · intro x hx
    rw [List.drop_append_of_le_length (by simp only; omega),
      List.take_append_of_le_length
        (by simp only [List.length_drop]; omega)] at hx
    exact hScan.trailing x (List.mem_of_mem_take hx)

theorem ScanOk.other
    {s : Scan}
    {st : Statement}
    (hScan : ScanOk load statements s)
    (hOther : st.isAccess load ≠ true) :
    ScanOk load (statements ++ [st]) (Scan.step load s st) := by
  have hCur := hScan.cur
  have hLe := hScan.len
  have hOld :
      ∀ seq ∈ s.seqs,
        SeqOk load (statements ++ [st]) seq := by
    intro seq hSeq
    exact (hScan.seqs seq hSeq).append [st]
  have hDone :
      (statements ++ [st]).drop (s.cur + 1 - 0) = [] := by
    apply List.drop_eq_nil_of_le
    simp only [List.length_append, List.length_singleton]
    omega
  unfold Scan.step
  rw [if_neg hOther]
  by_cases hLen : s.len > 1
  · have hRun := hScan.run hLen st
    have hStart := hScan.start (by omega)
    simp only [hLen, if_true]
    refine ⟨by simp [hCur], by simp, by simp, by simp, ?_,
      ?_, ?_, ?_⟩
    · intro x hx
      simp only [hDone] at hx
      cases hx
    · intro seq hSeq
      rcases List.mem_append.mp hSeq with hMem | hNew
      · exact hOld seq hMem
      · rw [List.mem_singleton.mp hNew]
        exact hRun
    · intro seq hSeq
      rcases List.mem_append.mp hSeq with hMem | hNew
      · have hBefore := hScan.before seq hMem
        simp only
        omega
      · rw [List.mem_singleton.mp hNew, hStart]
        simp only [Option.getD_some]
        omega
    · rw [List.pairwise_append]
      refine ⟨hScan.apart, List.pairwise_singleton _ _, ?_⟩
      intro a ha b hb
      rw [List.mem_singleton.mp hb, hStart]
      exact hScan.before a ha
  · simp only [hLen, if_false]
    refine ⟨by simp [hCur], by simp, by simp, by simp, ?_,
      hOld, ?_, hScan.apart⟩
    · intro x hx
      simp only [hDone] at hx
      cases hx
    · intro seq hSeq
      have hBefore := hScan.before seq hSeq
      simp only
      omega

theorem scan_ok
    (load : Bool)
    (statements : List Statement) :
    ScanOk load statements
      (statements.foldl (Scan.step load) Scan.init) := by
  induction statements using List.reverseRecOn with
  | nil =>
      refine ⟨rfl, Nat.le_refl _, ?_, ?_, ?_, ?_, ?_, .nil⟩
      · intro hPos
        cases hPos
      · intro _
        exact .inr rfl
      · intro st hst
        cases hst
      · intro seq hSeq
        cases hSeq
      · intro seq hSeq
        cases hSeq
  | append_singleton statements st ih =>
      rw [List.foldl_append]
      by_cases hAccess : st.isAccess load = true
      · exact ih.access hAccess
      · exact ih.other hAccess

/- The runs that are found, and their order. -/
theorem findSeqs_spec
    (load : Bool)
    (statements : List Statement) :
    (∀ seq ∈ findSeqs load statements,
      SeqOk load statements seq) ∧
    (findSeqs load statements).Pairwise
      (fun a b => a.1 + a.2 ≤ b.1) :=
  ⟨(scan_ok load statements).seqs,
    (scan_ok load statements).apart⟩

end Rewriter

end Ps3emu
