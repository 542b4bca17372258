import Mathlib.Data.Finset.Sort
import Ps3emu.Rewriter.JumpTable

/-
  The discovery of the basic blocks of a segment of which
  only the front is code, with the assertions compiled out:
  where it touches the map of the breaks.

  Key definitions include:
    * `CodeMap.markAt`, `CodeMap.getAt`
    * `Cutoff.discoverBasicBlocks`
    * `CutAt`
    * `StaysInside`

  Key theorems include:
    * `codeEnd_iff`
    * `staysInside_iff`
    * `discoverBasicBlocks_of_checked`
-/

------------------------------------------------------------
-- Map
------------------------------------------------------------

namespace Ps3emu

namespace Rewriter

namespace CodeMap

/- What `inrange` returns. -/
def covers (m : CodeMap) (va : Ps3Uintptr) : Bool :=
  decide (m.index va < m.map.length)

def getAt
    (m : CodeMap)
    (va : Ps3Uintptr) : Except Halt Bool :=
  if m.covers va then
    .ok (m.map.getD (m.index va) false)
  else .error (.outside va)

def markAt
    (m : CodeMap)
    (va : Ps3Uintptr) : Except Halt CodeMap :=
  if m.covers va then
    .ok { m with map := m.map.set (m.index va) true }
  else .error (.outside va)

/- `if (map.inrange(va)) map.mark(va);` -/
def markCovered
    (m : CodeMap)
    (va : Ps3Uintptr) : Except Halt CodeMap :=
  if m.covers va then m.markAt va else .ok m

end CodeMap

------------------------------------------------------------
-- Discovery
------------------------------------------------------------

namespace Cutoff

def markTarget
    (map : CodeMap) :
    Option Ps3Uintptr → Except Halt CodeMap
  | some target => map.markCovered target
  | none => .ok map

def discoverBreaksStep
    (analyze : AnalyzeSpu)
    (map : CodeMap)
    (cia : Ps3Uintptr) : Except Halt CodeMap := do
  let info := analyze cia
  let map ← markTarget map info.target
  if info.flow then map.markCovered (cia + 4#32)
  else return map

/- The loop ends only where it meets the end. -/
def discoverBreaksLoop
    (analyze : AnalyzeSpu)
    (finish : Ps3Uintptr) :
    Nat → Ps3Uintptr → CodeMap → Except Halt CodeMap
  | 0, _, _ => .error .unfinished
  | fuel + 1, cia, map =>
      if cia = finish then return map
      else do
        let map ← discoverBreaksStep analyze map cia
        discoverBreaksLoop analyze finish fuel (cia + 4#32)
          map

def discoverBreaks
    (fuel : Nat)
    (start len : BitVec 32)
    (analyze : AnalyzeSpu) : Except Halt CodeMap :=
  discoverBreaksLoop analyze (start + len) fuel start
    (CodeMap.ofSegment start len)

def makeBasicBlocksStep
    (breaks : CodeMap)
    (s : Sweep)
    (cia : Ps3Uintptr) : Except Halt Sweep := do
  let isBreak ← breaks.getAt cia
  let s :=
    if isBreak = true ∧ s.block.len ≠ 0#32 then
      { blocks := insertBlock s.block s.blocks
        block := ⟨cia, 0#32⟩ : Sweep }
    else s
  return { s with
    block := { s.block with len := s.block.len + 4#32 } }

/- The length is a multiple of four, or no map comes here. -/
def makeBasicBlocks
    (start len : BitVec 32)
    (breaks : CodeMap) :
    Except Halt (List BasicBlock) := do
  let s ←
    (whileLt start (start + len)).foldlM
      (makeBasicBlocksStep breaks) ⟨[], ⟨start, 0#32⟩⟩
  return s.close

end Cutoff

/- `intersects` on intervals of machine words. -/
def intersects (a alen b blen : BitVec 32) : Bool :=
  !(decide ((a + alen).toNat ≤ b.toNat) ||
    decide ((b + blen).toNat ≤ a.toNat))

/- An address outside of all blocks is only logged. -/
def splitBlocks
    (blocks : List BasicBlock)
    (va : Ps3Uintptr) : List BasicBlock :=
  match blocks.find?
      (fun b => intersects b.start b.len va 4#32) with
  | none => blocks
  | some b =>
      if b.start = va then blocks
      else
        let left : BasicBlock := ⟨b.start, va - b.start⟩
        let right : BasicBlock := ⟨va, b.len - left.len⟩
        insertBlock right
          (insertBlock left (blocks.erase b))

/-
  The search for two adjacent zero words.  The address of the
  last zero word is -1 before there is one.
-/
def findDataCutoffLoop
    (finish : Ps3Uintptr)
    (read : Read) :
    Nat → Ps3Uintptr → Ps3Uintptr → Except Halt Ps3Uintptr
  | 0, _, _ => .error .unfinished
  | fuel + 1, i, lastZero =>
      if i.toNat < finish.toNat then do
        let word ← call (read i)
        if word = 0#32 then
          if lastZero + 4#32 = i then return i
          else
            findDataCutoffLoop finish read fuel (i + 4#32) i
        else
          findDataCutoffLoop finish read fuel (i + 4#32)
            lastZero
      else return finish

def findDataCutoff
    (fuel : Nat)
    (start len : BitVec 32)
    (read : Read) : Except Halt Ps3Uintptr :=
  findDataCutoffLoop (start + len) read fuel start
    0xffffffff#32

------------------------------------------------------------
-- Confidence
------------------------------------------------------------

/- `for (ip = start; ip < finish; ip += 4)`. -/
def forBelow
    {S : Type}
    (finish : Ps3Uintptr)
    (body : S → Ps3Uintptr → Except Halt S) :
    Nat → Ps3Uintptr → S → Except Halt S
  | 0, _, _ => .error .unfinished
  | fuel + 1, ip, s =>
      if ip.toNat < finish.toNat then do
        let s ← body s ip
        forBelow finish body fuel (ip + 4#32) s
      else return s

def loadStoreTarget
    (analyze : AnalyzeSpu)
    (name : Name)
    (targets : List (BitVec 32))
    (ip : Ps3Uintptr) : Except Halt (List (BitVec 32)) := do
  let n ← call (name ip)
  if n = some (.memory .lqa) ∨ n = some (.memory .stqa) ∨
      n = some (.memory .lqr) ∨ n = some (.memory .stqr) then
    return (operand (analyze ip).inputs 0).imm :: targets
  else return targets

def removeLoadStoreTargets
    (fuel : Nat)
    (graph : Graph)
    (analyze : AnalyzeSpu)
    (name : Name) : Except Halt Graph := do
  let targets ←
    (graphToBlocks graph).foldlM
      (fun targets b =>
        forBelow (b.start + b.len)
          (loadStoreTarget analyze name) fuel b.start targets)
      []
  return removeVertices graph
    (fun b =>
      targets.any
        (fun target => intersects b.start b.len target 4#32))

def markLonelyStop
    (name : Name)
    (v : Vertex) : Except Halt Vertex := do
  if v.block.len ≠ 4#32 then return v
  else
    let n ← call (name v.block.start)
    if n = some (.system .stop) ∨ n = some (.system .stopd) then
      return { v with invalid := true }
    else return v

def removeLonelyStops
    (graph : Graph)
    (name : Name) : Except Halt Graph := do
  let vertices ← graph.vertices.mapM (markLonelyStop name)
  return removeInvalidVertices
    { graph with vertices := vertices }

/- `boost::alignment::align_up(b, 4u)`. -/
def alignUp (b : BitVec 32) : BitVec 32 :=
  (b + 3#32) &&& ~~~3#32

/- What the blocks tell of jumps that are not followed. -/
structure Targets where
  jumpTables : List (BitVec 32 × BitVec 32)
  newBreaks : List (BitVec 32)

def collectTargets
    (fuel : Nat)
    (start length : BitVec 32)
    (analyze : AnalyzeSpu)
    (name : Name)
    (read : Read)
    (s : Targets)
    (b : BasicBlock) : Except Halt Targets := do
  let breaks1 ←
    discoverIndirectLocations b.start b.len analyze name
  let newBreaks :=
    breaks1.sort (fun a b => a ≤ b) ++ s.newBreaks
  let (table, len) ←
    discoverJumpTable fuel b.start b.len start length analyze
      name read
  if len ≠ 0#32 then
    let entries ←
      (whileLt table (table + len)).mapM
        (fun i => call (read i))
    return {
      jumpTables := s.jumpTables ++ [(table, len)]
      newBreaks := newBreaks ++ (table + len) :: entries }
  else return { s with newBreaks := newBreaks }

def splitAt
    (breaks : CodeMap)
    (blocks : List BasicBlock)
    (b : BitVec 32) : List BasicBlock :=
  if breaks.covers (alignUp b) then
    splitBlocks blocks (alignUp b)
  else blocks

def discoverConfidently
    (fuel : Nat)
    (start length : BitVec 32)
    (breaks : CodeMap)
    (graph : Graph)
    (analyze : AnalyzeSpu)
    (name : Name)
    (read : Read) : Except Halt Graph := do
  let blocks :=
    (graphToBlocks graph).foldl
      (fun blocks b => insertBlock b blocks) []
  let found ←
    blocks.foldlM
      (collectTargets fuel start length analyze name read)
      ⟨[], []⟩
  let blocks := found.newBreaks.foldl (splitAt breaks) blocks
  let graph :=
    removeVertices
      (buildGraph blocks
        (fun cia => (analyze cia).toInstructionInfo))
      (fun b =>
        found.jumpTables.any
          (fun (table, len) =>
            intersects b.start b.len table len))
  let graph ← removeLoadStoreTargets fuel graph analyze name
  removeLonelyStops graph name

/- Both optionals are used without a test. -/
def deref {α : Type} : Option α → Except Halt α
  | some a => .ok a
  | none => .error (.threw "bad_optional_access")

def resolveJumps
    (fuel : Nat)
    (start length : BitVec 32)
    (breaks : CodeMap)
    (graph : Graph)
    (analyze : AnalyzeSpu)
    (name : Option Name)
    (read : Option Read)
    (confidence : Bool) : Except Halt Graph :=
  if confidence then do
    let name ← deref name
    let read ← deref read
    discoverConfidently fuel start length breaks graph
      analyze name read
  else .ok graph

/- The end of the code. -/
def codeEnd
    (fuel : Nat)
    (start length : BitVec 32) :
    Option Read → Except Halt Ps3Uintptr
  | some read => findDataCutoff fuel start length read
  | none => .ok (start + length)

namespace Cutoff

def discoverBasicBlocks
    (fuel : Nat)
    (start length : BitVec 32)
    (leads : List Ps3Uintptr)
    (analyze : AnalyzeSpu)
    (validate : Validate)
    (name : Option Name)
    (read : Option Read)
    (confidence : Bool) :
    Except Halt (List BasicBlock) := do
  if leads.all (fun lead => subset lead 4#32 start length)
  then
    let finish ← codeEnd fuel start length read
    let length := finish - start
    let breaks ← discoverBreaks fuel start length analyze
    let breaks ← leads.foldlM CodeMap.markAt breaks
    let blocks ← makeBasicBlocks start length breaks
    let graph :=
      removeVertices
        (buildGraph blocks
          (fun cia => (analyze cia).toInstructionInfo))
        (containsIllegalInstruction validate)
    let graph ←
      resolveJumps fuel start length breaks graph analyze
        name read confidence
    return (graphToBlocks graph).insertionSort
      (fun b c => b.start.toNat ≤ c.start.toNat)
  else throw (.threw "a lead is outside the segment")

end Cutoff

------------------------------------------------------------
-- End of the Code
------------------------------------------------------------

section CodeEnd

variable (start length : BitVec 32)

/- The address of a word of the segment. -/
def wordVa (i : Nat) : Ps3Uintptr :=
  start + BitVec.ofNat 32 (4 * i)

/-
  There is a zero word before word `i`.  No word has been
  read before the first one; the -1 that stands for its
  address is the one before 3.
-/
def ZeroBefore (read : Read) : Nat → Prop
  | 0 => start = 3#32
  | i + 1 => read (wordVa start i) = .ok 0#32

def ZeroPair (read : Read) (i : Nat) : Prop :=
  read (wordVa start i) = .ok 0#32 ∧ ZeroBefore start read i

/- The first words lie before the end, and end no pair. -/
def SearchedPast (read : Read) (n : Nat) : Prop :=
  ∀ i < n,
    (wordVa start i).toNat < (start + length).toNat ∧
      (∃ word, read (wordVa start i) = .ok word) ∧
      ¬ ZeroPair start read i

/-
  The code of a segment ends at the second of two adjacent
  zero words, or else where the segment does.
-/
inductive CutAt : Option Read → Ps3Uintptr → Prop where
  | unread : CutAt none (start + length)
  | pair {read : Read} {n : Nat} :
      SearchedPast start length read n →
      (wordVa start n).toNat < (start + length).toNat →
      ZeroPair start read n →
      CutAt (some read) (wordVa start n)
  | whole {read : Read} {n : Nat} :
      SearchedPast start length read n →
      (start + length).toNat ≤ (wordVa start n).toNat →
      CutAt (some read) (start + length)

/-
  A cut that leaves whole words leaves the leads.  At any
  other cut the sweep does not end, and marks no lead.
-/
def LeadsKept
    (leads : List Ps3Uintptr)
    (read : Option Read) : Prop :=
  ∀ finish, CutAt start length read finish →
    4 ∣ (finish - start).toNat →
    ∀ lead ∈ leads,
      (lead - start).toNat < (finish - start).toNat

/- No access outside the map that the segment is given. -/
def StaysInside
    (leads : List Ps3Uintptr)
    (analyze : AnalyzeSpu)
    (validate : Validate)
    (name : Option Name)
    (read : Option Read)
    (confidence : Bool) : Prop :=
  ∀ fuel va,
    Cutoff.discoverBasicBlocks fuel start length leads analyze
        validate name read confidence ≠
      .error (.outside va)

end CodeEnd

section Search

variable {start length : BitVec 32} {read : Read}

theorem wordVa_succ (i : Nat) :
    wordVa start (i + 1) = wordVa start i + 4#32 := by
  rw [wordVa, wordVa, BitVec.add_assoc, Nat.mul_succ,
    BitVec.ofNat_add]

theorem wordVa_zero : wordVa start 0 = start := by
  rw [wordVa, Nat.mul_zero, BitVec.add_zero]

/- What the search knows of the last zero word. -/
structure LastZero
    (start : BitVec 32)
    (read : Read)
    (n : Nat)
    (lastZero : Ps3Uintptr) : Prop where
  none_or_word :
    lastZero = 0xffffffff#32 ∨
      read lastZero = .ok 0#32
  before :
    ZeroBefore start read n ↔
      lastZero + 4#32 = wordVa start n

theorem LastZero.first (start : BitVec 32) (read : Read) :
    LastZero start read 0 0xffffffff#32 where
  none_or_word := .inl rfl
  before := by
    rw [ZeroBefore, wordVa_zero]
    constructor
    · rintro rfl
      rfl
    · intro hEq
      rw [← hEq]
      rfl

variable {n : Nat}

/- A zero word is the last one. -/
theorem LastZero.zero
    (hWord : read (wordVa start n) = .ok 0#32) :
    LastZero start read (n + 1) (wordVa start n) where
  none_or_word := .inr hWord
  before := by
    rw [ZeroBefore, wordVa_succ]
    exact ⟨fun _ => rfl, fun _ => hWord⟩

variable {word : BitVec 32}

theorem LastZero.nonzero
    {lastZero : Ps3Uintptr}
    (hLast : LastZero start read n lastZero)
    (hBelow :
      (wordVa start n).toNat < (start + length).toNat)
    (hRead : read (wordVa start n) = .ok word)
    (hWord : word ≠ 0#32) :
    LastZero start read (n + 1) lastZero where
  none_or_word := hLast.none_or_word
  before := by
    have hNot : read (wordVa start n) ≠ .ok 0#32 := by
      rw [hRead]
      intro hEq
      exact hWord (Except.ok.inj hEq)
    rw [ZeroBefore, wordVa_succ]
    constructor
    · intro hZero
      exact absurd hZero hNot
    · intro hNext
      have hSame : lastZero = wordVa start n := by bv_omega
      rcases hLast.none_or_word with hNone | hZero
      · rw [← hSame, hNone] at hBelow
        have hMax := (start + length).isLt
        simp at hBelow
        omega
      · rw [hSame] at hZero
        exact absurd hZero hNot

/- One round of the search. -/
theorem findDataCutoffLoop_read
    {finish i : Ps3Uintptr}
    (hBelow : i.toNat < finish.toNat)
    (hRead : read i = .ok word)
    (fuel : Nat)
    (lastZero : Ps3Uintptr) :
    findDataCutoffLoop finish read (fuel + 1) i lastZero =
      if word = 0#32 then
        if lastZero + 4#32 = i then .ok i
        else
          findDataCutoffLoop finish read fuel (i + 4#32) i
      else
        findDataCutoffLoop finish read fuel (i + 4#32)
          lastZero := by
  rw [findDataCutoffLoop, if_pos hBelow, hRead]
  rfl

/- A round at a word that ends no pair. -/
theorem findDataCutoffLoop_step
    {lastZero : Ps3Uintptr}
    (hLast : LastZero start read n lastZero)
    (hBelow :
      (wordVa start n).toNat < (start + length).toNat)
    (hRead : read (wordVa start n) = .ok word)
    (hUnpaired : ¬ ZeroPair start read n) :
    ∃ next, LastZero start read (n + 1) next ∧
      ∀ fuel,
        findDataCutoffLoop (start + length) read (fuel + 1)
            (wordVa start n) lastZero =
          findDataCutoffLoop (start + length) read fuel
            (wordVa start (n + 1)) next := by
  by_cases hWord : word = 0#32
  · rw [hWord] at hRead
    refine ⟨wordVa start n, .zero hRead, ?_⟩
    intro fuel
    have hApart : lastZero + 4#32 ≠ wordVa start n := by
      intro hEq
      exact hUnpaired ⟨hRead, hLast.before.mpr hEq⟩
    rw [findDataCutoffLoop_read hBelow hRead, if_pos rfl,
      if_neg hApart, wordVa_succ]
  · refine ⟨lastZero, hLast.nonzero hBelow hRead hWord, ?_⟩
    intro fuel
    rw [findDataCutoffLoop_read hBelow hRead, if_neg hWord,
      wordVa_succ]

/- The search gets past the words that end no pair. -/
theorem findDataCutoffLoop_past
    (hPast : SearchedPast start length read n) :
    ∃ lastZero, LastZero start read n lastZero ∧
      ∀ fuel,
        findDataCutoff (fuel + n) start length read =
          findDataCutoffLoop (start + length) read fuel
            (wordVa start n) lastZero := by
  induction n with
  | zero =>
      refine ⟨0xffffffff#32, .first start read, ?_⟩
      intro fuel
      rw [findDataCutoff, wordVa_zero]
      rfl
  | succ n ih =>
      rcases ih (fun i hi => hPast i (by omega)) with
        ⟨lastZero, hLast, hLoop⟩
      rcases hPast n (Nat.lt_succ_self n) with
        ⟨hBelow, ⟨word, hRead⟩, hUnpaired⟩
      rcases findDataCutoffLoop_step hLast hBelow hRead
          hUnpaired with
        ⟨next, hNext, hStep⟩
      refine ⟨next, hNext, ?_⟩
      intro fuel
      rw [← hStep fuel, ← hLoop (fuel + 1), Nat.add_assoc,
        Nat.add_comm 1 n]

theorem SearchedPast.succ
    (hPast : SearchedPast start length read n)
    (hBelow :
      (wordVa start n).toNat < (start + length).toNat)
    (hRead : read (wordVa start n) = .ok word)
    (hUnpaired : ¬ ZeroPair start read n) :
    SearchedPast start length read (n + 1) := by
  intro i hi
  by_cases hLast : i = n
  · rw [hLast]
    exact ⟨hBelow, ⟨word, hRead⟩, hUnpaired⟩
  · exact hPast i (by omega)

/- A search that ends, ends at the end of the code. -/
theorem cutAt_of_findDataCutoffLoop
    {fuel n : Nat}
    {lastZero finish : Ps3Uintptr}
    (hPast : SearchedPast start length read n)
    (hLast : LastZero start read n lastZero)
    (hLoop :
      findDataCutoffLoop (start + length) read fuel
        (wordVa start n) lastZero = .ok finish) :
    CutAt start length (some read) finish := by
  induction fuel generalizing n lastZero with
  | zero => cases hLoop
  | succ fuel ih =>
      by_cases hBelow :
          (wordVa start n).toNat < (start + length).toNat
      · cases hRead : read (wordVa start n) with
        | error text =>
            rw [findDataCutoffLoop, if_pos hBelow, hRead]
              at hLoop
            cases hLoop
        | ok word =>
            by_cases hPair : ZeroPair start read n
            · have hWord : word = 0#32 :=
                Except.ok.inj (hRead.symm.trans hPair.1)
              have hBefore := hLast.before.mp hPair.2
              rw [findDataCutoffLoop_read hBelow hRead,
                if_pos hWord, if_pos hBefore] at hLoop
              cases hLoop
              exact .pair hPast hBelow hPair
            · rcases findDataCutoffLoop_step hLast hBelow
                  hRead hPair with
                ⟨next, hNext, hStep⟩
              rw [hStep] at hLoop
              exact
                ih (hPast.succ hBelow hRead hPair) hNext hLoop
      · rw [findDataCutoffLoop, if_neg hBelow] at hLoop
        cases hLoop
        exact .whole hPast (by omega)

/- With enough rounds the end of the code is found. -/
theorem codeEnd_of_cutAt
    {read : Option Read}
    {finish : Ps3Uintptr}
    (hCut : CutAt start length read finish) :
    ∃ n, ∀ fuel,
      codeEnd (fuel + 1 + n) start length read =
        .ok finish := by
  cases hCut with
  | unread => exact ⟨0, fun _ => rfl⟩
  | @pair read n hPast hBelow hPair =>
      rcases findDataCutoffLoop_past hPast with
        ⟨lastZero, hLast, hLoop⟩
      refine ⟨n, ?_⟩
      intro fuel
      rw [codeEnd, hLoop,
        findDataCutoffLoop_read hBelow hPair.1, if_pos rfl,
        if_pos (hLast.before.mp hPair.2)]
  | @whole read n hPast hEnd =>
      rcases findDataCutoffLoop_past hPast with
        ⟨lastZero, hLast, hLoop⟩
      refine ⟨n, ?_⟩
      intro fuel
      rw [codeEnd, hLoop, findDataCutoffLoop,
        if_neg (by omega)]
      rfl

theorem codeEnd_iff
    {read : Option Read}
    {finish : Ps3Uintptr} :
    (∃ fuel, codeEnd fuel start length read = .ok finish) ↔
      CutAt start length read finish := by
  constructor
  · rintro ⟨fuel, hEnd⟩
    cases read with
    | none =>
        cases hEnd
        exact .unread
    | some read =>
        apply @cutAt_of_findDataCutoffLoop _ _ _ fuel 0
          0xffffffff#32 finish
        · intro i hi
          omega
        · exact .first start read
        · rw [wordVa_zero]
          exact hEnd
  · intro hCut
    rcases codeEnd_of_cutAt hCut with ⟨n, hEnd⟩
    exact ⟨_, hEnd 0⟩

end Search

------------------------------------------------------------
-- Accesses
------------------------------------------------------------

def Halt.IsOutside : Halt → Prop
  | .outside _ => True
  | _ => False

/- It does not stop at an access outside the map. -/
abbrev Inside {α : Type} (x : Except Halt α) : Prop :=
  Fallible.Avoids Halt.IsOutside x

open Fallible (Avoids Fails)

theorem inside_call
    {α : Type}
    (x : Except String α) :
    Inside (call x) := by
  cases x with
  | error text => exact .error id
  | ok a => exact .ok a

/- The map of a segment, with the marks made so far. -/
structure MapOf
    (start len : BitVec 32)
    (m : CodeMap) : Prop where
  start : m.start = start
  length : m.map.length = len.toNat / 4

namespace MapOf

variable {start len : BitVec 32} {m : CodeMap}

theorem ofSegment (start len : BitVec 32) :
    MapOf start len (CodeMap.ofSegment start len) where
  start := rfl
  length := by simp [CodeMap.ofSegment]

theorem covers_iff
    (hMap : MapOf start len m)
    (hDvd : 4 ∣ len.toNat)
    (va : Ps3Uintptr) :
    m.covers va = true ↔
      (va - start).toNat < len.toNat := by
  simp only [CodeMap.covers, CodeMap.index, hMap.start,
    hMap.length, decide_eq_true_eq]
  omega

theorem markAt_eq
    (hCovers : m.covers va = true) :
    m.markAt va =
      .ok { m with map := m.map.set (m.index va) true } := by
  rw [CodeMap.markAt, if_pos hCovers]

variable (hMap : MapOf start len m)

include hMap

theorem markAt
    {m' : CodeMap}
    {va : Ps3Uintptr}
    (hMark : m.markAt va = .ok m') :
    MapOf start len m' := by
  unfold CodeMap.markAt at hMark
  split at hMark
  case isTrue =>
    cases hMark
    exact ⟨hMap.start, by simp [hMap.length]⟩
  case isFalse => cases hMark

/- A guarded mark is made inside or not at all. -/
theorem markCovered
    (va : Ps3Uintptr) :
    ∃ m', m.markCovered va = .ok m' ∧ MapOf start len m' := by
  unfold CodeMap.markCovered
  split
  case isTrue hCovers =>
    have hMark := markAt_eq hCovers
    exact ⟨_, hMark, hMap.markAt hMark⟩
  case isFalse => exact ⟨m, rfl, hMap⟩

theorem discoverBreaksStep
    (analyze : AnalyzeSpu)
    (cia : Ps3Uintptr) :
    ∃ m', Cutoff.discoverBreaksStep analyze m cia = .ok m' ∧
      MapOf start len m' := by
  have hTarget :
      ∃ middle,
        Cutoff.markTarget m (analyze cia).target =
            .ok middle ∧
          MapOf start len middle := by
    cases (analyze cia).target with
    | some target => exact hMap.markCovered target
    | none => exact ⟨m, rfl, hMap⟩
  rcases hTarget with ⟨middle, hFirst, hMiddle⟩
  unfold Cutoff.discoverBreaksStep
  simp only [hFirst]
  by_cases hFlow : (analyze cia).flow = true
  · rcases hMiddle.markCovered (cia + 4#32) with
      ⟨m', hSecond, hMarked⟩
    refine ⟨m', ?_, hMarked⟩
    change (if _ then _ else _) = _
    rw [if_pos hFlow, hSecond]
  · refine ⟨middle, ?_, hMiddle⟩
    change (if _ then _ else _) = _
    rw [if_neg hFlow]
    rfl

/- The sweep over the words from one address on. -/
theorem discoverBreaksLoop
    (analyze : AnalyzeSpu)
    (finish : Ps3Uintptr)
    (fuel : Nat)
    (cia : Ps3Uintptr) :
    Cutoff.discoverBreaksLoop analyze finish fuel cia m =
        .error .unfinished ∨
      ∃ m',
        Cutoff.discoverBreaksLoop analyze finish fuel cia m =
            .ok m' ∧
          MapOf start len m' ∧ 4 ∣ (finish - cia).toNat := by
  induction fuel generalizing cia m with
  | zero => exact .inl rfl
  | succ fuel ih =>
      rw [Cutoff.discoverBreaksLoop]
      by_cases hEnd : cia = finish
      · rw [if_pos hEnd, hEnd]
        exact .inr ⟨m, rfl, hMap, by simp⟩
      · rcases hMap.discoverBreaksStep analyze cia with
          ⟨middle, hStep, hMiddle⟩
        rw [if_neg hEnd, hStep]
        rcases ih hMiddle (cia + 4#32) with
          hMore | ⟨m', hLoop, hMarked, hDvd⟩
        · exact .inl hMore
        · exact .inr ⟨m', hLoop, hMarked, by bv_omega⟩

/- It ends if the end is a number of words away. -/
theorem discoverBreaksLoop_isOk
    (analyze : AnalyzeSpu)
    {finish cia : Ps3Uintptr}
    {fuel : Nat}
    (hDvd : 4 ∣ (finish - cia).toNat)
    (hFuel : (finish - cia).toNat / 4 < fuel) :
    ∃ m',
      Cutoff.discoverBreaksLoop analyze finish fuel cia m =
          .ok m' ∧
        MapOf start len m' := by
  induction fuel generalizing cia m with
  | zero => omega
  | succ fuel ih =>
      rw [Cutoff.discoverBreaksLoop]
      by_cases hEnd : cia = finish
      · rw [if_pos hEnd]
        exact ⟨m, rfl, hMap⟩
      · rcases hMap.discoverBreaksStep analyze cia with
          ⟨middle, hStep, hMiddle⟩
        rw [if_neg hEnd, hStep]
        have hApart : finish - cia ≠ 0#32 := by
          intro hZero
          exact hEnd (by bv_omega)
        have hNext :
            (finish - (cia + 4#32)).toNat + 4 =
              (finish - cia).toNat := by
          bv_omega
        exact ih hMiddle (by omega) (by omega)

variable {leads : List Ps3Uintptr}

/- The marks of leads that the map covers. -/
theorem inside_leads
    (hDvd : 4 ∣ len.toNat)
    (hLeads :
      ∀ lead ∈ leads, (lead - start).toNat < len.toNat) :
    Inside (leads.foldlM CodeMap.markAt m) := by
  apply Avoids.foldlM (MapOf start len)
  · intro m hMap lead hMem
    have hCovers :=
      (hMap.covers_iff hDvd lead).mpr (hLeads lead hMem)
    constructor
    · rw [markAt_eq hCovers]
      exact .ok _
    · intro m' hMark
      exact hMap.markAt hMark
  · exact hMap

theorem leads_of_foldlM
    {m' : CodeMap}
    (hLeads : leads.foldlM CodeMap.markAt m = .ok m') :
    MapOf start len m' := by
  apply (Fallible.run_of_foldlM hLeads).invariant
    (MapOf start len)
  · intro m lead m' hMap hMark
    exact hMap.markAt hMark
  · exact hMap

/- One lead that it does not cover stops the discovery. -/
theorem outside_leads
    (hDvd : 4 ∣ len.toNat)
    {lead : Ps3Uintptr}
    (hMem : lead ∈ leads)
    (hLead : len.toNat ≤ (lead - start).toNat) :
    Fails Halt.IsOutside (leads.foldlM CodeMap.markAt m) := by
  have hMark (m : CodeMap) (va : Ps3Uintptr)
      (hCovers : ¬ m.covers va = true) :
      Fails Halt.IsOutside (m.markAt va) :=
    ⟨_, if_neg hCovers, trivial⟩
  apply Fails.foldlM (MapOf start len) _ hMem
  · intro m hMap
    apply hMark
    rw [hMap.covers_iff hDvd]
    omega
  · exact hMap
  · intro m hMap va _
    by_cases hCovers : m.covers va = true
    · have hOk := markAt_eq hCovers
      exact .inr ⟨_, hOk, hMap.markAt hOk⟩
    · exact .inl (hMark m va hCovers)

/- The words that are put into blocks are in the map. -/
theorem inside_makeBasicBlocks
    (hDvd : 4 ∣ len.toNat) :
    Inside (Cutoff.makeBasicBlocks start len m) := by
  unfold Cutoff.makeBasicBlocks
  apply Avoids.bind
  · apply Avoids.foldlM (fun _ => True)
    · intro s _ cia hMem
      have hCia : (cia - start).toNat < len.toNat := by
        unfold whileLt at hMem
        split at hMem
        case isFalse => cases hMem
        case isTrue =>
          rcases (mem_rounds _ _ _).mp hMem with
            ⟨i, hi, rfl⟩
          bv_omega
      have hCovers := (hMap.covers_iff hDvd cia).mpr hCia
      refine ⟨?_, fun _ _ => trivial⟩
      unfold Cutoff.makeBasicBlocksStep
      rw [CodeMap.getAt, if_pos hCovers]
      exact .ok _
    · trivial
  · intro s _
    exact .ok _

end MapOf

------------------------------------------------------------
-- Searches
------------------------------------------------------------

section Searches

variable {fuel : Nat} {analyze : AnalyzeSpu} {name : Name} {read : Read}

theorem inside_codeEnd
    (fuel : Nat)
    (start length : BitVec 32)
    (read : Option Read) :
    Inside (codeEnd fuel start length read) := by
  cases read with
  | none => exact .ok _
  | some read =>
      change Inside (findDataCutoff fuel start length read)
      unfold findDataCutoff
      generalize (0xffffffff#32 : Ps3Uintptr) = lastZero
      generalize start + length = finish
      induction fuel generalizing start lastZero with
      | zero => exact .error id
      | succ fuel ih =>
          unfold findDataCutoffLoop
          split
          case isFalse => exact .ok _
          case isTrue =>
            apply (inside_call _).bind
            intro word _
            split
            case isFalse => exact ih _ _
            case isTrue =>
              split
              case isTrue => exact .ok _
              case isFalse => exact ih _ _

theorem inside_discoverIndirectLocations
    (start len : BitVec 32) :
    Inside
      (discoverIndirectLocations start len analyze name) := by
  unfold discoverIndirectLocations
  apply Avoids.bind
  · apply Avoids.foldlM (fun _ => True)
    · intro s _ ip _
      refine ⟨?_, fun _ _ => trivial⟩
      unfold discoverIndirectLocationsStep
      simp only
      split
      case isTrue => exact .ok _
      case isFalse =>
        apply (inside_call _).bind
        intro n _
        exact .ok _
    · trivial
  · intro s _
    exact .ok _

theorem inside_scanTable
    (fuel : Nat)
    (start length table tlen : BitVec 32) :
    Inside (scanTable start length read table fuel tlen) := by
  induction fuel generalizing tlen with
  | zero => exact .error id
  | succ fuel ih =>
      unfold scanTable
      split
      case isFalse => exact .ok _
      case isTrue =>
        apply (inside_call _).bind
        intro offset _
        split
        case isTrue => exact .ok _
        case isFalse =>
          split
          case isTrue => exact ih _
          case isFalse => exact .ok _

theorem inside_discoverJumpTable
    (start len segmentStart segmentLen : BitVec 32) :
    Inside
      (discoverJumpTable fuel start len segmentStart
        segmentLen analyze name read) := by
  unfold discoverJumpTable
  generalize whileLt start (start + len) = ips
  generalize ((0#32, 0#32) : BitVec 32 × BitVec 32) = s
  induction ips generalizing s with
  | nil => exact .ok _
  | cons ip rest ih =>
      unfold discoverJumpTableLoop
      apply (inside_call _).bind
      intro n _
      split
      case isFalse => exact ih s
      case isTrue =>
        apply (inside_scanTable _ _ _ _ _).bind
        intro tlen _
        split
        case isTrue => exact .ok _
        case isFalse => exact ih _

theorem inside_collectTargets
    (start length : BitVec 32)
    (s : Targets)
    (b : BasicBlock) :
    Inside
      (collectTargets fuel start length analyze name read s
        b) := by
  unfold collectTargets
  apply (inside_discoverIndirectLocations _ _).bind
  intro breaks1 _
  apply (inside_discoverJumpTable _ _ _ _).bind
  rintro ⟨table, len⟩ _
  simp only
  split
  case isFalse => exact .ok _
  case isTrue =>
    apply Avoids.bind
    · exact Avoids.mapM (fun _ _ => inside_call _)
    · intro entries _
      exact .ok _

theorem inside_forBelow
    {S : Type}
    {finish : Ps3Uintptr}
    {body : S → Ps3Uintptr → Except Halt S}
    (hBody : ∀ s ip, Inside (body s ip))
    (fuel : Nat)
    (ip : Ps3Uintptr)
    (s : S) :
    Inside (forBelow finish body fuel ip s) := by
  induction fuel generalizing ip s with
  | zero => exact .error id
  | succ fuel ih =>
      unfold forBelow
      split
      case isFalse => exact .ok _
      case isTrue =>
        apply (hBody s ip).bind
        intro t _
        exact ih _ t

theorem inside_removeLoadStoreTargets
    (graph : Graph) :
    Inside
      (removeLoadStoreTargets fuel graph analyze name) := by
  unfold removeLoadStoreTargets
  apply Avoids.bind
  · apply Avoids.foldlM (fun _ => True)
    · intro targets _ b _
      refine ⟨?_, fun _ _ => trivial⟩
      apply inside_forBelow
      intro targets ip
      unfold loadStoreTarget
      apply (inside_call _).bind
      intro n _
      split
      case isTrue => exact .ok _
      case isFalse => exact .ok _
    · trivial
  · intro targets _
    exact .ok _

theorem inside_removeLonelyStops
    (graph : Graph) :
    Inside (removeLonelyStops graph name) := by
  unfold removeLonelyStops
  apply Avoids.bind
  · apply Avoids.mapM
    intro v _
    unfold markLonelyStop
    split
    case isTrue => exact .ok _
    case isFalse =>
      apply (inside_call _).bind
      intro n _
      split
      case isTrue => exact .ok _
      case isFalse => exact .ok _
  · intro vertices _
    exact .ok _

/- What is done for confidence makes no access to the map. -/
theorem inside_resolveJumps
    (start length : BitVec 32)
    (breaks : CodeMap)
    (graph : Graph)
    (name : Option Name)
    (read : Option Read)
    (confidence : Bool) :
    Inside
      (resolveJumps fuel start length breaks graph analyze
        name read confidence) := by
  unfold resolveJumps
  split
  case isFalse => exact .ok _
  case isTrue =>
    have hDeref {α : Type} (o : Option α) :
        Inside (deref o) := by
      cases o with
      | none => exact .error id
      | some a => exact .ok a
    apply (hDeref name).bind
    intro name _
    apply (hDeref read).bind
    intro read _
    unfold discoverConfidently
    apply Avoids.bind
    · apply Avoids.foldlM (fun _ => True)
      · intro s _ b _
        exact
          ⟨inside_collectTargets _ _ s b, fun _ _ => trivial⟩
      · trivial
    · intro found _
      apply (inside_removeLoadStoreTargets _).bind
      intro graph _
      exact inside_removeLonelyStops graph

end Searches

------------------------------------------------------------
-- Runs
------------------------------------------------------------

section Runs

variable {start length : BitVec 32} {leads : List Ps3Uintptr}
variable {read : Option Read}

theorem staysInside_of_leadsKept
    (hKept : LeadsKept start length leads read)
    (analyze : AnalyzeSpu)
    (validate : Validate)
    (name : Option Name)
    (confidence : Bool) :
    StaysInside start length leads analyze validate name read
      confidence := by
  have hInside (fuel : Nat) :
      Inside
        (Cutoff.discoverBasicBlocks fuel start length leads
          analyze validate name read confidence) := by
    unfold Cutoff.discoverBasicBlocks
    split
    case isFalse => exact .error id
    case isTrue =>
      apply (inside_codeEnd fuel start length read).bind
      intro finish hEnd
      have hCut := codeEnd_iff.mp ⟨fuel, hEnd⟩
      have hMap := MapOf.ofSegment start (finish - start)
      have hFinish : start + (finish - start) = finish := by
        bv_omega
      change Inside
        (Cutoff.discoverBreaks fuel start (finish - start)
          analyze >>= _)
      rw [Cutoff.discoverBreaks, hFinish]
      rcases hMap.discoverBreaksLoop analyze finish fuel
          start with
        hMore | ⟨breaks, hBreaks, hMap, hDvd⟩
      · rw [hMore]
        exact .error id
      · rw [hBreaks]
        have hLeads := hKept finish hCut hDvd
        apply (hMap.inside_leads hDvd hLeads).bind
        intro breaks hMarks
        have hMap := hMap.leads_of_foldlM hMarks
        apply (hMap.inside_makeBasicBlocks hDvd).bind
        intro blocks _
        apply (inside_resolveJumps _ _ _ _ _ _ _).bind
        intro graph _
        exact .ok _
  intro fuel va hOutside
  exact hInside fuel _ hOutside trivial

/- A lead that the cut leaves out is marked outside the map. -/
theorem outside_of_not_leadsKept
    (hAccepted :
      ∀ lead ∈ leads, subset lead 4#32 start length = true)
    {finish lead : Ps3Uintptr}
    (hCut : CutAt start length read finish)
    (hDvd : 4 ∣ (finish - start).toNat)
    (hMem : lead ∈ leads)
    (hLead :
      (finish - start).toNat ≤ (lead - start).toNat)
    (analyze : AnalyzeSpu)
    (validate : Validate)
    (name : Option Name)
    (confidence : Bool) :
    ∃ fuel va,
      Cutoff.discoverBasicBlocks fuel start length leads
          analyze validate name read confidence =
        .error (.outside va) := by
  rcases codeEnd_of_cutAt hCut with ⟨n, hEnd⟩
  have hEnough := hEnd ((finish - start).toNat / 4)
  have hMap := MapOf.ofSegment start (finish - start)
  rcases
      (hMap.discoverBreaksLoop_isOk analyze hDvd
        (show (finish - start).toNat / 4 <
            (finish - start).toNat / 4 + 1 + n by omega)) with
    ⟨breaks, hBreaks, hMap⟩
  have hFails := hMap.outside_leads hDvd hMem hLead
  have hMarks :
      ∃ va,
        leads.foldlM CodeMap.markAt breaks =
          .error (.outside va) := by
    rcases hFails with ⟨halt, hError, hOutside⟩
    cases halt with
    | outside va => exact ⟨va, hError⟩
    | unfinished => cases hOutside
    | threw text => cases hOutside
  rcases hMarks with ⟨va, hOutside⟩
  refine ⟨(finish - start).toNat / 4 + 1 + n, va, ?_⟩
  have hFinish : start + (finish - start) = finish := by
    bv_omega
  unfold Cutoff.discoverBasicBlocks
  rw [if_pos (List.all_eq_true.mpr hAccepted), hEnough]
  change (Cutoff.discoverBreaks _ _ _ _ >>= _) = _
  rw [Cutoff.discoverBreaks, hFinish, hBreaks]
  change (leads.foldlM CodeMap.markAt breaks >>= _) = _
  rw [hOutside]
  rfl

theorem staysInside_iff
    (hAccepted :
      ∀ lead ∈ leads, subset lead 4#32 start length = true)
    (analyze : AnalyzeSpu)
    (validate : Validate)
    (name : Option Name)
    (confidence : Bool) :
    StaysInside start length leads analyze validate name read
        confidence ↔
      LeadsKept start length leads read := by
  constructor
  · intro hInside finish hCut hDvd lead hMem
    by_contra hNot
    rcases outside_of_not_leadsKept hAccepted hCut hDvd hMem
        (by omega) analyze validate name confidence with
      ⟨fuel, va, hOutside⟩
    exact hInside fuel va hOutside
  · intro hKept
    exact
      staysInside_of_leadsKept hKept analyze validate name
        confidence

/- Code, two zero words, and an instruction after them. -/
def zeroWords : List (BitVec 32) :=
  [0x40200000, 0, 0, 0x35000000]

def readZeroWords : Read :=
  readSegment (listing zeroWords) 0x3160#32 16#32

theorem staysInside_iff_zeroWords :
    StaysInside 0x3160#32 16#32 [0x3160#32]
        (analyzeWords (listing zeroWords)) (fun _ => true)
        none (some readZeroWords) false ↔
      LeadsKept 0x3160#32 16#32 [0x3160#32]
        (some readZeroWords) :=
  staysInside_iff (by simp [subset]) _ _ _ _

/- The lead after the zero words is marked outside the map. -/
theorem zeroWords_not_staysInside :
    ¬ ∀ (start length : BitVec 32) (leads : List Ps3Uintptr)
        (analyze : AnalyzeSpu) (validate : Validate)
        (name : Option Name) (read : Option Read)
        (confidence : Bool),
        (∀ lead ∈ leads,
          subset lead 4#32 start length = true) →
          StaysInside start length leads analyze validate name
            read confidence := by
  intro hAll
  have hInside :=
    hAll 0x3160#32 16#32 [0x3160#32, 0x316c#32]
      (analyzeWords (listing zeroWords)) (fun _ => true) none
      (some readZeroWords) false (by simp [subset])
  exact hInside 5 0x316c#32 rfl

end Runs

------------------------------------------------------------
-- Assertions
------------------------------------------------------------

/-
  Where no assertion fails, the discovery without a reader
  finds what it does with them compiled in.
-/
section Checked

variable {m m' : CodeMap}

theorem markAt_of_mark
    {va : Ps3Uintptr}
    (hMark : m.mark va = .ok m') :
    m.markAt va = .ok m' := by
  rcases CodeMap.mark_eq_ok.mp hMark with ⟨-, hLt, rfl⟩
  rw [CodeMap.markAt,
    if_pos (show m.covers va = true from decide_eq_true hLt)]

theorem getAt_of_get
    {va : Ps3Uintptr}
    {marked : Bool}
    (hGet : m.get va = .ok marked) :
    m.getAt va = .ok marked := by
  have hMap := (CodeMap.get_eq_ok.mp hGet).2
  have hLt := (List.getElem?_eq_some_iff.mp hMap).1
  rw [CodeMap.getAt,
    if_pos (show m.covers va = true from decide_eq_true hLt),
    List.getD_eq_getElem?_getD, hMap]
  rfl

theorem markCovered_of_markInrange
    {va : Ps3Uintptr}
    (hMark : m.markInrange va = .ok m') :
    m.markCovered va = .ok m' := by
  rcases Fallible.bind_eq_ok.mp hMark with
    ⟨inside, hInside, hRest⟩
  have hCovers :=
    (CodeMap.inrange_eq_ok.mp hInside).2
  unfold CodeMap.markCovered CodeMap.covers
  rw [hCovers]
  split at hRest
  case isTrue hTrue =>
    rw [if_pos hTrue]
    exact markAt_of_mark hRest
  case isFalse hFalse =>
    rw [if_neg hFalse]
    cases hRest
    rfl

variable {analyze : AnalyzeSpu}

theorem discoverBreaksStep_of_checked
    {cia : Ps3Uintptr}
    (hStep :
      discoverBreaksStep
        (fun cia => (analyze cia).toInstructionInfo) m cia =
        .ok m') :
    Cutoff.discoverBreaksStep analyze m cia = .ok m' := by
  rcases Fallible.bind_eq_ok.mp hStep with
    ⟨middle, hTarget, hFlow⟩
  refine Fallible.bind_eq_ok.mpr ⟨middle, ?_, ?_⟩
  · cases hInfo : (analyze cia).target with
    | some target =>
        simp only [hInfo] at hTarget
        exact markCovered_of_markInrange hTarget
    | none =>
        simp only [hInfo] at hTarget
        cases hTarget
        rfl
  · by_cases hInfo : (analyze cia).flow = true
    · simp only [hInfo] at hFlow ⊢
      exact markCovered_of_markInrange hFlow
    · simp only [hInfo] at hFlow ⊢
      cases hFlow
      rfl

theorem discoverBreaksLoop_of_checked
    {cia finish : Ps3Uintptr}
    (hDvd : 4 ∣ (finish - cia).toNat)
    (hLoop :
      (untilEq cia finish).foldlM
        (discoverBreaksStep
          (fun cia => (analyze cia).toInstructionInfo)) m =
        .ok m')
    {fuel : Nat}
    (hFuel : (finish - cia).toNat / 4 < fuel) :
    Cutoff.discoverBreaksLoop analyze finish fuel cia m =
      .ok m' := by
  induction fuel generalizing cia m with
  | zero => omega
  | succ fuel ih =>
      rw [Cutoff.discoverBreaksLoop]
      by_cases hEnd : cia = finish
      · rw [hEnd, untilEq_self] at hLoop
        cases hLoop
        rw [if_pos hEnd]
        rfl
      · rw [untilEq_step hEnd hDvd, List.foldlM_cons] at hLoop
        rcases Fallible.bind_eq_ok.mp hLoop with
          ⟨middle, hStep, hRest⟩
        have hApart : finish - cia ≠ 0#32 := by
          intro hZero
          exact hEnd (by bv_omega)
        have hNext :
            (finish - (cia + 4#32)).toNat + 4 =
              (finish - cia).toNat := by
          bv_omega
        rw [if_neg hEnd, discoverBreaksStep_of_checked hStep]
        exact ih (by omega) hRest (by omega)

theorem makeBasicBlocks_of_checked
    {start len : BitVec 32}
    {blocks : List BasicBlock}
    (hBlocks : makeBasicBlocks start len m = .ok blocks) :
    Cutoff.makeBasicBlocks start len m = .ok blocks := by
  rcases Fallible.bind_eq_ok.mp hBlocks with
    ⟨s, hLoop, hClose⟩
  cases hClose
  refine Fallible.bind_eq_ok.mpr ⟨s, ?_, rfl⟩
  apply Fallible.foldlM_transfer _ hLoop
  intro s cia t hStep
  rcases Fallible.bind_eq_ok.mp hStep with
    ⟨isBreak, hGet, hNext⟩
  cases hNext
  exact
    Fallible.bind_eq_ok.mpr
      ⟨isBreak, getAt_of_get hGet, rfl⟩

theorem discoverBasicBlocks_of_checked
    {start length : BitVec 32}
    {leads : List Ps3Uintptr}
    {validate : Validate}
    {blocks : List BasicBlock}
    (hDvd : 4 ∣ length.toNat)
    (hChecked :
      discoverBasicBlocks start length leads
        (fun cia => (analyze cia).toInstructionInfo)
        validate = .ok blocks) :
    ∃ fuel,
      Cutoff.discoverBasicBlocks fuel start length leads
          analyze validate none none false =
        .ok blocks := by
  rcases Fallible.bind_eq_ok.mp hChecked with
    ⟨found, hFound, hSorted⟩
  rcases Fallible.bind_eq_ok.mp hFound with
    ⟨_, hLeads, hRest⟩
  rcases Fallible.bind_eq_ok.mp hRest with
    ⟨breaks, hBreaks, hRest⟩
  rcases Fallible.bind_eq_ok.mp hRest with
    ⟨marked, hMarks, hMake⟩
  cases hSorted
  have hAccepted :
      ∀ lead ∈ leads, subset lead 4#32 start length = true := by
    intro lead hMem
    have hLead := Fallible.forM_eq_ok.mp hLeads lead hMem
    unfold checkLead at hLead
    split at hLead
    case isTrue hSubset => exact hSubset
    case isFalse => cases hLead
  have hLength : start + length - start = length := by
    bv_omega
  have hSweep :
      Cutoff.discoverBreaks (length.toNat / 4 + 1) start
          length analyze =
        .ok breaks := by
    apply discoverBreaksLoop_of_checked _ hBreaks
    · rw [hLength]
      exact Nat.lt_succ_self _
    · rw [hLength]
      exact hDvd
  have hMarked :=
    Fallible.foldlM_transfer
      (fun m va m' => @markAt_of_mark m m' va) hMarks
  refine ⟨length.toNat / 4 + 1, ?_⟩
  unfold Cutoff.discoverBasicBlocks
  rw [if_pos (List.all_eq_true.mpr hAccepted)]
  refine Fallible.bind_eq_ok.mpr ⟨_, rfl, ?_⟩
  simp only [hLength]
  refine Fallible.bind_eq_ok.mpr ⟨breaks, hSweep, ?_⟩
  refine Fallible.bind_eq_ok.mpr ⟨marked, hMarked, ?_⟩
  refine
    Fallible.bind_eq_ok.mpr
      ⟨found, makeBasicBlocks_of_checked hMake, ?_⟩
  rfl

end Checked

end Rewriter

end Ps3emu
