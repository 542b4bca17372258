import Ps3emu.Library.Fallible
import Ps3emu.Memory.Address

/-
  The map of the breaks of a segment, and the sweep that
  marks the targets of branches and the addresses after them.

  Key definitions include:
    * `InstructionInfo`
    * `untilEq`, `whileLt`
    * `CodeMap`
    * `discoverBreaks`

  Key theorems include:
    * `discoverBreaks_spec`
    * `discoverBreaks_isOk`
-/

------------------------------------------------------------
-- Instructions and Loops
------------------------------------------------------------

namespace Ps3emu

namespace Rewriter

/-
  What the analysis of an instruction tells about control
  flow.
-/
structure InstructionInfo where
  flow : Bool
  passthrough : Bool
  target : Option Ps3Uintptr
deriving DecidableEq

abbrev Analyze := Ps3Uintptr → InstructionInfo

abbrev Validate := Ps3Uintptr → Bool

/- A failed assertion, or an exception with its text. -/
inductive Failure where
  | assertion
  | error (text : String)
deriving DecidableEq

/- The values of `cia` in the first rounds of a loop. -/
def rounds : Nat → Ps3Uintptr → List Ps3Uintptr
  | 0, _ => []
  | n + 1, cia => cia :: rounds n (cia + 4#32)

/-
  `for (cia = start; cia != finish; cia += 4)`.  The distance
  is a multiple of four, or the loop does not end.
-/
def untilEq (start finish : Ps3Uintptr) : List Ps3Uintptr :=
  rounds ((finish - start).toNat / 4) start

/- `for (cia = start; cia < finish; cia += 4)`. -/
def whileLt (start finish : Ps3Uintptr) : List Ps3Uintptr :=
  if start.toNat < finish.toNat then
    rounds ((finish - start).toNat / 4) start
  else []

theorem mem_rounds
    (n : Nat)
    (start a : Ps3Uintptr) :
    a ∈ rounds n start ↔
      ∃ i < n, a = start + BitVec.ofNat 32 (4 * i) := by
  induction n generalizing start with
  | zero => simp [rounds]
  | succ n ih =>
      rw [rounds, List.mem_cons, ih]
      constructor
      · rintro (rfl | ⟨i, hi, rfl⟩)
        · exact ⟨0, by omega, by simp⟩
        · refine ⟨i + 1, by omega, ?_⟩
          rw [BitVec.add_assoc, Nat.mul_add, Nat.add_comm,
            BitVec.ofNat_add]
      · rintro ⟨i, hi, rfl⟩
        cases i with
        | zero => exact .inl (by simp)
        | succ i =>
            refine .inr ⟨i, by omega, ?_⟩
            rw [BitVec.add_assoc, Nat.mul_add, Nat.add_comm,
              BitVec.ofNat_add]

/- The tests of the two loops. -/
theorem untilEq_self (finish : Ps3Uintptr) :
    untilEq finish finish = [] := by
  simp [untilEq, rounds]

theorem untilEq_step
    {cia finish : Ps3Uintptr}
    (hNe : cia ≠ finish)
    (hDvd : 4 ∣ (finish - cia).toNat) :
    untilEq cia finish =
      cia :: untilEq (cia + 4#32) finish := by
  have hNonzero : (finish - cia).toNat ≠ 0 := by
    intro hZero
    apply hNe
    bv_omega
  have hNext :
      (finish - (cia + 4#32)).toNat =
        (finish - cia).toNat - 4 := by
    have hFour : 4 ≤ (finish - cia).toNat := by omega
    bv_omega
  have hCount :
      (finish - cia).toNat / 4 =
        (finish - (cia + 4#32)).toNat / 4 + 1 := by
    omega
  rw [untilEq, hCount, rounds, untilEq]

theorem whileLt_of_le
    {cia finish : Ps3Uintptr}
    (hLe : finish.toNat ≤ cia.toNat) :
    whileLt cia finish = [] := by
  unfold whileLt
  rw [if_neg (by omega)]

------------------------------------------------------------
-- Code Map
------------------------------------------------------------

structure CodeMap where
  map : List Bool
  start : Ps3Uintptr

namespace CodeMap

/- The constructor. -/
def ofSegment (start len : BitVec 32) : CodeMap where
  map := List.replicate (len.toNat / 4) false
  start := start

def index (m : CodeMap) (va : Ps3Uintptr) : Nat :=
  (va - m.start).toNat / 4

def inrange
    (m : CodeMap)
    (va : Ps3Uintptr) : Except Failure Bool :=
  if va.toNat % 4 = 0 then
    .ok (decide (m.index va < m.map.length))
  else .error .assertion

def get
    (m : CodeMap)
    (va : Ps3Uintptr) : Except Failure Bool := do
  if ← m.inrange va then
    return m.map.getD (m.index va) false
  else throw .assertion

def mark
    (m : CodeMap)
    (va : Ps3Uintptr) : Except Failure CodeMap := do
  if ← m.inrange va then
    return { m with map := m.map.set (m.index va) true }
  else throw .assertion

/- `if (map.inrange(va)) map.mark(va);` -/
def markInrange
    (m : CodeMap)
    (va : Ps3Uintptr) : Except Failure CodeMap := do
  if ← m.inrange va then m.mark va
  else return m

/- The address is in the map and marked. -/
def Marked (m : CodeMap) (va : Ps3Uintptr) : Prop :=
  m.map[m.index va]? = some true

/- The same addresses, and no mark is taken back. -/
structure Grows (m m' : CodeMap) : Prop where
  start : m'.start = m.start
  length : m'.map.length = m.map.length
  marked : ∀ va, m.Marked va → m'.Marked va

theorem Grows.refl (m : CodeMap) : Grows m m :=
  ⟨rfl, rfl, fun _ hMarked => hMarked⟩

theorem Grows.trans
    {m m' m'' : CodeMap}
    (hFirst : Grows m m')
    (hSecond : Grows m' m'') :
    Grows m m'' where
  start := hSecond.start.trans hFirst.start
  length := hSecond.length.trans hFirst.length
  marked := by
    intro va hMarked
    exact hSecond.marked va (hFirst.marked va hMarked)

variable {m m' : CodeMap}

theorem index_of_grows
    (hGrows : Grows m m')
    (va : Ps3Uintptr) :
    m'.index va = m.index va := by
  unfold index
  rw [hGrows.start]

variable {va : Ps3Uintptr}

theorem inrange_eq_ok
    {r : Bool} :
    m.inrange va = .ok r ↔
      va.toNat % 4 = 0 ∧
        decide (m.index va < m.map.length) = r := by
  unfold inrange
  split
  case isTrue hAligned => simp [hAligned]
  case isFalse hAligned => simp [hAligned]

theorem get_eq_ok
    {r : Bool} :
    m.get va = .ok r ↔
      va.toNat % 4 = 0 ∧ m.map[m.index va]? = some r := by
  unfold get
  rw [Fallible.bind_eq_ok]
  simp only [inrange_eq_ok]
  constructor
  · rintro ⟨inside, ⟨hAligned, rfl⟩, hGet⟩
    split at hGet
    case isFalse => cases hGet
    case isTrue hInside =>
      cases hGet
      have hLt := of_decide_eq_true hInside
      refine ⟨hAligned, ?_⟩
      simp [List.getElem?_eq_getElem hLt]
  · rintro ⟨hAligned, hGet⟩
    have hLt := (List.getElem?_eq_some_iff.mp hGet).1
    refine ⟨true, ⟨hAligned, decide_eq_true hLt⟩, ?_⟩
    simp only [if_true, List.getD, hGet]
    rfl

theorem mark_eq_ok
    {va : Ps3Uintptr} :
    m.mark va = .ok m' ↔
      va.toNat % 4 = 0 ∧ m.index va < m.map.length ∧
        m' = { m with map := m.map.set (m.index va) true } := by
  unfold mark
  rw [Fallible.bind_eq_ok]
  simp only [inrange_eq_ok]
  constructor
  · rintro ⟨inside, ⟨hAligned, rfl⟩, hMark⟩
    split at hMark
    case isFalse => cases hMark
    case isTrue hInside =>
      cases hMark
      exact ⟨hAligned, of_decide_eq_true hInside, rfl⟩
  · rintro ⟨hAligned, hLt, rfl⟩
    refine ⟨true, ⟨hAligned, decide_eq_true hLt⟩, ?_⟩
    rfl

theorem grows_of_mark
    (hMark : m.mark va = .ok m') :
    Grows m m' ∧ m'.Marked va := by
  rcases mark_eq_ok.mp hMark with ⟨-, hLt, rfl⟩
  refine ⟨⟨rfl, by simp, ?_⟩, ?_⟩
  · intro a hMarked
    change (m.map.set (m.index va) true)[m.index a]? = _
    rw [List.getElem?_set]
    split
    case isTrue => rfl
    case isFalse => exact hMarked
  · unfold Marked
    change (m.map.set (m.index va) true)[m.index va]? = _
    simp [hLt]

theorem grows_of_markInrange
    (hMark : m.markInrange va = .ok m') :
    Grows m m' ∧ va.toNat % 4 = 0 ∧
      (m.index va < m.map.length → m'.Marked va) := by
  rcases Fallible.bind_eq_ok.mp hMark with
    ⟨inside, hInside, hRest⟩
  rcases inrange_eq_ok.mp hInside with ⟨hAligned, rfl⟩
  split at hRest
  case isTrue =>
    have hGrows := grows_of_mark hRest
    exact ⟨hGrows.1, hAligned, fun _ => hGrows.2⟩
  case isFalse hOutside =>
    cases hRest
    refine ⟨Grows.refl m, hAligned, ?_⟩
    intro hLt
    exact absurd (decide_eq_true hLt) hOutside

/- An address that is aligned and in range can be marked. -/
theorem mark_isOk
    (hAligned : va.toNat % 4 = 0)
    (hLt : m.index va < m.map.length) :
    ∃ m', m.mark va = .ok m' :=
  ⟨_, mark_eq_ok.mpr ⟨hAligned, hLt, rfl⟩⟩

/- Only an address that is not aligned makes it fail. -/
theorem markInrange_isOk
    (m : CodeMap)
    (hAligned : va.toNat % 4 = 0) :
    ∃ m', m.markInrange va = .ok m' := by
  unfold markInrange
  by_cases hLt : m.index va < m.map.length
  · rcases mark_isOk hAligned hLt with ⟨m', hMark⟩
    refine ⟨m', Fallible.bind_eq_ok.mpr ⟨true, ?_, hMark⟩⟩
    exact inrange_eq_ok.mpr ⟨hAligned, decide_eq_true hLt⟩
  · refine ⟨m, Fallible.bind_eq_ok.mpr ⟨false, ?_, rfl⟩⟩
    exact inrange_eq_ok.mpr ⟨hAligned, decide_eq_false hLt⟩

end CodeMap

------------------------------------------------------------
-- Breaks
------------------------------------------------------------

/- `if (info.target && map.inrange(*info.target)) …`. -/
def markTarget
    (map : CodeMap) :
    Option Ps3Uintptr → Except Failure CodeMap
  | some target => map.markInrange target
  | none => return map

/- The body of the loop of `DiscoverBreaks`. -/
def discoverBreaksStep
    (analyze : Analyze)
    (map : CodeMap)
    (cia : Ps3Uintptr) : Except Failure CodeMap := do
  let info := analyze cia
  let map ← markTarget map info.target
  if info.flow then map.markInrange (cia + 4#32)
  else return map

def discoverBreaks
    (start len : BitVec 32)
    (analyze : Analyze) : Except Failure CodeMap :=
  (untilEq start (start + len)).foldlM
    (discoverBreaksStep analyze) (CodeMap.ofSegment start len)

/- An instruction leads to `a` or ends before it. -/
def BreaksAt
    (analyze : Analyze)
    (cia a : Ps3Uintptr) : Prop :=
  (analyze cia).target = some a ∨
    ((analyze cia).flow = true ∧ cia + 4#32 = a)

/-
  The breaks of an instruction are aligned, and those in the
  map are marked.
-/
def Noted
    (analyze : Analyze)
    (cia : Ps3Uintptr)
    (map : CodeMap) : Prop :=
  ∀ a, BreaksAt analyze cia a →
    a.toNat % 4 = 0 ∧
      (map.index a < map.map.length → map.Marked a)

variable {cia : Ps3Uintptr} {analyze : Analyze}

theorem Noted.grows
    {m m' : CodeMap}
    (hNoted : Noted analyze cia m)
    (hGrows : m.Grows m') :
    Noted analyze cia m' := by
  intro a hBreak
  rcases hNoted a hBreak with ⟨hAligned, hMarked⟩
  refine ⟨hAligned, ?_⟩
  intro hLt
  rw [CodeMap.index_of_grows hGrows, hGrows.length] at hLt
  exact hGrows.marked a (hMarked hLt)

theorem discoverBreaksStep_spec
    {m m' : CodeMap}
    (hStep : discoverBreaksStep analyze m cia = .ok m') :
    m.Grows m' ∧ Noted analyze cia m' := by
  rcases Fallible.bind_eq_ok.mp hStep with
    ⟨middle, hTarget, hFlow⟩
  have hFirst :
      m.Grows middle ∧
        ∀ a, (analyze cia).target = some a →
          a.toNat % 4 = 0 ∧
            (m.index a < m.map.length →
              middle.Marked a) := by
    cases hInfo : (analyze cia).target with
    | some target =>
        rw [hInfo] at hTarget
        have hMark := CodeMap.grows_of_markInrange hTarget
        refine ⟨hMark.1, ?_⟩
        intro a ha
        cases ha
        exact hMark.2
    | none =>
        rw [hInfo] at hTarget
        cases hTarget
        refine ⟨CodeMap.Grows.refl m, ?_⟩
        intro a ha
        cases ha
  have hSecond :
      middle.Grows m' ∧
        ((analyze cia).flow = true →
          (cia + 4#32).toNat % 4 = 0 ∧
            (middle.index (cia + 4#32) < middle.map.length →
              m'.Marked (cia + 4#32))) := by
    split at hFlow
    case isTrue =>
      have hMark := CodeMap.grows_of_markInrange hFlow
      exact ⟨hMark.1, fun _ => hMark.2⟩
    case isFalse hNone =>
      cases hFlow
      exact
        ⟨CodeMap.Grows.refl _,
          fun hSome => absurd hSome hNone⟩
  have hGrows := hFirst.1.trans hSecond.1
  refine ⟨hGrows, ?_⟩
  intro a hBreak
  rw [CodeMap.index_of_grows hGrows, hGrows.length]
  rcases hBreak with hTarget | ⟨hFlow, rfl⟩
  · rcases hFirst.2 a hTarget with ⟨hAligned, hMarked⟩
    refine ⟨hAligned, ?_⟩
    intro hLt
    exact hSecond.1.marked a (hMarked hLt)
  · have hAfter := hSecond.2 hFlow
    rwa [CodeMap.index_of_grows hFirst.1, hFirst.1.length]
      at hAfter

/-
  The map of a segment keeps its addresses, and the breaks of
  every instruction that was swept are marked in it.
-/
theorem discoverBreaks_spec
    {start len : BitVec 32}
    {map : CodeMap}
    (hBreaks : discoverBreaks start len analyze = .ok map) :
    (CodeMap.ofSegment start len).Grows map ∧
      ∀ cia ∈ untilEq start (start + len),
        Noted analyze cia map := by
  have hRun := Fallible.run_of_foldlM hBreaks
  constructor
  · apply hRun.invariant ((CodeMap.ofSegment start len).Grows)
    · intro m cia m' hGrows hStep
      exact hGrows.trans (discoverBreaksStep_spec hStep).1
    · exact CodeMap.Grows.refl _
  · apply hRun.established (Noted analyze)
    · intro m cia m' hStep
      exact (discoverBreaksStep_spec hStep).2
    · intro m cia m' hStep a hNoted
      exact hNoted.grows (discoverBreaksStep_spec hStep).1

theorem discoverBreaksStep_isOk
    (hAligned :
      ∀ a, BreaksAt analyze cia a → a.toNat % 4 = 0)
    (m : CodeMap) :
    ∃ m', discoverBreaksStep analyze m cia = .ok m' := by
  have hFirst :
      ∃ middle,
        markTarget m (analyze cia).target = .ok middle := by
    cases hInfo : (analyze cia).target with
    | some target =>
        exact
          m.markInrange_isOk (hAligned target (.inl hInfo))
    | none => exact ⟨m, rfl⟩
  rcases hFirst with ⟨middle, hMiddle⟩
  have hSecond :
      ∃ m',
        (if (analyze cia).flow = true then
            middle.markInrange (cia + 4#32)
          else pure middle) = .ok m' := by
    split
    case isTrue hFlow =>
      exact
        middle.markInrange_isOk
          (hAligned _ (.inr ⟨hFlow, rfl⟩))
    case isFalse => exact ⟨middle, rfl⟩
  rcases hSecond with ⟨m', hEnd⟩
  exact ⟨m', Fallible.bind_eq_ok.mpr ⟨middle, hMiddle, hEnd⟩⟩

/- The sweep fails only at a target that is not aligned. -/
theorem discoverBreaks_isOk
    {start len : BitVec 32}
    {analyze : Analyze}
    (hAligned :
      ∀ cia ∈ untilEq start (start + len), ∀ a,
        BreaksAt analyze cia a → a.toNat % 4 = 0) :
    ∃ map, discoverBreaks start len analyze = .ok map := by
  have hLoop := @Fallible.foldlM_isOk Failure CodeMap
    Ps3Uintptr (discoverBreaksStep analyze) (fun _ => True)
    (untilEq start (start + len))
    (fun m _ cia hCia => by
      rcases discoverBreaksStep_isOk (hAligned cia hCia) m
        with ⟨m', hStep⟩
      exact ⟨m', hStep, trivial⟩)
    (CodeMap.ofSegment start len) trivial
  rcases hLoop with ⟨map, hBreaks, -⟩
  exact ⟨map, hBreaks⟩

end Rewriter

end Ps3emu
