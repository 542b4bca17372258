import Mathlib.Data.List.Sort
import Ps3emu.Rewriter.GraphTools

/-
  The discovery of the basic blocks of a segment, without a
  reader for the cutoff of data.

  Key definitions include:
    * `discoveredBlocks`, `discoverBasicBlocks`
    * `Break`
    * `Partition`

  Key theorems include:
    * `discoveredBlocks_spec`
    * `discoverBasicBlocks_partition`
-/

------------------------------------------------------------
-- Discovery and Cuts
------------------------------------------------------------

namespace Ps3emu

namespace Rewriter

/- `subset` on intervals of machine words. -/
def subset (sub sublen a alen : BitVec 32) : Bool :=
  decide (a.toNat ≤ sub.toNat) &&
    decide ((sub + sublen).toNat ≤ (a + alen).toNat)

def containsIllegalInstruction
    (validate : Validate)
    (b : BasicBlock) : Bool :=
  (untilEq b.start (b.start + b.len)).any
    (fun cia => !validate cia)

def checkLead
    (start length : BitVec 32)
    (lead : Ps3Uintptr) : Except Failure Unit :=
  if subset lead 4#32 start length then return
  else throw (.error "a lead is outside the segment")

/- The blocks as they are cut, before any is removed. -/
def discoveredBlocks
    (start length : BitVec 32)
    (leads : List Ps3Uintptr)
    (analyze : Analyze) :
    Except Failure (List BasicBlock) := do
  leads.forM (checkLead start length)
  let breaks ← discoverBreaks start length analyze
  let breaks ← leads.foldlM CodeMap.mark breaks
  makeBasicBlocks start length breaks

def discoverBasicBlocks
    (start length : BitVec 32)
    (leads : List Ps3Uintptr)
    (analyze : Analyze)
    (validate : Validate) :
    Except Failure (List BasicBlock) := do
  let blocks ← discoveredBlocks start length leads analyze
  let graph :=
    removeVertices (buildGraph blocks analyze)
      (containsIllegalInstruction validate)
  return (graphToBlocks graph).insertionSort
    (fun b c => b.start.toNat ≤ c.start.toNat)

/- The addresses of the instructions of a segment. -/
def Instruction
    (start length : BitVec 32)
    (cia : Ps3Uintptr) : Prop :=
  ∃ i, 4 * i < length.toNat ∧
    cia = start + BitVec.ofNat 32 (4 * i)

/-
  The leads, the targets of the instructions, and the
  addresses after flow instructions.
-/
inductive Break
    (start length : BitVec 32)
    (leads : List Ps3Uintptr)
    (analyze : Analyze) : Ps3Uintptr → Prop where
  | lead {a : Ps3Uintptr} :
      a ∈ leads →
      Break start length leads analyze a
  | target {cia a : Ps3Uintptr} :
      Instruction start length cia →
      (analyze cia).target = some a →
      Break start length leads analyze a
  | flow {cia : Ps3Uintptr} :
      Instruction start length cia →
      (analyze cia).flow = true →
      Break start length leads analyze (cia + 4#32)

/- What the cut of a segment guarantees of its blocks. -/
structure Cut
    (start length : BitVec 32)
    (leads : List Ps3Uintptr)
    (analyze : Analyze)
    (blocks : List BasicBlock) : Prop where
  tiles :
    start.toNat + length.toNat < 2 ^ 32 →
      Tiles start.toNat blocks (start.toNat + length.toNat)
  wrapped :
    2 ^ 32 ≤ start.toNat + length.toNat → blocks = []
  aligned :
    ∀ b ∈ blocks,
      b.start.toNat % 4 = 0 ∧ b.len.toNat % 4 = 0
  unbroken :
    ∀ b ∈ blocks, ∀ a,
      Break start length leads analyze a →
      ¬ (b.start.toNat < a.toNat ∧ a.toNat < b.finish)

theorem mem_untilEq_segment
    {start length : BitVec 32}
    {cia : Ps3Uintptr}
    (hDvd : 4 ∣ length.toNat) :
    cia ∈ untilEq start (start + length) ↔
      Instruction start length cia := by
  have hDistance : start + length - start = length := by
    bv_omega
  unfold untilEq
  rw [hDistance, mem_rounds]
  constructor
  · rintro ⟨i, hi, rfl⟩
    exact ⟨i, by omega, rfl⟩
  · rintro ⟨i, hi, rfl⟩
    exact ⟨i, by omega, rfl⟩

/- The map when the leads have been marked too. -/
theorem marked_of_break
    {start length : BitVec 32}
    {leads : List Ps3Uintptr}
    {analyze : Analyze}
    {map map' : CodeMap}
    (hDvd : 4 ∣ length.toNat)
    (hBreaks : discoverBreaks start length analyze = .ok map)
    (hLeads : leads.foldlM CodeMap.mark map = .ok map') :
    (CodeMap.ofSegment start length).Grows map' ∧
      ∀ a, Break start length leads analyze a →
        a.toNat % 4 = 0 ∧
          (map'.index a < map'.map.length →
            map'.Marked a) := by
  have hSweep := discoverBreaks_spec hBreaks
  have hRun := Fallible.run_of_foldlM hLeads
  have hGrows : map.Grows map' := by
    apply hRun.invariant map.Grows
    · intro m a m' hGrows hMark
      exact hGrows.trans (CodeMap.grows_of_mark hMark).1
    · exact CodeMap.Grows.refl map
  have hLead :
      ∀ a ∈ leads,
        a.toNat % 4 = 0 ∧ map'.Marked a := by
    apply hRun.established
      (fun a m => a.toNat % 4 = 0 ∧ m.Marked a)
    · intro m a m' hMark
      exact
        ⟨(CodeMap.mark_eq_ok.mp hMark).1,
          (CodeMap.grows_of_mark hMark).2⟩
    · rintro m a m' hMark d ⟨hAligned, hMarked⟩
      exact
        ⟨hAligned,
          (CodeMap.grows_of_mark hMark).1.marked d hMarked⟩
  have hNoted :
      ∀ cia, Instruction start length cia →
        Noted analyze cia map' := by
    intro cia hCia
    exact
      (hSweep.2 cia ((mem_untilEq_segment hDvd).mpr hCia)).grows
        hGrows
  refine ⟨hSweep.1.trans hGrows, ?_⟩
  intro a hBreak
  cases hBreak with
  | lead hMem =>
      rcases hLead a hMem with ⟨hAligned, hMarked⟩
      exact ⟨hAligned, fun _ => hMarked⟩
  | @target cia _ hCia hTarget =>
      exact hNoted cia hCia a (.inl hTarget)
  | @flow cia hCia hFlow =>
      exact hNoted cia hCia _ (.inr ⟨hFlow, rfl⟩)

theorem discoveredBlocks_spec
    {start length : BitVec 32}
    {leads : List Ps3Uintptr}
    {analyze : Analyze}
    {blocks : List BasicBlock}
    (hDvd : 4 ∣ length.toNat)
    (hBlocks :
      discoveredBlocks start length leads analyze =
        .ok blocks) :
    Cut start length leads analyze blocks := by
  rcases Fallible.bind_eq_ok.mp hBlocks with
    ⟨_, -, hRest⟩
  rcases Fallible.bind_eq_ok.mp hRest with
    ⟨map, hBreaks, hRest⟩
  rcases Fallible.bind_eq_ok.mp hRest with
    ⟨map', hLeads, hMake⟩
  rcases marked_of_break hDvd hBreaks hLeads with
    ⟨hGrows, hMarked⟩
  rcases makeBasicBlocks_spec hDvd hMake with
    ⟨hTiles, hWrapped, hBlock⟩
  refine ⟨hTiles, hWrapped, ?_, ?_⟩
  · intro b hb
    exact ⟨(hBlock b hb).start, (hBlock b hb).len⟩
  · rintro b hb a hBreak ⟨hLower, hUpper⟩
    rcases hMarked a hBreak with ⟨hAligned, hInside⟩
    apply (hBlock b hb).unbroken a hAligned hLower hUpper
    apply hInside
    by_cases hFits : start.toNat + length.toNat < 2 ^ 32
    · have hBounds := (hTiles hFits).bounds hb
      rw [CodeMap.index_of_grows hGrows, hGrows.length]
      simp only [CodeMap.ofSegment, CodeMap.index,
        List.length_replicate]
      rw [Masks.toNat_sub_of_le _ _ (by omega)]
      omega
    · rw [hWrapped (by omega)] at hb
      cases hb

------------------------------------------------------------
-- Partition
------------------------------------------------------------

/- What is said of the list that is returned. -/
structure Partition
    (start length : BitVec 32)
    (leads : List Ps3Uintptr)
    (analyze : Analyze)
    (blocks : List BasicBlock) : Prop where
  sorted :
    blocks.Pairwise
      (fun b c => b.start.toNat < c.start.toNat)
  disjoint :
    blocks.Pairwise
      (fun b c => ∀ a, ¬ (b.Contains a ∧ c.Contains a))
  nonempty : ∀ b ∈ blocks, 0 < b.len.toNat
  aligned :
    ∀ b ∈ blocks, 4 ∣ b.start.toNat ∧ 4 ∣ b.len.toNat
  inside :
    ∀ b ∈ blocks,
      start.toNat ≤ b.start.toNat ∧
        b.finish ≤ start.toNat + length.toNat
  flow :
    ∀ b ∈ blocks, ∀ cia,
      4 ∣ cia.toNat →
      b.Contains cia →
      (analyze cia).flow = true →
      cia = b.lastVa
  breaks :
    ∀ a, Break start length leads analyze a →
      (∃ b ∈ blocks, b.Contains a) →
      ∃ b ∈ blocks, b.start = a

namespace Cut

variable {start length : BitVec 32} {leads : List Ps3Uintptr}
variable {analyze : Analyze}
variable {blocks : List BasicBlock}

variable (hCut : Cut start length leads analyze blocks)

include hCut

variable {b : BasicBlock}

/- A segment that has a block ends inside the address space. -/
theorem fits
    (hb : b ∈ blocks) :
    start.toNat + length.toNat < 2 ^ 32 := by
  by_contra hNot
  rw [hCut.wrapped (by omega)] at hb
  cases hb

theorem bounds
    (hb : b ∈ blocks) :
    start.toNat ≤ b.start.toNat ∧
      b.finish ≤ start.toNat + length.toNat ∧
      0 < b.len.toNat :=
  (hCut.tiles (hCut.fits hb)).bounds hb

theorem pairwise :
    blocks.Pairwise
      (fun b c => b.finish ≤ c.start.toNat) := by
  by_cases hFits : start.toNat + length.toNat < 2 ^ 32
  · exact (hCut.tiles hFits).pairwise
  · rw [hCut.wrapped (by omega)]
    exact .nil

theorem sorted :
    blocks.Pairwise
      (fun b c => b.start.toNat < c.start.toNat) := by
  refine hCut.pairwise.imp_of_mem ?_
  intro b c hb _ hBefore
  have hPos := (hCut.bounds hb).2.2
  unfold BasicBlock.finish at hBefore
  omega

theorem distinct :
    Distinct blocks := by
  refine hCut.sorted.imp ?_
  intro b c hLt hEq
  rw [hEq] at hLt
  exact absurd hLt (Nat.lt_irrefl _)

/- The last instruction is one word before the end. -/
theorem toNat_lastVa
    (hb : b ∈ blocks) :
    b.lastVa.toNat = b.finish - 4 := by
  have hFits := hCut.fits hb
  have hBounds := hCut.bounds hb
  have hAligned := hCut.aligned b hb
  unfold BasicBlock.finish at hBounds ⊢
  have hEnd :
      (b.start + b.len).toNat =
        b.start.toNat + b.len.toNat := by
    rw [BitVec.toNat_add]
    omega
  have hFour : (4#32).toNat = 4 := rfl
  unfold BasicBlock.lastVa
  rw [Masks.toNat_sub_of_le _ _ (by omega), hEnd, hFour]

/- An aligned address of a block is one of the segment. -/
theorem instruction_of_contains
    (hb : b ∈ blocks)
    {cia : Ps3Uintptr}
    (hDvd : 4 ∣ cia.toNat)
    (hIn : b.Contains cia) :
    Instruction start length cia := by
  have hFits := hCut.fits hb
  have hBounds := hCut.bounds hb
  rcases hIn with ⟨hLower, hUpper⟩
  -- the first block starts at the start of the segment
  have hStart : start.toNat % 4 = 0 := by
    have hTiles := hCut.tiles hFits
    cases hList : blocks with
    | nil =>
        rw [hList] at hb
        cases hb
    | cons c rest =>
        rw [hList] at hTiles
        rw [← hTiles.1]
        exact (hCut.aligned c (by rw [hList]; simp)).1
  refine ⟨(cia.toNat - start.toNat) / 4, by omega, ?_⟩
  apply BitVec.eq_of_toNat_eq
  rw [toNat_add_ofNat _ _ (by omega)]
  omega

theorem flow
    (hb : b ∈ blocks)
    {cia : Ps3Uintptr}
    (hDvd : 4 ∣ cia.toNat)
    (hIn : b.Contains cia)
    (hFlow : (analyze cia).flow = true) :
    cia = b.lastVa := by
  have hCia := hCut.instruction_of_contains hb hDvd hIn
  have hFits := hCut.fits hb
  have hBounds := hCut.bounds hb
  have hAligned := hCut.aligned b hb
  rcases hIn with ⟨hLower, hUpper⟩
  unfold BasicBlock.finish at hBounds hUpper
  have hNext : (cia + 4#32).toNat = cia.toNat + 4 :=
    toNat_add_ofNat _ 4 (by omega)
  have hNot := hCut.unbroken b hb _ (.flow hCia hFlow)
  rw [hNext] at hNot
  apply BitVec.eq_of_toNat_eq
  rw [hCut.toNat_lastVa hb]
  unfold BasicBlock.finish at hNot ⊢
  omega

/- Any choice of blocks in their order is a partition. -/
theorem partition
    {chosen : List BasicBlock}
    (hChosen : chosen.Sublist blocks) :
    Partition start length leads analyze chosen where
  sorted := hCut.sorted.sublist hChosen
  disjoint := by
    refine (hCut.pairwise.sublist hChosen).imp ?_
    rintro b c hBefore a ⟨hFirst, hSecond⟩
    have hUpper := hFirst.2
    have hLower := hSecond.1
    omega
  nonempty := by
    intro b hb
    exact (hCut.bounds (hChosen.subset hb)).2.2
  aligned := by
    intro b hb
    have hAligned := hCut.aligned b (hChosen.subset hb)
    omega
  inside := by
    intro b hb
    have hBounds := hCut.bounds (hChosen.subset hb)
    exact ⟨hBounds.1, hBounds.2.1⟩
  flow := by
    intro b hb cia hDvd hIn hFlow
    exact hCut.flow (hChosen.subset hb) hDvd hIn hFlow
  breaks := by
    rintro a hBreak ⟨b, hb, hLower, hUpper⟩
    refine ⟨b, hb, ?_⟩
    have hNot :=
      hCut.unbroken b (hChosen.subset hb) a hBreak
    apply BitVec.eq_of_toNat_eq
    omega

end Cut

------------------------------------------------------------
-- Termination
------------------------------------------------------------

/-
  A segment of aligned addresses that ends inside the address
  space, with its leads inside.
-/
structure WellFormed
    (start length : BitVec 32)
    (leads : List Ps3Uintptr)
    (analyze : Analyze) : Prop where
  startAligned : 4 ∣ start.toNat
  lengthAligned : 4 ∣ length.toNat
  fits : start.toNat + length.toNat < 2 ^ 32
  breaksAligned :
    ∀ a, Break start length leads analyze a → 4 ∣ a.toNat
  inside :
    ∀ a ∈ leads,
      start.toNat ≤ a.toNat ∧
        a.toNat < start.toNat + length.toNat

theorem checkLeads_isOk
    {start length : BitVec 32}
    {leads : List Ps3Uintptr}
    (hInside :
      ∀ a ∈ leads, subset a 4#32 start length = true) :
    leads.forM (checkLead start length) = .ok ⟨⟩ := by
  apply Fallible.forM_eq_ok.mpr
  intro a ha
  unfold checkLead
  rw [if_pos (hInside a ha)]
  rfl

theorem WellFormed.lead_ok
    {start length : BitVec 32}
    {leads : List Ps3Uintptr}
    {analyze : Analyze}
    (hForm : WellFormed start length leads analyze)
    {a : Ps3Uintptr}
    (ha : a ∈ leads) :
    subset a 4#32 start length = true ∧
      a.toNat % 4 = 0 ∧
      (a - start).toNat / 4 < length.toNat / 4 := by
  have hFits := hForm.fits
  have hStart := hForm.startAligned
  have hLength := hForm.lengthAligned
  have hDvd := hForm.breaksAligned a (.lead ha)
  have hInside := hForm.inside a ha
  have hNext : (a + 4#32).toNat = a.toNat + 4 :=
    toNat_add_ofNat _ 4 (by omega)
  have hEnd :
      (start + length).toNat =
        start.toNat + length.toNat := by
    rw [BitVec.toNat_add]
    omega
  refine ⟨?_, by omega, ?_⟩
  · simp only [subset, Bool.and_eq_true, decide_eq_true_eq]
    omega
  · rw [Masks.toNat_sub_of_le _ _ hInside.1]
    omega

theorem discoverBasicBlocks_isOk
    {start length : BitVec 32}
    {leads : List Ps3Uintptr}
    {analyze : Analyze}
    (validate : Validate)
    (hForm : WellFormed start length leads analyze) :
    ∃ blocks,
      discoverBasicBlocks start length leads analyze
          validate =
        .ok blocks := by
  have hChecks :=
    checkLeads_isOk (fun a ha => (hForm.lead_ok ha).1)
  have hSweep :=
    @discoverBreaks_isOk start length analyze (by
      intro cia hCia a hBreak
      have hInstruction :=
        (mem_untilEq_segment hForm.lengthAligned).mp hCia
      have hDvd : 4 ∣ a.toNat := by
        rcases hBreak with hTarget | ⟨hFlow, rfl⟩
        · exact hForm.breaksAligned a (.target hInstruction hTarget)
        · exact hForm.breaksAligned _ (.flow hInstruction hFlow)
      omega)
  rcases hSweep with ⟨map, hBreaks⟩
  have hGrows := (discoverBreaks_spec hBreaks).1
  have hMarks :=
    @Fallible.foldlM_isOk Failure CodeMap Ps3Uintptr
      CodeMap.mark (CodeMap.ofSegment start length).Grows
      leads (by
        intro m hm a ha
        have hLead := hForm.lead_ok ha
        have hIndex :
            m.index a < m.map.length := by
          rw [CodeMap.index_of_grows hm, hm.length]
          simpa [CodeMap.ofSegment, CodeMap.index] using
            hLead.2.2
        rcases CodeMap.mark_isOk hLead.2.1 hIndex with
          ⟨m', hMark⟩
        exact
          ⟨m', hMark,
            hm.trans (CodeMap.grows_of_mark hMark).1⟩)
      map hGrows
  rcases hMarks with ⟨map', hLeads, hEnd⟩
  have hStart := hForm.startAligned
  have hLength : map'.map.length = length.toNat / 4 := by
    rw [hEnd.length]
    exact List.length_replicate
  rcases makeBasicBlocks_isOk (by omega) hForm.fits hEnd.start
    hLength with ⟨blocks, hMake⟩
  have hDiscovered :
      discoveredBlocks start length leads analyze =
        .ok blocks := by
    refine Fallible.bind_eq_ok.mpr ⟨⟨⟩, hChecks, ?_⟩
    refine Fallible.bind_eq_ok.mpr ⟨map, hBreaks, ?_⟩
    exact Fallible.bind_eq_ok.mpr ⟨map', hLeads, hMake⟩
  exact
    ⟨_, Fallible.bind_eq_ok.mpr ⟨blocks, hDiscovered, rfl⟩⟩

------------------------------------------------------------
-- Result
------------------------------------------------------------

/- The blocks are sorted before they are sorted. -/
theorem discoverBasicBlocks_eq
    {start length : BitVec 32}
    {leads : List Ps3Uintptr}
    {analyze : Analyze}
    {validate : Validate}
    {blocks result : List BasicBlock}
    (hCut : Cut start length leads analyze blocks)
    (hBlocks :
      discoveredBlocks start length leads analyze =
        .ok blocks)
    (hResult :
      discoverBasicBlocks start length leads analyze
          validate =
        .ok result) :
    result =
      graphToBlocks
        (removeVertices (buildGraph blocks analyze)
          (containsIllegalInstruction validate)) := by
  rcases Fallible.bind_eq_ok.mp hResult with
    ⟨blocks', hBlocks', hSort⟩
  rw [hBlocks] at hBlocks'
  cases hBlocks'
  cases hSort
  apply List.Pairwise.insertionSort_eq
  have hSorted :=
    hCut.sorted.sublist
      (removeVertices_sublist blocks analyze
        (containsIllegalInstruction validate))
  exact hSorted.imp (fun hLt => Nat.le_of_lt hLt)

/-
  Whatever list is returned is a partition of the code that
  is kept, and one is returned for a segment of aligned
  addresses.
-/
theorem discoverBasicBlocks_partition
    (start length : BitVec 32)
    (leads : List Ps3Uintptr)
    (analyze : Analyze)
    (validate : Validate)
    (hLength : 4 ∣ length.toNat) :
    (∀ blocks,
      discoverBasicBlocks start length leads analyze
          validate =
        .ok blocks →
      Partition start length leads analyze blocks) ∧
    (WellFormed start length leads analyze →
      ∃ blocks,
        discoverBasicBlocks start length leads analyze
            validate =
          .ok blocks) := by
  constructor
  · intro result hResult
    rcases Fallible.bind_eq_ok.mp hResult with
      ⟨blocks, hBlocks, -⟩
    have hCut := discoveredBlocks_spec hLength hBlocks
    rw [discoverBasicBlocks_eq hCut hBlocks hResult]
    exact hCut.partition (removeVertices_sublist _ _ _)
  · intro hForm
    exact discoverBasicBlocks_isOk validate hForm

/- A conditional branch to the end of the segment. -/
def branchToEnd : Analyze := fun cia =>
  if cia = 0x1000#32 then ⟨true, true, some 0x1008#32⟩
  else ⟨false, false, none⟩

theorem discoverBasicBlocks_partition_branch :
    ∃ blocks,
      discoverBasicBlocks 0x1000#32 12#32 [0x1000#32]
          branchToEnd (fun _ => true) =
        .ok blocks ∧
      Partition 0x1000#32 12#32 [0x1000#32] branchToEnd
        blocks ∧
      blocks =
        [⟨0x1000#32, 4#32⟩, ⟨0x1004#32, 4#32⟩,
          ⟨0x1008#32, 4#32⟩] := by
  have hResult :
      discoverBasicBlocks 0x1000#32 12#32 [0x1000#32]
          branchToEnd (fun _ => true) =
        .ok
          [⟨0x1000#32, 4#32⟩, ⟨0x1004#32, 4#32⟩,
            ⟨0x1008#32, 4#32⟩] := by
    rfl
  have hPartition :=
    (discoverBasicBlocks_partition 0x1000#32 12#32
      [0x1000#32] branchToEnd (fun _ => true)
      (by decide)).1 _ hResult
  exact ⟨_, hResult, hPartition, rfl⟩

end Rewriter

end Ps3emu
