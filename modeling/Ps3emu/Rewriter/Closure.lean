import Ps3emu.Rewriter.Discover

/-
  The blocks that are kept are compared with the transfers of
  control between the blocks of a segment.  The graph has no
  edge for a block that ends because the next address is a
  break.

  Key definitions include:
    * `Exits`, `Transfers`
    * `Closed`
    * `NoIllegalFallthrough`

  Key theorems include:
    * `Cut.transfers_iff`
    * `closed_iff`
-/

------------------------------------------------------------
-- Transfers
------------------------------------------------------------

namespace Ps3emu

namespace Rewriter

/-
  The addresses that control can reach from the end of a
  block: a direct target, the address after a branch that is
  passed through, and the address after the last instruction
  if that is no branch.
-/
inductive Exits
    (analyze : Analyze)
    (b : BasicBlock) : Ps3Uintptr → Prop where
  | target {a : Ps3Uintptr} :
      (analyze b.lastVa).flow = true →
      (analyze b.lastVa).target = some a →
      Exits analyze b a
  | passthrough :
      (analyze b.lastVa).flow = true →
      (analyze b.lastVa).passthrough = true →
      Exits analyze b (b.lastVa + 4#32)
  | fallthrough :
      (analyze b.lastVa).flow = false →
      Exits analyze b (b.lastVa + 4#32)

/- Control passes from a block into another. -/
def Transfers
    (analyze : Analyze)
    (blocks : List BasicBlock)
    (b c : BasicBlock) : Prop :=
  b ∈ blocks ∧ c ∈ blocks ∧
    ∃ a, Exits analyze b a ∧ c.Contains a

/-
  No block that is kept passes control to one that is not,
  and each of the others leads to an invalid instruction.
-/
structure Closed
    (analyze : Analyze)
    (validate : Validate)
    (blocks result : List BasicBlock) : Prop where
  kept :
    ∀ b ∈ result, ∀ c,
      Transfers analyze blocks b c → c ∈ result
  removed :
    ∀ b ∈ blocks, b ∉ result →
      ∃ c ∈ blocks,
        containsIllegalInstruction validate c = true ∧
          Relation.ReflTransGen (Transfers analyze blocks) b c

/-
  No block of valid instructions whose last is not a branch
  is followed by a block from which branches lead to an
  invalid instruction.
-/
def NoIllegalFallthrough
    (analyze : Analyze)
    (validate : Validate)
    (blocks : List BasicBlock) : Prop :=
  ∀ b ∈ blocks, ∀ c ∈ blocks,
    (analyze b.lastVa).flow = false →
    containsIllegalInstruction validate b = false →
    c.start = b.lastVa + 4#32 →
    ∀ d ∈ blocks,
      Relation.ReflTransGen (Branches analyze blocks) c d →
      containsIllegalInstruction validate d = false

section

variable {start length : BitVec 32} {leads : List Ps3Uintptr}
variable {analyze : Analyze}
variable {blocks : List BasicBlock}

/- One of two blocks ends before the other starts. -/
def Apart (b c : BasicBlock) : Prop :=
  b.finish ≤ c.start.toNat ∨ c.finish ≤ b.start.toNat

instance : Std.Symm Apart where
  symm _ _ hApart := hApart.symm

variable {b c : BasicBlock}

section

variable (hCut : Cut start length leads analyze blocks)

include hCut

theorem Cut.apart
    (hb : b ∈ blocks)
    (hc : c ∈ blocks)
    (hNe : b ≠ c) :
    Apart b c := by
  have hPairwise : blocks.Pairwise Apart :=
    hCut.pairwise.imp (fun hBefore => .inl hBefore)
  exact hPairwise.forall hb hc hNe

theorem Cut.toNat_end
    {b : BasicBlock}
    (hb : b ∈ blocks) :
    (b.lastVa + 4#32).toNat = b.finish := by
  have hFits := hCut.fits hb
  have hBounds := hCut.bounds hb
  have hLast := hCut.toNat_lastVa hb
  have hAligned := hCut.aligned b hb
  have hSum :
      (b.lastVa + 4#32).toNat = b.lastVa.toNat + 4 :=
    toNat_add_ofNat _ 4 (by omega)
  unfold BasicBlock.finish at hBounds hLast ⊢
  omega

theorem Cut.contains_lastVa
    {b : BasicBlock}
    (hb : b ∈ blocks) :
    b.Contains b.lastVa ∧ 4 ∣ b.lastVa.toNat := by
  have hBounds := hCut.bounds hb
  have hLast := hCut.toNat_lastVa hb
  have hAligned := hCut.aligned b hb
  unfold BasicBlock.Contains
  unfold BasicBlock.finish at hLast ⊢
  omega

/- Control enters a block at its first instruction. -/
theorem Cut.start_of_exit
    (hb : b ∈ blocks)
    (hc : c ∈ blocks)
    {a : Ps3Uintptr}
    (hExit : Exits analyze b a)
    (hIn : c.Contains a) :
    c.start = a := by
  apply BitVec.eq_of_toNat_eq
  rcases hIn with ⟨hLower, hUpper⟩
  have hEnd :
      a = b.lastVa + 4#32 → c.start.toNat = a.toNat := by
    rintro rfl
    rw [hCut.toNat_end hb] at hLower hUpper ⊢
    by_contra hInside
    -- the block would share addresses with its predecessor
    have hNe : b ≠ c := by
      rintro rfl
      omega
    have hPos := (hCut.bounds hb).2.2
    unfold BasicBlock.finish at hLower hUpper hInside
    rcases hCut.apart hb hc hNe with hBelow | hBelow
    · unfold BasicBlock.finish at hBelow
      omega
    · unfold BasicBlock.finish at hBelow
      omega
  cases hExit with
  | target hFlow hTarget =>
      have hLast := hCut.contains_lastVa hb
      have hInstruction :=
        hCut.instruction_of_contains hb hLast.2 hLast.1
      have hNot :=
        hCut.unbroken c hc a (.target hInstruction hTarget)
      omega
  | passthrough _ _ => exact hEnd rfl
  | fallthrough _ => exact hEnd rfl

/-
  Control passes along the branches of the graph, and past
  the end of a block whose last instruction is no branch.
-/
theorem Cut.transfers_iff
    (b c : BasicBlock) :
    Transfers analyze blocks b c ↔
      Branches analyze blocks b c ∨
        (b ∈ blocks ∧ c ∈ blocks ∧
          (analyze b.lastVa).flow = false ∧
          c.start = b.lastVa + 4#32) := by
  constructor
  · rintro ⟨hb, hc, a, hExit, hIn⟩
    have hStart := hCut.start_of_exit hb hc hExit hIn
    cases hExit with
    | target hFlow hTarget =>
        refine .inl ⟨hb, hc, ?_⟩
        simp [branchTargets, hFlow, hTarget, hStart]
    | passthrough hFlow hPass =>
        refine .inl ⟨hb, hc, ?_⟩
        simp [branchTargets, hFlow, hPass, hStart]
    | fallthrough hFlow => exact .inr ⟨hb, hc, hFlow, hStart⟩
  · have hStartIn : ∀ c ∈ blocks, c.Contains c.start := by
      intro c hc
      have hPos := (hCut.bounds hc).2.2
      unfold BasicBlock.Contains BasicBlock.finish
      omega
    rintro (⟨hb, hc, hTarget⟩ | ⟨hb, hc, hFlow, hStart⟩)
    · refine ⟨hb, hc, c.start, ?_, hStartIn c hc⟩
      simp only [branchTargets] at hTarget
      split at hTarget
      case isFalse => cases hTarget
      case isTrue hFlow =>
        rcases List.mem_append.mp hTarget with hMem | hMem
        · exact .target hFlow (Option.mem_toList.mp hMem)
        · split at hMem
          case isFalse => cases hMem
          case isTrue hPass =>
            rw [List.mem_singleton.mp hMem]
            exact .passthrough hFlow hPass
    · refine ⟨hb, hc, c.start, ?_, hStartIn c hc⟩
      rw [hStart]
      exact .fallthrough hFlow

end

/- No edge leaves a block whose last instruction is no branch. -/
theorem eq_of_reaches
    (hFlow : (analyze b.lastVa).flow = false)
    (hPath :
      Relation.ReflTransGen (Branches analyze blocks) b c) :
    b = c := by
  rcases hPath.cases_head with hSame | ⟨d, hFirst, -⟩
  · exact hSame
  · have hTarget := hFirst.2.2
    simp [branchTargets, hFlow] at hTarget

end

------------------------------------------------------------
-- Closure
------------------------------------------------------------

/-
  The blocks that are kept are closed under transfers of
  control exactly if no valid block falls through to one from
  which branches lead to an invalid instruction.
-/
theorem closed_iff
    (start length : BitVec 32)
    (leads : List Ps3Uintptr)
    (analyze : Analyze)
    (validate : Validate)
    (blocks : List BasicBlock)
    (hLength : 4 ∣ length.toNat)
    (hBlocks :
      discoveredBlocks start length leads analyze =
        .ok blocks) :
    ∃ result,
      discoverBasicBlocks start length leads analyze
          validate =
        .ok result ∧
      (Closed analyze validate blocks result ↔
        NoIllegalFallthrough analyze validate blocks) := by
  have hCut := discoveredBlocks_spec hLength hBlocks
  have hDiscover :
      ∃ result,
        discoverBasicBlocks start length leads analyze
            validate =
          .ok result :=
    ⟨_, Fallible.bind_eq_ok.mpr ⟨blocks, hBlocks, rfl⟩⟩
  rcases hDiscover with ⟨result, hResult⟩
  refine ⟨result, hResult, ?_⟩
  have hMem :
      ∀ b, b ∈ result ↔
        b ∈ blocks ∧
          ∀ c ∈ blocks,
            Relation.ReflTransGen (Branches analyze blocks) b
              c →
            containsIllegalInstruction validate c = false := by
    intro b
    rw [discoverBasicBlocks_eq hCut hBlocks hResult]
    exact
      mem_removeVertices_iff analyze
        (containsIllegalInstruction validate) hCut.distinct b
  constructor
  · intro hClosed b hb c hc hFlow hValid hStart d hd hPath
    have hKept : b ∈ result := by
      refine (hMem b).mpr ⟨hb, ?_⟩
      intro e _ hReach
      rw [← eq_of_reaches hFlow hReach]
      exact hValid
    have hTransfer : Transfers analyze blocks b c :=
      (hCut.transfers_iff b c).mpr
        (.inr ⟨hb, hc, hFlow, hStart⟩)
    have hNext := hClosed.kept b hKept c hTransfer
    exact ((hMem c).mp hNext).2 d hd hPath
  · intro hNone
    refine ⟨?_, ?_⟩
    · intro b hb c hTransfer
      rcases (hMem b).mp hb with ⟨hOld, hValid⟩
      refine (hMem c).mpr ⟨hTransfer.2.1, ?_⟩
      intro d hd hPath
      rcases (hCut.transfers_iff b c).mp hTransfer with
        hBranch | ⟨-, hc, hFlow, hStart⟩
      · exact hValid d hd (hPath.head hBranch)
      · exact
          hNone b hOld c hc hFlow (hValid b hOld .refl) hStart
            d hd hPath
    · intro b hb hRemoved
      by_contra hNot
      apply hRemoved
      refine (hMem b).mpr ⟨hb, ?_⟩
      intro c hc hPath
      by_contra hIllegal
      apply hNot
      refine
        ⟨c, hc, Bool.eq_true_of_not_eq_false hIllegal, ?_⟩
      refine Relation.ReflTransGen.mono ?_ _ _ hPath
      intro d e hBranch
      exact (hCut.transfers_iff d e).mpr (.inl hBranch)

/- Straight code, with a lead at its second word. -/
def straight : Analyze := fun _ => ⟨false, false, none⟩

theorem closed_iff_straight :
    ∃ result,
      discoverBasicBlocks 0x1000#32 8#32 [0x1004#32] straight
          (fun _ => true) =
        .ok result ∧
      (Closed straight (fun _ => true)
          [⟨0x1000#32, 4#32⟩, ⟨0x1004#32, 4#32⟩] result ↔
        NoIllegalFallthrough straight (fun _ => true)
          [⟨0x1000#32, 4#32⟩, ⟨0x1004#32, 4#32⟩]) :=
  closed_iff 0x1000#32 8#32 [0x1004#32] straight
    (fun _ => true)
    [⟨0x1000#32, 4#32⟩, ⟨0x1004#32, 4#32⟩] (by decide) rfl

/-
  The word at the lead is invalid.  The block before it is
  kept and falls through to it.
-/
theorem straight_not_closed :
    ¬ ∀ (start length : BitVec 32) (leads : List Ps3Uintptr)
        (analyze : Analyze) (validate : Validate)
        (blocks result : List BasicBlock),
        4 ∣ length.toNat →
        discoveredBlocks start length leads analyze =
          .ok blocks →
        discoverBasicBlocks start length leads analyze
            validate =
          .ok result →
        Closed analyze validate blocks result := by
  intro hAll
  have hClosed :=
    hAll 0x1000#32 8#32 [0x1004#32] straight
      (fun cia => cia != 0x1004#32)
      [⟨0x1000#32, 4#32⟩, ⟨0x1004#32, 4#32⟩]
      [⟨0x1000#32, 4#32⟩] (by decide) rfl rfl
  have hTransfer :
      Transfers straight
        [⟨0x1000#32, 4#32⟩, ⟨0x1004#32, 4#32⟩]
        ⟨0x1000#32, 4#32⟩ ⟨0x1004#32, 4#32⟩ := by
    refine ⟨by simp, by simp, _, .fallthrough rfl, ?_⟩
    exact ⟨by decide, by decide⟩
  have hMem :=
    hClosed.kept ⟨0x1000#32, 4#32⟩ (by simp) _ hTransfer
  simp at hMem

end Rewriter

end Ps3emu
