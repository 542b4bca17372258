import Ps3emu.Library.Transition
import Ps3emu.Rewriter.Cutoff

/-
  Splitting sorted blocks at addresses: each block is cut at
  the addresses inside it, in whatever order they come.

  Key definitions include:
    * `Arranged`
    * `cut`
    * `Picks`
    * `SplitsWell`

  Key theorems include:
    * `splitBlocks_eq_cut`
    * `cut_comm`, `cut_cut`
    * `picks_iff_of_words`
    * `splitsWell_iff`
-/

------------------------------------------------------------
-- Specification
------------------------------------------------------------

namespace Ps3emu

namespace Rewriter

/- The address lies in the block, after its start. -/
def BasicBlock.Splits
    (b : BasicBlock)
    (va : Ps3Uintptr) : Prop :=
  b.start.toNat < va.toNat ∧ va.toNat < b.finish

instance (b : BasicBlock) (va : Ps3Uintptr) :
    Decidable (b.Splits va) :=
  inferInstanceAs (Decidable (_ ∧ _))

namespace SplitBlocks

/- The address of a word. -/
def Aligned (va : Ps3Uintptr) : Prop :=
  va.toNat % 4 = 0

instance (va : Ps3Uintptr) : Decidable (Aligned va) :=
  inferInstanceAs (Decidable (_ = _))

/- Some block contains the address. -/
def Covered
    (blocks : List BasicBlock)
    (a : Ps3Uintptr) : Prop :=
  ∃ b ∈ blocks, b.Contains a

/- A block ends before the next one starts. -/
def Before (b c : BasicBlock) : Prop :=
  b.Less c ∧ b.finish ≤ c.start.toNat

/- Disjoint blocks in their order. -/
def Arranged (blocks : List BasicBlock) : Prop :=
  blocks.Pairwise Before

/- Split at some addresses, one after another. -/
def splitAll
    (blocks : List BasicBlock)
    (vas : List Ps3Uintptr) : List BasicBlock :=
  vas.foldl splitBlocks blocks

/-
  However some of the addresses are used, the blocks cover
  what they did and are arranged, each address that is used
  starts its block, and their order does not matter.
-/
structure SplitsWell
    (blocks : List BasicBlock)
    (addresses : List Ps3Uintptr) : Prop where
  covered :
    ∀ vas ⊆ addresses, ∀ a,
      Covered (splitAll blocks vas) a ↔ Covered blocks a
  arranged : ∀ vas ⊆ addresses, Arranged (splitAll blocks vas)
  starts :
    ∀ vas ⊆ addresses, ∀ va ∈ vas, Covered blocks va →
      ∃ b ∈ splitAll blocks vas,
        b.start = va ∧ b.Contains va
  idempotent :
    ∀ vas ⊆ addresses, ∀ va ∈ addresses,
      splitBlocks (splitBlocks (splitAll blocks vas) va) va =
        splitBlocks (splitAll blocks vas) va
  order :
    ∀ vas ⊆ addresses, ∀ vas', (∀ va, va ∈ vas' ↔ va ∈ vas) →
      splitAll blocks vas' = splitAll blocks vas

/-
  The test of the loop meets a block that the address splits.
  For an address outside of all blocks it meets none.
-/
structure Picks
    (blocks : List BasicBlock)
    (va : Ps3Uintptr) : Prop where
  inside :
    ∀ b ∈ blocks, b.Splits va →
      intersects b.start b.len va 4#32 = true
  outside :
    ¬ Covered blocks va →
      ∀ b ∈ blocks, ¬ intersects b.start b.len va 4#32 = true

------------------------------------------------------------
-- Cuts
------------------------------------------------------------

def left (b : BasicBlock) (va : Ps3Uintptr) : BasicBlock :=
  ⟨b.start, va - b.start⟩

def right (b : BasicBlock) (va : Ps3Uintptr) : BasicBlock :=
  ⟨va, b.len - (va - b.start)⟩

def cutBlock
    (va : Ps3Uintptr)
    (b : BasicBlock) : List BasicBlock :=
  if b.Splits va then [left b va, right b va] else [b]

/- Cut all blocks that the address splits. -/
def cut
    (blocks : List BasicBlock)
    (va : Ps3Uintptr) : List BasicBlock :=
  blocks.flatMap (cutBlock va)

variable {b c : BasicBlock} {blocks : List BasicBlock}
variable {u va : Ps3Uintptr}

theorem finish_left (hSplits : b.Splits va) :
    (left b va).finish = va.toNat := by
  rcases hSplits with ⟨hStart, -⟩
  change b.start.toNat + (va - b.start).toNat = va.toNat
  bv_omega

theorem finish_right (hSplits : b.Splits va) :
    (right b va).finish = b.finish := by
  rcases hSplits with ⟨hStart, hFinish⟩
  unfold BasicBlock.finish at hFinish ⊢
  change
    va.toNat + (b.len - (va - b.start)).toNat =
      b.start.toNat + b.len.toNat
  bv_omega

theorem mem_cutBlock :
    c ∈ cutBlock va b ↔
      (¬ b.Splits va ∧ c = b) ∨
        (b.Splits va ∧ (c = left b va ∨ c = right b va)) := by
  unfold cutBlock
  split
  case isTrue hSplits => simp [hSplits]
  case isFalse hNot => simp [hNot]

/- The parts of a block are inside it and cover it. -/
theorem contains_cutBlock (a : Ps3Uintptr) :
    (∃ c ∈ cutBlock va b, c.Contains a) ↔ b.Contains a := by
  unfold cutBlock
  split
  case isFalse => simp
  case isTrue hSplits =>
    have hLeft := finish_left hSplits
    have hRight := finish_right hSplits
    rcases hSplits with ⟨hStart, hFinish⟩
    simp only [List.mem_cons, List.not_mem_nil, or_false,
      exists_eq_or_imp, exists_eq_left, BasicBlock.Contains,
      hLeft, hRight]
    change
      (b.start.toNat ≤ a.toNat ∧ a.toNat < va.toNat) ∨
        (va.toNat ≤ a.toNat ∧ a.toNat < b.finish) ↔ _
    omega

theorem covered_cut (a : Ps3Uintptr) :
    Covered (cut blocks va) a ↔ Covered blocks a := by
  constructor
  · rintro ⟨c, hC, hContains⟩
    rcases List.mem_flatMap.mp hC with ⟨b, hB, hPart⟩
    exact
      ⟨b, hB, (contains_cutBlock a).mp ⟨c, hPart, hContains⟩⟩
  · rintro ⟨b, hB, hContains⟩
    rcases (@contains_cutBlock b va a).mpr hContains with
      ⟨c, hPart, hC⟩
    exact ⟨c, List.mem_flatMap.mpr ⟨b, hB, hPart⟩, hC⟩

theorem cutBlock_of_splits (hSplits : b.Splits va) :
    cutBlock va b = [left b va, right b va] :=
  if_pos hSplits

theorem cutBlock_of_not (hNot : ¬ b.Splits va) :
    cutBlock va b = [b] :=
  if_neg hNot

theorem splits_left (hSplits : b.Splits va) :
    (left b va).Splits u ↔
      b.start.toNat < u.toNat ∧ u.toNat < va.toNat := by
  rw [BasicBlock.Splits, finish_left hSplits]
  rfl

theorem splits_right (hSplits : b.Splits va) :
    (right b va).Splits u ↔
      va.toNat < u.toNat ∧ u.toNat < b.finish := by
  rw [BasicBlock.Splits, finish_right hSplits]
  rfl

/- Two cuts of a block, the lower one first or last. -/
theorem cutBlock_comm_of_lt
    (b : BasicBlock)
    (hLt : u.toNat < va.toNat) :
    (cutBlock u b).flatMap (cutBlock va) =
      (cutBlock va b).flatMap (cutBlock u) := by
  by_cases hU : b.Splits u
  · have hLow : ¬ (left b u).Splits va := by
      rw [splits_left hU]
      omega
    by_cases hV : b.Splits va
    · have hMiddle : (right b u).Splits va :=
        (splits_right hU).mpr ⟨hLt, hV.2⟩
      have hMiddle' : (left b va).Splits u :=
        (splits_left hV).mpr ⟨hU.1, hLt⟩
      have hHigh : ¬ (right b va).Splits u := by
        rw [splits_right hV]
        omega
      have hShared :
          left (right b u) va = right (left b va) u := by
        simp only [left, right, BasicBlock.mk.injEq, true_and]
        bv_omega
      have hLast : right (right b u) va = right b va := by
        simp only [right, BasicBlock.mk.injEq, true_and]
        bv_omega
      simp only [cutBlock_of_splits hU, cutBlock_of_splits hV,
        List.flatMap_cons, List.flatMap_nil,
        cutBlock_of_not hLow, cutBlock_of_splits hMiddle,
        cutBlock_of_splits hMiddle', cutBlock_of_not hHigh,
        List.append_nil, List.cons_append, List.nil_append,
        hShared, hLast]
      rfl
    · have hHigh : ¬ (right b u).Splits va := by
        rw [splits_right hU]
        intro hBoth
        have hStart := hU.1
        exact hV ⟨by omega, hBoth.2⟩
      simp only [cutBlock_of_splits hU, cutBlock_of_not hV,
        List.flatMap_cons, List.flatMap_nil,
        cutBlock_of_not hLow, cutBlock_of_not hHigh,
        List.append_nil, List.cons_append, List.nil_append]
  · by_cases hV : b.Splits va
    · have hLow : ¬ (left b va).Splits u := by
        rw [splits_left hV]
        intro hBoth
        have hFinish := hV.2
        exact hU ⟨hBoth.1, by omega⟩
      have hHigh : ¬ (right b va).Splits u := by
        rw [splits_right hV]
        omega
      simp only [cutBlock_of_not hU, cutBlock_of_splits hV,
        List.flatMap_cons, List.flatMap_nil,
        cutBlock_of_not hLow, cutBlock_of_not hHigh,
        List.append_nil, List.cons_append, List.nil_append]
    · simp only [cutBlock_of_not hU, cutBlock_of_not hV,
        List.flatMap_cons, List.flatMap_nil, List.append_nil]

/- A block is cut only once at an address. -/
theorem cutBlock_cutBlock
    (va : Ps3Uintptr)
    (b : BasicBlock) :
    (cutBlock va b).flatMap (cutBlock va) = cutBlock va b := by
  by_cases hV : b.Splits va
  · have hLeft : ¬ (left b va).Splits va := by
      rw [splits_left hV]
      omega
    have hRight : ¬ (right b va).Splits va := by
      rw [splits_right hV]
      omega
    simp only [cutBlock_of_splits hV, List.flatMap_cons,
      List.flatMap_nil, cutBlock_of_not hLeft,
      cutBlock_of_not hRight, List.append_nil,
      List.cons_append, List.nil_append]
  · simp only [cutBlock_of_not hV, List.flatMap_cons,
      List.flatMap_nil, List.append_nil]

theorem cut_comm
    (blocks : List BasicBlock)
    (u va : Ps3Uintptr) :
    cut (cut blocks u) va = cut (cut blocks va) u := by
  simp only [cut, List.flatMap_assoc]
  congr 1
  funext b
  rcases Nat.lt_trichotomy u.toNat va.toNat with
    hLt | hEq | hGt
  · exact cutBlock_comm_of_lt b hLt
  · rw [BitVec.eq_of_toNat_eq hEq]
  · exact (cutBlock_comm_of_lt b hGt).symm

theorem cut_cut
    (blocks : List BasicBlock)
    (va : Ps3Uintptr) :
    cut (cut blocks va) va = cut blocks va := by
  simp only [cut, List.flatMap_assoc, cutBlock_cutBlock]

theorem less_iff :
    b.Less c ↔
      b.start.toNat < c.start.toNat ∨
        b.start.toNat = c.start.toNat ∧
          b.len.toNat < c.len.toNat := by
  rw [BasicBlock.Less, BitVec.toNat_inj]

/- A part is the block itself, or it is not empty. -/
theorem part_bounds (hC : c ∈ cutBlock va b) :
    b.start.toNat ≤ c.start.toNat ∧ c.finish ≤ b.finish ∧
      (c = b ∨ c.start.toNat < c.finish) := by
  rcases mem_cutBlock.mp hC with
    ⟨-, rfl⟩ | ⟨hSplits, rfl | rfl⟩
  · exact ⟨Nat.le_refl _, Nat.le_refl _, .inl rfl⟩
  · rw [finish_left hSplits]
    rcases hSplits with ⟨hStart, hFinish⟩
    exact
      ⟨Nat.le_refl _, Nat.le_of_lt hFinish, .inr hStart⟩
  · rw [finish_right hSplits]
    rcases hSplits with ⟨hStart, hFinish⟩
    exact
      ⟨Nat.le_of_lt hStart, Nat.le_refl _, .inr hFinish⟩

theorem Before.parts
    {x y : BasicBlock}
    (hBefore : Before b c)
    (hX : x ∈ cutBlock va b)
    (hY : y ∈ cutBlock va c) :
    Before x y := by
  rcases part_bounds hX with ⟨hXStart, hXFinish, hXPart⟩
  rcases part_bounds hY with ⟨hYStart, hYFinish, hYPart⟩
  rcases hBefore with ⟨hLess, hApart⟩
  refine ⟨?_, by omega⟩
  rw [less_iff] at hLess ⊢
  unfold BasicBlock.finish at hApart hXFinish hXPart hYPart
  rcases hXPart with rfl | hXPart
  · rcases hYPart with rfl | hYPart
    · exact hLess
    · omega
  · omega

/- The parts of a block take its place in the order. -/
theorem arranged_cut (hArranged : Arranged blocks) :
    Arranged (cut blocks va) := by
  refine List.pairwise_flatMap.mpr ⟨?_, ?_⟩
  · intro b _
    by_cases hSplits : b.Splits va
    · rw [cutBlock_of_splits hSplits, List.pairwise_pair]
      refine ⟨.inl hSplits.1, ?_⟩
      exact Nat.le_of_eq (finish_left hSplits)
    · rw [cutBlock_of_not hSplits]
      exact List.pairwise_singleton _ _
  · refine hArranged.imp ?_
    intro b c hBefore x hX y hY
    exact hBefore.parts hX hY

------------------------------------------------------------
-- The Loop
------------------------------------------------------------

theorem cut_of_not_splits
    (hNot : ∀ b ∈ blocks, ¬ b.Splits va) :
    cut blocks va = blocks := by
  induction blocks with
  | nil => rfl
  | cons b rest ih =>
      rcases List.forall_mem_cons.mp hNot with ⟨hB, hRest⟩
      rw [cut, List.flatMap_cons, cutBlock_of_not hB]
      exact congrArg (List.cons b) (ih hRest)

theorem insertBlock_between
    {before after : List BasicBlock}
    (hBefore : ∀ c ∈ before, c.Less b)
    (hAfter : ∀ c ∈ after, b.Less c) :
    insertBlock b (before ++ after) = before ++ b :: after := by
  induction before with
  | nil =>
      cases after with
      | nil => rfl
      | cons c rest =>
          exact if_pos (hAfter c List.mem_cons_self)
  | cons c rest ih =>
      rcases List.forall_mem_cons.mp hBefore with
        ⟨hC, hRest⟩
      have hNot : ¬ b.Less c := by
        intro hLess
        rw [less_iff] at hC hLess
        omega
      rw [List.cons_append, insertBlock, if_neg hNot, if_pos hC,
        ih hRest, List.cons_append]

variable {f : BasicBlock}

theorem Arranged.before
    {before after : List BasicBlock}
    (hArranged : Arranged (before ++ f :: after)) :
    (∀ c ∈ before, Before c f) ∧ ∀ c ∈ after, Before f c := by
  rcases List.pairwise_append.mp hArranged with
    ⟨-, hSecond, hAcross⟩
  exact
    ⟨fun c hC => hAcross c hC f List.mem_cons_self,
      fun c hC => List.rel_of_pairwise_cons hSecond hC⟩

/- Two blocks that contain an address are the same one. -/
theorem Arranged.unique
    (hArranged : Arranged blocks)
    (hB : b ∈ blocks)
    (hC : c ∈ blocks)
    (hContainsB : b.Contains va)
    (hContainsC : c.Contains va) :
    b = c := by
  by_contra hNe
  unfold BasicBlock.Contains at hContainsB hContainsC
  rcases List.append_of_mem hB with ⟨before, after, rfl⟩
  rcases hArranged.before with ⟨hBefore, hAfter⟩
  rcases List.mem_append.mp hC with hIn | hIn
  · have hApart := (hBefore c hIn).2
    omega
  · rcases List.mem_cons.mp hIn with rfl | hIn
    · exact hNe rfl
    · have hApart := (hAfter c hIn).2
      omega

/- A block that starts before another one ends before it. -/
theorem Arranged.finish_le
    (hArranged : Arranged blocks)
    (hB : b ∈ blocks)
    (hC : c ∈ blocks)
    (hLt : b.start.toNat < c.start.toNat) :
    b.finish ≤ c.start.toNat := by
  rcases List.append_of_mem hB with ⟨before, after, rfl⟩
  rcases hArranged.before with ⟨hBefore, hAfter⟩
  rcases List.mem_append.mp hC with hIn | hIn
  · have hLess := (hBefore c hIn).1
    rw [less_iff] at hLess
    omega
  · rcases List.mem_cons.mp hIn with rfl | hIn
    · exact absurd hLt (Nat.lt_irrefl _)
    · exact (hAfter c hIn).2

theorem intersects_word :
    intersects b.start b.len va 4#32 = true ↔
      va.toNat < (b.start + b.len).toNat ∧
        b.start.toNat < (va + 4#32).toNat := by
  simp only [intersects, Bool.not_eq_true', Bool.or_eq_false_iff,
    decide_eq_false_iff_not, Nat.not_le]

/- A block that begins at or before the address contains it. -/
theorem contains_of_intersects
    (hIntersects : intersects b.start b.len va 4#32 = true)
    (hStart : b.start.toNat ≤ va.toNat) :
    b.Contains va ∧ b.finish < 2 ^ 32 := by
  have hEnd := (intersects_word.mp hIntersects).1
  have hStartLt := b.start.isLt
  have hLenLt := b.len.isLt
  rw [BitVec.toNat_add] at hEnd
  unfold BasicBlock.Contains BasicBlock.finish
  omega

/-
  If a block after the address meets the test, then so does
  the block that contains the address.
-/
theorem Arranged.intersects_of_later
    (hArranged : Arranged blocks)
    (hB : b ∈ blocks)
    (hC : c ∈ blocks)
    (hContains : b.Contains va)
    (hLater : va.toNat < c.start.toNat)
    (hIntersects : intersects c.start c.len va 4#32 = true) :
    intersects b.start b.len va 4#32 = true := by
  have hStart := hContains.1
  have hFinish := hContains.2
  have hApart := hArranged.finish_le hB hC (by omega)
  have hFour := (intersects_word.mp hIntersects).2
  have hCLt := c.start.isLt
  unfold BasicBlock.finish at hApart hFinish
  rw [intersects_word, BitVec.toNat_add b.start]
  omega

/- The block that is found contains the address. -/
theorem Picks.found
    {before after : List BasicBlock}
    (hArranged : Arranged (before ++ f :: after))
    (hPicks : Picks (before ++ f :: after) va)
    (hF : intersects f.start f.len va 4#32 = true)
    (hNone :
      ∀ b ∈ before,
        ¬ intersects b.start b.len va 4#32 = true) :
    f.Contains va := by
  have hFMem : f ∈ before ++ f :: after :=
    List.mem_append_right _ List.mem_cons_self
  by_cases hStart : f.start.toNat ≤ va.toNat
  · exact (contains_of_intersects hF hStart).1
  · by_cases hCovered : Covered (before ++ f :: after) va
    · rcases hCovered with ⟨b, hB, hContains⟩
      -- a block before it would have been found
      have hEarlier :=
        hArranged.intersects_of_later hB hFMem hContains
          (by omega) hF
      rcases List.mem_append.mp hB with hIn | hIn
      · exact absurd hEarlier (hNone b hIn)
      · rcases List.mem_cons.mp hIn with rfl | hIn
        · exact hContains
        · have hLess := (hArranged.before.2 b hIn).1
          have hBStart := hContains.1
          rw [less_iff] at hLess
          omega
    · exact absurd hF (hPicks.outside hCovered f hFMem)

/- The other blocks stay as they are. -/
theorem cut_around
    {before after : List BasicBlock}
    (hArranged : Arranged (before ++ f :: after))
    (hSplits : f.Splits va) :
    cut (before ++ f :: after) va =
      before ++ left f va :: right f va :: after := by
  rcases hArranged.before with ⟨hBefore, hAfter⟩
  rcases hSplits with ⟨hStart, hFinish⟩
  have hBeforeNot : ∀ c ∈ before, ¬ c.Splits va := by
    intro c hC hOther
    have hApart := (hBefore c hC).2
    have hIn := hOther.2
    omega
  have hAfterNot : ∀ c ∈ after, ¬ c.Splits va := by
    intro c hC hOther
    have hApart := (hAfter c hC).2
    have hIn := hOther.1
    omega
  rw [cut, List.flatMap_append, List.flatMap_cons,
    cutBlock_of_splits ⟨hStart, hFinish⟩]
  change
    cut before va ++ left f va :: right f va :: cut after va =
      _
  rw [cut_of_not_splits hBeforeNot, cut_of_not_splits hAfterNot]

/- A cut in the terms of the set that is changed. -/
theorem cut_between
    {before after : List BasicBlock}
    (hArranged : Arranged (before ++ f :: after))
    (hSplits : f.Splits va) :
    cut (before ++ f :: after) va =
      insertBlock (right f va)
        (insertBlock (left f va)
          ((before ++ f :: after).erase f)) := by
  have hCut := cut_around hArranged hSplits
  have hNotMem : f ∉ before := by
    intro hIn
    have hLess := (hArranged.before.1 f hIn).1
    rw [less_iff] at hLess
    omega
  have hParts :
      Arranged
        (before ++ left f va :: right f va :: after) := by
    rw [← hCut]
    exact arranged_cut hArranged
  have hParts' :
      Arranged
        ((before ++ [left f va]) ++ right f va :: after) := by
    rw [List.append_assoc]
    exact hParts
  rcases hParts.before with ⟨hLower, hUpper⟩
  rcases hParts'.before with ⟨hLower', hUpper'⟩
  have hFirst :
      insertBlock (left f va) (before ++ after) =
        before ++ left f va :: after :=
    insertBlock_between (fun c hC => (hLower c hC).1)
      (fun c hC => (hUpper c (List.mem_cons_of_mem _ hC)).1)
  have hSecond :
      insertBlock (right f va)
          ((before ++ [left f va]) ++ after) =
        (before ++ [left f va]) ++ right f va :: after :=
    insertBlock_between (fun c hC => (hLower' c hC).1)
      (fun c hC => (hUpper' c hC).1)
  rw [List.append_assoc, List.append_assoc] at hSecond
  rw [hCut, List.erase_append_right _ hNotMem,
    List.erase_cons_head, hFirst]
  exact hSecond.symm

/- The loop cuts the block that the address splits. -/
theorem splitBlocks_eq_cut
    (hArranged : Arranged blocks)
    (hPicks : Picks blocks va) :
    splitBlocks blocks va = cut blocks va := by
  unfold splitBlocks
  split
  case h_1 hFind =>
    rw [cut_of_not_splits]
    intro b hB hSplits
    exact
      List.find?_eq_none.mp hFind b hB
        (hPicks.inside b hB hSplits)
  case h_2 f hFind =>
    rcases List.find?_eq_some_iff_append.mp hFind with
      ⟨hF, before, after, rfl, hBefore⟩
    have hNone :
        ∀ b ∈ before,
          ¬ intersects b.start b.len va 4#32 = true := by
      intro b hB
      have hNot := hBefore b hB
      rw [Bool.not_eq_true'] at hNot
      rw [hNot]
      exact Bool.false_ne_true
    have hContains := hPicks.found hArranged hF hNone
    have hFMem : f ∈ before ++ f :: after :=
      List.mem_append_right _ List.mem_cons_self
    have hOnly :
        ∀ b ∈ before ++ f :: after, b.Splits va → b = f := by
      intro b hB hSplits
      exact
        hArranged.unique hB hFMem
          ⟨Nat.le_of_lt hSplits.1, hSplits.2⟩ hContains
    split
    case isTrue hStart =>
      rw [cut_of_not_splits]
      intro b hB hSplits
      have hLt := hSplits.1
      rw [hOnly b hB hSplits, hStart] at hLt
      exact Nat.lt_irrefl _ hLt
    case isFalse hStart =>
      have hSplits : f.Splits va := by
        refine ⟨Nat.lt_of_le_of_ne hContains.1 ?_, hContains.2⟩
        intro hEq
        exact hStart (BitVec.eq_of_toNat_eq hEq)
      exact (cut_between hArranged hSplits).symm

------------------------------------------------------------
-- All Addresses
------------------------------------------------------------

theorem intersects_left (b : BasicBlock) (u : Ps3Uintptr) :
    intersects (left b u).start (left b u).len va 4#32 = true ↔
      va.toNat < u.toNat ∧
        b.start.toNat < (va + 4#32).toNat := by
  have hEnd : (left b u).start + (left b u).len = u := by
    change b.start + (u - b.start) = u
    bv_omega
  rw [intersects_word, hEnd]
  rfl

theorem intersects_right (b : BasicBlock) (u : Ps3Uintptr) :
    intersects (right b u).start (right b u).len va 4#32 =
        true ↔
      va.toNat < (b.start + b.len).toNat ∧
        u.toNat < (va + 4#32).toNat := by
  have hEnd :
      (right b u).start + (right b u).len = b.start + b.len := by
    change u + (b.len - (u - b.start)) = b.start + b.len
    bv_omega
  rw [intersects_word, hEnd]
  rfl

/- A cut at one address leaves what is picked for another. -/
theorem Picks.cut
    (hAligned : Aligned va)
    (hU : Picks blocks u)
    (hPicks : Picks blocks va) :
    Picks (cut blocks u) va := by
  unfold Aligned at hAligned
  refine ⟨?_, ?_⟩
  · intro c hC hSplits
    rcases List.mem_flatMap.mp hC with ⟨b, hB, hPart⟩
    rcases mem_cutBlock.mp hPart with
      ⟨-, rfl⟩ | ⟨hCut, rfl | rfl⟩
    · exact hPicks.inside c hB hSplits
    · rw [splits_left hCut] at hSplits
      have hFinish := hCut.2
      have hInside :=
        hPicks.inside b hB ⟨hSplits.1, by omega⟩
      rw [intersects_word] at hInside
      exact (intersects_left b u).mpr ⟨hSplits.2, hInside.2⟩
    · rw [splits_right hCut] at hSplits
      have hStart := hCut.1
      have hInside :=
        hPicks.inside b hB ⟨by omega, hSplits.2⟩
      rw [intersects_word] at hInside
      refine (intersects_right b u).mpr ⟨hInside.1, ?_⟩
      have hFour := hInside.2
      have hLt := va.isLt
      rw [BitVec.toNat_add] at hFour ⊢
      change b.start.toNat < (va.toNat + 4) % 2 ^ 32 at hFour
      change u.toNat < (va.toNat + 4) % 2 ^ 32
      omega
  · intro hNot c hC hIntersects
    rw [covered_cut] at hNot
    rcases List.mem_flatMap.mp hC with ⟨b, hB, hPart⟩
    have hOutside := hPicks.outside hNot b hB
    have hFree : ¬ b.Contains va := fun h => hNot ⟨b, hB, h⟩
    rcases mem_cutBlock.mp hPart with
      ⟨-, rfl⟩ | ⟨hCut, rfl | rfl⟩
    · exact hOutside hIntersects
    · rw [intersects_left] at hIntersects
      have hEnd := (intersects_word.mp (hU.inside b hB hCut)).1
      apply hOutside
      rw [intersects_word]
      exact ⟨by omega, hIntersects.2⟩
    · rw [intersects_right] at hIntersects
      have hStart := hCut.1
      have hFits :=
        (contains_of_intersects (hU.inside b hB hCut)
          (Nat.le_of_lt hStart)).2
      have hEnd :
          (b.start + b.len).toNat = b.finish := by
        rw [BitVec.toNat_add]
        exact Nat.mod_eq_of_lt hFits
      apply hOutside
      rw [intersects_word]
      refine ⟨hIntersects.1, ?_⟩
      rw [hEnd] at hIntersects
      unfold BasicBlock.Contains at hFree
      omega

variable {addresses : List Ps3Uintptr}

/- The splits are cuts, as far as their addresses go. -/
theorem splitAll_eq_cuts
    (hArranged : Arranged blocks)
    (hAligned : ∀ va ∈ addresses, Aligned va)
    (hPicks : ∀ va ∈ addresses, Picks blocks va)
    {vas : List Ps3Uintptr}
    (hVas : vas ⊆ addresses) :
    splitAll blocks vas = vas.foldl cut blocks := by
  induction vas generalizing blocks with
  | nil => rfl
  | cons u rest ih =>
      rcases List.cons_subset.mp hVas with ⟨hU, hRest⟩
      have hFirst :=
        splitBlocks_eq_cut hArranged (hPicks u hU)
      rw [List.foldl_cons, ← ih (arranged_cut hArranged)
          (fun va hVa =>
            Picks.cut (hAligned va hVa) (hPicks u hU)
              (hPicks va hVa))
          hRest,
        ← hFirst]
      rfl

theorem covered_cuts
    (blocks : List BasicBlock)
    (vas : List Ps3Uintptr)
    (a : Ps3Uintptr) :
    Covered (vas.foldl cut blocks) a ↔ Covered blocks a := by
  induction vas generalizing blocks with
  | nil => rfl
  | cons u rest ih =>
      rw [List.foldl_cons, ih, covered_cut]

theorem arranged_cuts
    (hArranged : Arranged blocks)
    (vas : List Ps3Uintptr) :
    Arranged (vas.foldl cut blocks) := by
  induction vas generalizing blocks with
  | nil => exact hArranged
  | cons u rest ih => exact ih (arranged_cut hArranged)

/- The address starts the block that contains it. -/
def Starts
    (blocks : List BasicBlock)
    (va : Ps3Uintptr) : Prop :=
  ∃ b ∈ blocks, b.start = va ∧ b.Contains va

theorem starts_cut (hCovered : Covered blocks va) :
    Starts (cut blocks va) va := by
  rcases hCovered with ⟨b, hB, hContains⟩
  by_cases hSplits : b.Splits va
  · refine
      ⟨right b va, List.mem_flatMap.mpr ⟨b, hB, ?_⟩, rfl,
        Nat.le_refl _, ?_⟩
    · exact mem_cutBlock.mpr (.inr ⟨hSplits, .inr rfl⟩)
    · rw [finish_right hSplits]
      exact hSplits.2
  · refine
      ⟨b, List.mem_flatMap.mpr ⟨b, hB, ?_⟩, ?_, hContains⟩
    · exact mem_cutBlock.mpr (.inl ⟨hSplits, rfl⟩)
    · apply BitVec.eq_of_toNat_eq
      unfold BasicBlock.Splits at hSplits
      unfold BasicBlock.Contains at hContains
      omega

/- A start stays one. -/
theorem Starts.cut
    (hStarts : Starts blocks va)
    (u : Ps3Uintptr) :
    Starts (cut blocks u) va := by
  rcases hStarts with ⟨b, hB, rfl, hContains⟩
  by_cases hSplits : b.Splits u
  · refine
      ⟨left b u, List.mem_flatMap.mpr ⟨b, hB, ?_⟩, rfl,
        Nat.le_refl _, ?_⟩
    · exact mem_cutBlock.mpr (.inr ⟨hSplits, .inl rfl⟩)
    · rw [finish_left hSplits]
      exact hSplits.1
  · refine
      ⟨b, List.mem_flatMap.mpr ⟨b, hB, ?_⟩, rfl, hContains⟩
    exact mem_cutBlock.mpr (.inl ⟨hSplits, rfl⟩)

theorem Starts.cuts
    (hStarts : Starts blocks va)
    (vas : List Ps3Uintptr) :
    Starts (vas.foldl SplitBlocks.cut blocks) va := by
  induction vas generalizing blocks with
  | nil => exact hStarts
  | cons u rest ih => exact ih (hStarts.cut u)

theorem starts_cuts
    {vas : List Ps3Uintptr}
    (hVa : va ∈ vas)
    (hCovered : Covered blocks va) :
    Starts (vas.foldl cut blocks) va := by
  rcases List.append_of_mem hVa with ⟨before, after, rfl⟩
  rw [List.foldl_append, List.foldl_cons]
  exact
    (starts_cut ((covered_cuts _ _ _).mpr hCovered)).cuts after

theorem splitsWell_of_picks
    (hArranged : Arranged blocks)
    (hAligned : ∀ va ∈ addresses, Aligned va)
    (hPicks : ∀ va ∈ addresses, Picks blocks va) :
    SplitsWell blocks addresses := by
  have hCuts :
      ∀ vas ⊆ addresses,
        splitAll blocks vas = vas.foldl cut blocks :=
    fun vas hVas =>
      splitAll_eq_cuts hArranged hAligned hPicks hVas
  refine ⟨?_, ?_, ?_, ?_, ?_⟩
  · intro vas hVas a
    rw [hCuts vas hVas, covered_cuts]
  · intro vas hVas
    rw [hCuts vas hVas]
    exact arranged_cuts hArranged vas
  · intro vas hVas va hVa hCovered
    rw [hCuts vas hVas]
    exact starts_cuts hVa hCovered
  · intro vas hVas va hVa
    have hOnce : vas ++ [va] ⊆ addresses :=
      List.append_subset.mpr
        ⟨hVas, List.cons_subset.mpr ⟨hVa, List.nil_subset _⟩⟩
    have hTwice : (vas ++ [va]) ++ [va] ⊆ addresses :=
      List.append_subset.mpr
        ⟨hOnce, List.cons_subset.mpr ⟨hVa, List.nil_subset _⟩⟩
    have hFirst := hCuts _ hOnce
    have hSecond := hCuts _ hTwice
    simp only [splitAll, List.foldl_append, List.foldl_cons,
      List.foldl_nil] at hFirst hSecond ⊢
    rw [hSecond, hFirst, cut_cut]
  · intro vas hVas vas' hSame
    have hVas' : vas' ⊆ addresses :=
      fun va hVa => hVas ((hSame va).mp hVa)
    rw [hCuts vas hVas, hCuts vas' hVas']
    exact
      Transition.foldl_eq_of_mem_iff cut_comm cut_cut hSame
        blocks

------------------------------------------------------------
-- The Condition
------------------------------------------------------------

theorem mem_insertBlock (b : BasicBlock) :
    b ∈ insertBlock b blocks := by
  induction blocks with
  | nil => exact List.mem_singleton_self b
  | cons c rest ih =>
      unfold insertBlock
      split
      case isTrue => exact List.mem_cons_self
      case isFalse hNot =>
        split
        case isTrue => exact List.mem_cons_of_mem _ ih
        case isFalse hNot' =>
          rw [less_iff] at hNot hNot'
          have hSame : b = c := by
            cases b
            cases c
            simp only [BasicBlock.mk.injEq,
              ← BitVec.toNat_inj] at hNot hNot' ⊢
            omega
          rw [hSame]
          exact List.mem_cons_self

/- A block that does not contain the address is torn. -/
theorem covered_of_torn
    (hFind :
      blocks.find?
          (fun b => intersects b.start b.len va 4#32) =
        some f)
    (hStart : f.start ≠ va)
    (hF : intersects f.start f.len va 4#32 = true) :
    Covered (splitBlocks blocks va) va := by
  have hRight :
      right f va ∈ splitBlocks blocks va := by
    unfold splitBlocks
    rw [hFind]
    dsimp only
    rw [if_neg hStart]
    exact mem_insertBlock _
  refine ⟨right f va, hRight, Nat.le_refl _, ?_⟩
  have hEnd := (intersects_word.mp hF).1
  change
    va.toNat < va.toNat + (f.len - (va - f.start)).toNat
  bv_omega

theorem picks_of_splitsWell
    (hArranged : Arranged blocks)
    (hSplits : SplitsWell blocks addresses)
    (hVa : va ∈ addresses) :
    Picks blocks va := by
  have hVas : [va] ⊆ addresses :=
    List.cons_subset.mpr ⟨hVa, List.nil_subset _⟩
  have hCovered := hSplits.covered [va] hVas
  have hStarts :=
    hSplits.starts [va] hVas va List.mem_cons_self
  change ∀ a, Covered (splitBlocks blocks va) a ↔ _ at hCovered
  change _ → ∃ b ∈ splitBlocks blocks va, _ at hStarts
  refine ⟨?_, ?_⟩
  · intro b hB hInside
    have hContains : b.Contains va :=
      ⟨Nat.le_of_lt hInside.1, hInside.2⟩
    rcases hStarts ⟨b, hB, hContains⟩ with
      ⟨c, hC, hStart, hContainsC⟩
    by_contra hNot
    -- the blocks would be as before, and `b` not cut
    have hKept : c ∉ blocks := by
      intro hOld
      have hSame :=
        hArranged.unique hB hOld hContains hContainsC
      have hLt := hInside.1
      rw [hSame, hStart] at hLt
      exact Nat.lt_irrefl _ hLt
    unfold splitBlocks at hC
    split at hC
    case h_1 => exact hKept hC
    case h_2 f hFind =>
      have hF := List.find?_some hFind
      have hFMem := List.mem_of_find?_eq_some hFind
      split at hC
      case isTrue => exact hKept hC
      case isFalse =>
        by_cases hLow : f.start.toNat ≤ va.toNat
        · have hContainsF := (contains_of_intersects hF hLow).1
          rw [hArranged.unique hB hFMem hContains hContainsF]
            at hNot
          exact hNot hF
        · exact
            hNot
              (hArranged.intersects_of_later hB hFMem hContains
                (by omega) hF)
  · intro hFree b hB hIntersects
    cases hFind :
      blocks.find?
        (fun b => intersects b.start b.len va 4#32) with
    | none => exact List.find?_eq_none.mp hFind b hB hIntersects
    | some f =>
        have hF := List.find?_some hFind
        have hFMem := List.mem_of_find?_eq_some hFind
        apply hFree
        by_cases hLow : f.start.toNat ≤ va.toNat
        · exact
            ⟨f, hFMem, (contains_of_intersects hF hLow).1⟩
        · apply (hCovered va).mp
          apply covered_of_torn hFind _ hF
          rintro rfl
          exact hLow (Nat.le_refl _)

/-
  Blocks of whole words are split well where the block that
  an address splits ends before the last address.
-/
theorem picks_iff_of_words
    (hWords :
      ∀ b ∈ blocks, Aligned b.start ∧ Aligned b.len)
    (hAligned : Aligned va) :
    Picks blocks va ↔
      ∀ b ∈ blocks, b.Splits va → b.finish < 2 ^ 32 := by
  unfold Aligned at hAligned
  constructor
  · intro hPicks b hB hSplits
    exact
      (contains_of_intersects (hPicks.inside b hB hSplits)
        (Nat.le_of_lt hSplits.1)).2
  · intro hFits
    refine ⟨?_, ?_⟩
    · intro b hB hSplits
      rcases hWords b hB with ⟨hStart, hLen⟩
      have hEnd := hFits b hB hSplits
      rw [intersects_word, BitVec.toNat_add, BitVec.toNat_add]
      change
        _ ∧ b.start.toNat < (va.toNat + 4) % 2 ^ 32
      unfold Aligned at hStart hLen
      unfold BasicBlock.Splits BasicBlock.finish at hSplits
      unfold BasicBlock.finish at hEnd
      omega
    · intro hFree b hB hIntersects
      rcases hWords b hB with ⟨hStart, hLen⟩
      by_cases hLow : b.start.toNat ≤ va.toNat
      · exact
          hFree
            ⟨b, hB, (contains_of_intersects hIntersects hLow).1⟩
      · have hFour := (intersects_word.mp hIntersects).2
        rw [BitVec.toNat_add] at hFour
        change b.start.toNat < (va.toNat + 4) % 2 ^ 32 at hFour
        unfold Aligned at hStart
        omega

/-
  Sorted blocks are split well exactly if the test of the
  loop picks the block to be split at each address.
-/
theorem splitsWell_iff
    (blocks : List BasicBlock)
    (addresses : List Ps3Uintptr)
    (hArranged : Arranged blocks)
    (hAligned : ∀ va ∈ addresses, Aligned va) :
    SplitsWell blocks addresses ↔
      ∀ va ∈ addresses, Picks blocks va := by
  constructor
  · intro hSplits va hVa
    exact picks_of_splitsWell hArranged hSplits hVa
  · exact splitsWell_of_picks hArranged hAligned

theorem splitsWell_words :
    SplitsWell
      [⟨0x1000#32, 0x10#32⟩, ⟨0x1010#32, 8#32⟩]
      [0x1004#32, 0x1010#32, 0x2000#32] := by
  have hWords :
      ∀ b ∈
          [(⟨0x1000#32, 0x10#32⟩ : BasicBlock),
            ⟨0x1010#32, 8#32⟩],
        (Aligned b.start ∧ Aligned b.len) ∧
          b.finish < 2 ^ 32 := by
    simp [Aligned, BasicBlock.finish]
  have hAligned :
      ∀ va ∈ [0x1004#32, 0x1010#32, 0x2000#32],
        Aligned va := by
    simp [Aligned]
  refine (splitsWell_iff _ _ ?_ hAligned).mpr ?_
  · exact
      List.pairwise_pair.mpr
        ⟨.inl (by decide), Nat.le_refl _⟩
  · intro va hVa
    refine (picks_iff_of_words ?_ (hAligned va hVa)).mpr ?_
    · exact fun b hB => (hWords b hB).1
    · exact fun b hB _ => (hWords b hB).2

/-
  The end of the block wraps to zero, so it is not found.
-/
theorem splitsWell_fails :
    Arranged [⟨0xfffffff0#32, 0x10#32⟩] ∧
      (∀ va ∈ [0xfffffff4#32], Aligned va) ∧
      ¬ SplitsWell
        [⟨0xfffffff0#32, 0x10#32⟩] [0xfffffff4#32] := by
  refine ⟨List.pairwise_singleton _ _, by simp [Aligned], ?_⟩
  intro hSplits
  have hKept :
      splitAll [⟨0xfffffff0#32, 0x10#32⟩] [0xfffffff4#32] =
        [⟨0xfffffff0#32, 0x10#32⟩] := rfl
  have hCovered :
      Covered [⟨0xfffffff0#32, 0x10#32⟩] 0xfffffff4#32 :=
    ⟨_, List.mem_cons_self,
      by simp [BasicBlock.Contains, BasicBlock.finish]⟩
  rcases
    hSplits.starts _ (List.Subset.refl _) _
      List.mem_cons_self hCovered with
    ⟨b, hB, hStart, -⟩
  rw [hKept, List.mem_singleton] at hB
  rw [hB] at hStart
  exact absurd hStart (by decide)

end SplitBlocks

end Rewriter

end Ps3emu
