import Mathlib.Data.Finset.Card
import Mathlib.Logic.Relation

/-
  Depth-first search over a successor function, and its
  agreement with reachability.

  Key definitions include:
    * `Reachability.Next`
    * `Reachability.visit`, `Reachability.visitAll`

  Key theorems include:
    * `Reachability.mem_visit_iff`
-/

------------------------------------------------------------
-- Search and Soundness
------------------------------------------------------------

namespace Ps3emu

namespace Reachability

variable {V : Type} (next : V → List V)

/- One step along the successor function. -/
def Next (v w : V) : Prop :=
  w ∈ next v

/-
  A result keeps what was visited before, and the successors
  of what it adds.
-/
structure Extends (visited result : List V) : Prop where
  old : visited ⊆ result
  closed :
    ∀ v ∈ result, v ∉ visited →
      ∀ w, Next next v w → w ∈ result

theorem Extends.refl
    (visited : List V) :
    Extends next visited visited where
  old := List.Subset.refl visited
  closed := by
    intro v hv hNew
    exact absurd hv hNew

theorem Extends.trans
    {next : V → List V}
    {first second third : List V}
    (hFirst : Extends next first second)
    (hSecond : Extends next second third) :
    Extends next first third where
  old := List.Subset.trans hFirst.old hSecond.old
  closed := by
    intro v hv hNew w hw
    by_cases hMem : v ∈ second
    · exact hSecond.old (hFirst.closed v hMem hNew w hw)
    · exact hSecond.closed v hv hMem w hw

variable [DecidableEq V]

/-
  The vertices discovered after `v` is visited.  `fuel`
  bounds the depth of the recursion.
-/
def visit : Nat → List V → V → List V
  | 0, visited, _ => visited
  | fuel + 1, visited, v =>
      if v ∈ visited then visited
      else (next v).foldl (visit fuel) (v :: visited)

/- Visit the vertices of a list in order. -/
def visitAll
    (fuel : Nat)
    (visited vertices : List V) : List V :=
  vertices.foldl (visit next fuel) visited

variable {fuel : Nat} {visited : List V} {v : V}

theorem visit_of_mem
    (hMem : v ∈ visited) :
    visit next fuel visited v = visited := by
  cases fuel with
  | zero => rfl
  | succ fuel => simp [visit, hMem]

theorem visit_of_not_mem
    (hNew : v ∉ visited) :
    visit next (fuel + 1) visited v =
      visitAll next fuel (v :: visited) (next v) := by
  simp [visit, visitAll, hNew]

/-
  What holds of the vertices of `visited` and is kept by a
  visit holds of all that is discovered.
-/
theorem visitAll_sound
    {P : V → Prop}
    {vertices : List V}
    (hVisit :
      ∀ visited, ∀ v ∈ vertices,
        (∀ w ∈ visited, P w) →
        ∀ w ∈ visit next fuel visited v, P w)
    {visited : List V}
    (hVisited : ∀ w ∈ visited, P w) :
    ∀ w ∈ visitAll next fuel visited vertices, P w := by
  induction vertices generalizing visited with
  | nil => exact hVisited
  | cons v rest ih =>
      apply ih
      · intro more u hu
        exact hVisit more u (List.mem_cons_of_mem _ hu)
      · exact hVisit visited v List.mem_cons_self hVisited

theorem visit_sound
    {P : V → Prop}
    (hNext : ∀ v w, P v → Next next v w → P w)
    (hStart : P v)
    (hVisited : ∀ w ∈ visited, P w) :
    ∀ w ∈ visit next fuel visited v, P w := by
  induction fuel generalizing visited v with
  | zero => exact hVisited
  | succ fuel ih =>
      by_cases hMem : v ∈ visited
      · rw [visit_of_mem next hMem]
        exact hVisited
      · rw [visit_of_not_mem next hMem]
        apply visitAll_sound
        · intro more u hu hMore
          exact ih (hNext v u hStart hu) hMore
        · intro w hw
          cases hw with
          | head => exact hStart
          | tail _ hOld => exact hVisited w hOld

------------------------------------------------------------
-- Completeness
------------------------------------------------------------

variable {next}

/- The vertices of `U` that are not visited. -/
def unvisited (U : Finset V) (visited : List V) : Finset V :=
  U.filter (fun v => v ∉ visited)

theorem card_unvisited_le
    (U : Finset V)
    {visited result : List V}
    (hSubset : visited ⊆ result) :
    (unvisited U result).card ≤ (unvisited U visited).card := by
  apply Finset.card_le_card
  intro v hv
  simp only [unvisited, Finset.mem_filter] at hv ⊢
  exact ⟨hv.1, fun hOld => hv.2 (hSubset hOld)⟩

variable {U : Finset V}

theorem card_unvisited_cons
    (hU : v ∈ U)
    (hNew : v ∉ visited) :
    (unvisited U (v :: visited)).card <
      (unvisited U visited).card := by
  apply Finset.card_lt_card
  refine ⟨?_, ?_⟩
  · intro w hw
    simp only [unvisited, Finset.mem_filter,
      List.mem_cons, not_or] at hw ⊢
    exact ⟨hw.1, hw.2.2⟩
  · intro hBack
    have hMem : v ∈ unvisited U (v :: visited) :=
      hBack (Finset.mem_filter.mpr ⟨hU, hNew⟩)
    exact (Finset.mem_filter.mp hMem).2 List.mem_cons_self

theorem visitAll_complete
    {U : Finset V}
    {fuel : Nat}
    {vertices visited : List V}
    (hVisit :
      ∀ visited, ∀ v ∈ vertices,
        (unvisited U visited).card ≤ fuel →
        v ∈ visit next fuel visited v ∧
          Extends next visited (visit next fuel visited v))
    (hFuel : (unvisited U visited).card ≤ fuel) :
    vertices ⊆ visitAll next fuel visited vertices ∧
      Extends next visited
        (visitAll next fuel visited vertices) := by
  induction vertices generalizing visited with
  | nil => exact ⟨List.nil_subset _, Extends.refl next visited⟩
  | cons v rest ih =>
      rcases hVisit visited v List.mem_cons_self hFuel with
        ⟨hMem, hFirst⟩
      have hLess := card_unvisited_le U hFirst.old
      have hRest := ih
        (fun more u hu =>
          hVisit more u (List.mem_cons_of_mem _ hu))
        (hLess.trans hFuel)
      refine ⟨?_, hFirst.trans hRest.2⟩
      intro u hu
      cases hu with
      | head => exact hRest.2.old hMem
      | tail _ hTail => exact hRest.1 hTail

/-
  With fuel for every vertex that is not visited, the vertex
  itself is discovered and the result is closed.
-/
theorem visit_complete
    (hClosed : ∀ v ∈ U, ∀ w, Next next v w → w ∈ U)
    (hU : v ∈ U)
    (hFuel : (unvisited U visited).card ≤ fuel) :
    v ∈ visit next fuel visited v ∧
      Extends next visited (visit next fuel visited v) := by
  induction fuel generalizing visited v with
  | zero =>
      have hMem : v ∈ visited := by
        by_contra hNew
        have hLess := card_unvisited_cons hU hNew
        omega
      exact ⟨hMem, Extends.refl next visited⟩
  | succ fuel ih =>
      by_cases hMem : v ∈ visited
      · rw [visit_of_mem next hMem]
        exact ⟨hMem, Extends.refl next visited⟩
      · rw [visit_of_not_mem next hMem]
        have hLess := card_unvisited_cons hU hMem
        have hAll := @visitAll_complete V next _ U fuel
          (next v) (v :: visited)
          (fun more u hu hEnough =>
            ih (hClosed v hU u hu) hEnough)
          (by omega)
        refine ⟨hAll.2.old List.mem_cons_self, ?_, ?_⟩
        · exact
            List.Subset.trans (List.subset_cons_self v visited)
              hAll.2.old
        · intro u hu hNew w hw
          by_cases hSame : u = v
          · exact hAll.1 (hSame ▸ hw)
          · refine hAll.2.closed u hu ?_ w hw
            intro hCons
            cases hCons with
            | head => exact hSame rfl
            | tail _ hOld => exact hNew hOld

/- A search discovers exactly what is reachable. -/
theorem mem_visit_iff
    (hClosed : ∀ v ∈ U, ∀ w, Next next v w → w ∈ U)
    (hU : v ∈ U)
    (w : V) :
    w ∈ visit next U.card [] v ↔
      Relation.ReflTransGen (Next next) v w := by
  have hFuel : (unvisited U []).card ≤ U.card :=
    Finset.card_filter_le _ _
  have hComplete := visit_complete hClosed hU hFuel
  constructor
  · intro hw
    refine
      visit_sound next (fun a b hReach hStep => hReach.tail hStep)
        .refl ?_ w hw
    intro u hu
    cases hu
  · intro hReach
    induction hReach with
    | refl => exact hComplete.1
    | @tail a b _ hStep ih =>
        exact hComplete.2.closed a ih List.not_mem_nil b hStep

end Reachability

end Ps3emu
