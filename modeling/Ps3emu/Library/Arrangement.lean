import Mathlib.Data.List.Sort
import Mathlib.Tactic.Common

/-
  Lists made of groups of a fixed length that are kept in
  order: where an element goes, and what is at a position.

  Key theorems include:
    * `Arrangement.exists_split`
    * `Arrangement.orderedInsert_between`
    * `Arrangement.dropWhile_group`
    * `Arrangement.eraseP_between`
    * `Arrangement.length_flatMap`
    * `Arrangement.getElem?_flatMap`
    * `Arrangement.mapM_eq_some_map`
-/

namespace Ps3emu

namespace Arrangement

variable {α β : Type} {l : List α}

/-
  If each element of an ordered list is of the lower or of the
  upper kind, and only lower ones stand before a lower one,
  the list falls into two parts.
-/
theorem exists_split
    (P Q : α → Prop)
    (hEach : ∀ a ∈ l, P a ∨ Q a)
    (hOrder : l.Pairwise (fun a b => P b → P a)) :
    ∃ l₁ l₂, l = l₁ ++ l₂ ∧ (∀ a ∈ l₁, P a) ∧
      ∀ a ∈ l₂, Q a := by
  induction l with
  | nil =>
      exact
        ⟨[], [], rfl, List.forall_mem_nil _,
          List.forall_mem_nil _⟩
  | cons a l ih =>
      rcases List.forall_mem_cons.mp hEach with
        ⟨hFirst, hRest⟩
      rcases List.pairwise_cons.mp hOrder with
        ⟨hHead, hTail⟩
      by_cases hLow : P a
      · rcases ih hRest hTail with ⟨l₁, l₂, rfl, hP, hQ⟩
        exact
          ⟨a :: l₁, l₂, rfl,
            List.forall_mem_cons.mpr ⟨hLow, hP⟩, hQ⟩
      · refine
          ⟨[], a :: l, rfl, List.forall_mem_nil _,
            List.forall_mem_cons.mpr
              ⟨hFirst.resolve_left hLow, ?_⟩⟩
        intro b hb
        exact
          (hRest b hb).resolve_left
            (fun hB => hLow (hHead b hb hB))

theorem orderedInsert_between
    (r : β → β → Prop) [DecidableRel r]
    {x : β}
    {l₁ l₂ : List β}
    (hBefore : ∀ b ∈ l₁, ¬ r x b)
    (hAfter : ∀ b ∈ l₂, r x b) :
    (l₁ ++ l₂).orderedInsert r x = l₁ ++ x :: l₂ := by
  induction l₁ with
  | nil =>
      cases l₂ with
      | nil => rfl
      | cons b l₂ =>
          exact
            List.orderedInsert_cons_of_le r l₂
              (hAfter b List.mem_cons_self)
  | cons b l₁ ih =>
      rcases List.forall_mem_cons.mp hBefore with
        ⟨hHead, hTail⟩
      rw [List.cons_append,
        List.orderedInsert_of_not_le r _ hHead, ih hTail]
      rfl

/- The search for the first element of the right kind. -/
theorem dropWhile_group
    {p : β → Bool}
    {x : β}
    {l₁ l₂ : List β}
    (hBefore : ∀ b ∈ l₁, p b = true)
    (hFound : p x = false) :
    (l₁ ++ x :: l₂).dropWhile p = x :: l₂ := by
  rw [List.dropWhile_append_of_pos hBefore,
    List.dropWhile_cons_of_neg (by simp [hFound])]

theorem eraseP_between
    {p : β → Bool}
    {x : β}
    {l₁ l₂ : List β}
    (hBefore : ∀ b ∈ l₁, p b = false)
    (hFound : p x = true) :
    (l₁ ++ x :: l₂).eraseP p = l₁ ++ l₂ := by
  rw [List.eraseP_append_right _
      (fun b hb => by simp [hBefore b hb]),
    List.eraseP_cons_of_pos hFound]

theorem length_flatMap
    (f : α → List β)
    {n : Nat}
    (hLength : ∀ a ∈ l, (f a).length = n) :
    (l.flatMap f).length = l.length * n := by
  induction l with
  | nil => simp
  | cons a l ih =>
      rcases List.forall_mem_cons.mp hLength with
        ⟨hHead, hTail⟩
      rw [List.flatMap_cons, List.length_append, hHead,
        ih hTail, List.length_cons, Nat.succ_mul]
      omega

/- A position in a list of groups of `n` elements. -/
theorem getElem?_flatMap
    (f : α → List β)
    {n : Nat}
    (hLength : ∀ a ∈ l, (f a).length = n)
    (k : Nat)
    {i : Nat}
    (hi : i < n) :
    (l.flatMap f)[k * n + i]? =
      l[k]?.bind (fun a => (f a)[i]?) := by
  induction l generalizing k with
  | nil => simp
  | cons a l ih =>
      rcases List.forall_mem_cons.mp hLength with
        ⟨hHead, hTail⟩
      rw [List.flatMap_cons]
      cases k with
      | zero =>
          rw [Nat.zero_mul, Nat.zero_add,
            List.getElem?_append_left (by omega)]
          rfl
      | succ k =>
          have hIndex :
              (k + 1) * n + i = (f a).length + (k * n + i) := by
            rw [hHead, Nat.succ_mul]
            omega
          rw [hIndex,
            List.getElem?_append_right (Nat.le_add_right _ _),
            Nat.add_sub_cancel_left, ih hTail]
          rfl

theorem mapM_eq_some_map
    {f : α → Option β}
    {g : α → β}
    (hEach : ∀ a ∈ l, f a = some (g a)) :
    l.mapM f = some (l.map g) := by
  induction l with
  | nil => rfl
  | cons a l ih =>
      rcases List.forall_mem_cons.mp hEach with
        ⟨hHead, hTail⟩
      simp [List.mapM_cons, hHead, ih hTail]

end Arrangement

end Ps3emu
