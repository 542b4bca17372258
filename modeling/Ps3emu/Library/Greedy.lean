import Mathlib.Algebra.BigOperators.Group.List.Basic
import Mathlib.Algebra.Ring.Nat
import Mathlib.Data.List.Sort

/-
  Greedy selection: a list is walked in order, and each item
  is accepted whose size still fits what is left.

  Key definitions include:
    * `Greedy.load`
    * `Greedy.accept`

  Key theorems include:
    * `Greedy.load_accept_le`
    * `Greedy.mem_accept_iff`
    * `Greedy.foldl_accept`
-/

------------------------------------------------------------
-- Admission
------------------------------------------------------------

namespace Ps3emu

namespace Greedy

variable {α : Type} (size : α → Nat)

/- The sum of the sizes. -/
def load (items : List α) : Nat := (items.map size).sum

def accept : Nat → List α → List α
  | _, [] => []
  | left, item :: rest =>
      if size item ≤ left then
        item :: accept (left - size item) rest
      else accept left rest

variable {size}

@[simp] theorem load_nil : load size [] = 0 := rfl

@[simp] theorem load_cons
    (item : α)
    (items : List α) :
    load size (item :: items) =
      size item + load size items :=
  List.sum_cons

variable {first second : List α}

theorem load_perm
    (hPerm : first.Perm second) :
    load size first = load size second :=
  (hPerm.map size).sum_eq

theorem load_sublist
    (hSublist : first.Sublist second) :
    load size first ≤ load size second := by
  induction hSublist with
  | slnil => exact Nat.le_refl _
  | cons item _ ih =>
      rw [load_cons]
      omega
  | cons_cons item _ ih =>
      rw [load_cons, load_cons]
      omega

/- Some of the items, each at most once, are no larger. -/
theorem load_subset
    (hNodup : first.Nodup)
    (hSubset : first ⊆ second) :
    load size first ≤ load size second := by
  rcases List.subperm_of_subset hNodup hSubset with
    ⟨middle, hPerm, hSublist⟩
  rw [← load_perm hPerm]
  exact load_sublist hSublist

variable {items : List α}

theorem load_congr
    {other : α → Nat}
    (hSame : ∀ item ∈ items, size item = other item) :
    load size items = load other items := by
  unfold load
  rw [List.map_congr_left hSame]

theorem accept_sublist
    (left : Nat)
    (items : List α) :
    (accept size left items).Sublist items := by
  induction items generalizing left with
  | nil => exact List.Sublist.refl _
  | cons item rest ih =>
      unfold accept
      split
      case isTrue => exact (ih _).cons_cons item
      case isFalse => exact (ih _).cons item

/- What is accepted fits. -/
theorem load_accept_le
    (left : Nat)
    (items : List α) :
    load size (accept size left items) ≤ left := by
  induction items generalizing left with
  | nil => exact Nat.zero_le _
  | cons item rest ih =>
      unfold accept
      split
      case isTrue hFits =>
        have hRest := ih (left - size item)
        rw [load_cons]
        omega
      case isFalse => exact ih left

theorem accept_congr
    {other : α → Nat}
    (hSame : ∀ item ∈ items, size item = other item)
    (left : Nat) :
    accept size left items = accept other left items := by
  induction items generalizing left with
  | nil => rfl
  | cons item rest ih =>
      have hHead := hSame item List.mem_cons_self
      have hRest :=
        ih (fun x hx => hSame x (List.mem_cons_of_mem _ hx))
      unfold accept
      rw [hHead, hRest, hRest]

/- The walk as a loop with an accumulator. -/
theorem foldl_accept
    (accepted : List α)
    (left : Nat)
    (items : List α) :
    (items.foldl
        (fun state item =>
          if size item ≤ state.2 then
            (state.1 ++ [item], state.2 - size item)
          else state)
        (accepted, left)).1 =
      accepted ++ accept size left items := by
  induction items generalizing accepted left with
  | nil => exact (List.append_nil _).symm
  | cons item rest ih =>
      rw [List.foldl_cons]
      unfold accept
      split
      case isTrue =>
        rw [ih, List.append_assoc, List.singleton_append]
      case isFalse => exact ih _ _

/-
  Of the items in order, those are accepted that fit beside
  the accepted ones before them.
-/
theorem mem_accept_iff
    [LinearOrder α]
    {left : Nat}
    (hSorted : items.Pairwise (· < ·))
    {item : α}
    (hMem : item ∈ items) :
    item ∈ accept size left items ↔
      load size
            ((accept size left items).filter (· < item)) +
          size item ≤ left := by
  induction items generalizing left with
  | nil => cases hMem
  | cons first rest ih =>
      rw [List.pairwise_cons] at hSorted
      have hNone :
          ∀ left,
            (accept size left rest).filter (· < first) = [] := by
        intro left
        rw [List.filter_eq_nil_iff]
        intro x hx
        have hLess :=
          hSorted.1 x ((accept_sublist left rest).subset hx)
        simpa using le_of_lt hLess
      unfold accept
      rcases List.mem_cons.mp hMem with rfl | hRest
      · split
        case isTrue hFits =>
          rw [List.filter_cons_of_neg (by simp), hNone]
          simpa using hFits
        case isFalse hLarge =>
          rw [hNone, load_nil, Nat.zero_add]
          constructor
          · intro hIn
            have hLess :=
              hSorted.1 item ((accept_sublist left rest).subset hIn)
            exact absurd hLess (lt_irrefl item)
          · intro hFits
            exact absurd hFits hLarge
      · have hLess := hSorted.1 item hRest
        split
        case isTrue hFits =>
          rw [List.filter_cons_of_pos (by simpa using hLess),
            load_cons, List.mem_cons, ih hSorted.2 hRest]
          constructor
          · rintro (rfl | hIn)
            · exact absurd hLess (lt_irrefl item)
            · omega
          · intro hIn
            right
            omega
        case isFalse => exact ih hSorted.2 hRest

end Greedy

end Ps3emu
