import Mathlib.Data.List.Perm.Basic
import Mathlib.Order.Lattice

/-
  Binary heaps in a sequence, as `std::push_heap` and
  `std::pop_heap` keep them: a hole moves along a path of the
  tree, and the value is put where it stops.  The element with
  the largest key comes first.

  Key definitions include:
    * `BinaryHeap.pushHeap`, `BinaryHeap.adjustHeap`
    * `BinaryHeap.push`, `BinaryHeap.pop`
    * `BinaryHeap.IsHeap`

  Key theorems include:
    * `BinaryHeap.push_perm`, `BinaryHeap.pop_perm`
    * `BinaryHeap.IsHeap.push`, `BinaryHeap.IsHeap.pop`
    * `BinaryHeap.IsHeap.le_head`
    * `BinaryHeap.push_of_le`
    * `BinaryHeap.pop_of_equal`
-/

------------------------------------------------------------
-- Operations and Permutations
------------------------------------------------------------

namespace Ps3emu

namespace BinaryHeap

variable {α K : Type} [LinearOrder K] (key : α → K)

def parent (i : Nat) : Nat := (i - 1) / 2

/-
  The hole moves up while the parent is less than the value.
  A parent is at a smaller index, so the hole itself bounds
  the number of moves.
-/
def pushHeap
    (value : α) : (fuel hole : Nat) → List α → List α
  | 0, hole, items => items.set hole value
  | fuel + 1, hole, items =>
      let above := items.getD (parent hole) value
      if 0 < hole ∧ key above < key value then
        pushHeap value fuel (parent hole)
          (items.set hole above)
      else items.set hole value

/-
  The hole moves down to a leaf, each time to the child that
  is not less than the other, and the value moves up from it.
  The last inner node can have one child.
-/
def adjustHeap
    (value : α) : (fuel hole : Nat) → List α → List α
  | 0, hole, items => pushHeap key value hole hole items
  | fuel + 1, hole, items =>
      if hole < (items.length - 1) / 2 then
        let right := 2 * (hole + 1)
        let child :=
          if key (items.getD right value) <
              key (items.getD (right - 1) value) then
            right - 1
          else right
        adjustHeap value fuel child
          (items.set hole (items.getD child value))
      else if items.length % 2 = 0 ∧
          hole = (items.length - 2) / 2 then
        let child := 2 * (hole + 1) - 1
        pushHeap key value child child
          (items.set hole (items.getD child value))
      else pushHeap key value hole hole items

/- `push_back` and `push_heap`. -/
def push (items : List α) (value : α) : List α :=
  pushHeap key value items.length items.length
    (items ++ [value])

/- `pop_heap` and `pop_back`. -/
def pop (items : List α) : List α :=
  match items.getLast? with
  | some value =>
      adjustHeap key value items.dropLast.length 0
        items.dropLast
  | none => []

/- No element has a larger key than its parent. -/
def IsHeap (items : List α) : Prop :=
  ∀ i x p, 0 < i → items[i]? = some x →
    items[parent i]? = some p → key x ≤ key p

variable {key} {i : Nat}

theorem parent_lt
    (hPos : 0 < i) :
    parent i < i := by
  unfold parent
  omega

variable {items : List α}

/- What is left when the hole moves from `i` to `j`. -/
theorem eraseIdx_set_perm
    {i j : Nat}
    (hFirst : i < items.length)
    (hSecond : j < items.length)
    (hNe : i ≠ j)
    (value : α) :
    ((items.set i (items.getD j value)).eraseIdx j).Perm
      (items.eraseIdx i) := by
  have hValue : items.getD j value = items[j] :=
    (List.getElem_eq_getD value).symm
  have hLength : j < (items.set i items[j]).length := by
    rw [List.length_set]
    exact hSecond
  have hErased := List.getElem_cons_eraseIdx_perm hLength
  rw [List.getElem_set_of_ne hNe] at hErased
  rw [hValue]
  refine List.Perm.cons_inv (a := items[j]) ?_
  calc
    (items[j] :: (items.set i items[j]).eraseIdx j).Perm
        (items.set i items[j]) := hErased
    (items.set i items[j]).Perm
        (items[j] :: items.eraseIdx i) :=
      List.set_perm_cons_eraseIdx hFirst _

variable {fuel hole : Nat}

theorem pushHeap_perm
    (value : α)
    (hHole : hole < items.length) :
    (pushHeap key value fuel hole items).Perm
      (value :: items.eraseIdx hole) := by
  induction fuel generalizing hole items with
  | zero => exact List.set_perm_cons_eraseIdx hHole value
  | succ fuel ih =>
      unfold pushHeap
      dsimp only
      split
      case isTrue hMoves =>
        have hParent := parent_lt hMoves.1
        refine (ih ?_).trans (.cons _ ?_)
        · rw [List.length_set]
          omega
        · exact
            eraseIdx_set_perm hHole (by omega) (by omega) _
      case isFalse =>
        exact List.set_perm_cons_eraseIdx hHole value

theorem adjustHeap_perm
    (value : α)
    (hHole : hole < items.length) :
    (adjustHeap key value fuel hole items).Perm
      (value :: items.eraseIdx hole) := by
  induction fuel generalizing hole items with
  | zero => exact pushHeap_perm value hHole
  | succ fuel ih =>
      unfold adjustHeap
      dsimp only
      split
      case isTrue hInner =>
        generalize hChild :
          (if key (items.getD (2 * (hole + 1)) value) <
              key (items.getD (2 * (hole + 1) - 1) value) then
            2 * (hole + 1) - 1
          else 2 * (hole + 1)) = child
        have hBounds :
            hole < child ∧ child < items.length := by
          split at hChild
          case isTrue => omega
          case isFalse => omega
        refine (ih ?_).trans (.cons _ ?_)
        · rw [List.length_set]
          exact hBounds.2
        · exact
            eraseIdx_set_perm hHole hBounds.2 (by omega) _
      case isFalse =>
        split
        case isTrue hOne =>
          refine (pushHeap_perm value ?_).trans (.cons _ ?_)
          · rw [List.length_set]
            omega
          · exact
              eraseIdx_set_perm hHole (by omega) (by omega) _
        case isFalse => exact pushHeap_perm value hHole

theorem push_perm
    (items : List α)
    (value : α) :
    (push key items value).Perm (value :: items) := by
  refine (pushHeap_perm value ?_).trans ?_
  · rw [List.length_append, List.length_singleton]
    omega
  · rw [List.eraseIdx_append_of_length_le (Nat.le_refl _)]
    simp

theorem pop_perm
    (first : α)
    (rest : List α) :
    (pop key (first :: rest)).Perm rest := by
  rcases List.eq_nil_or_concat rest with rfl | ⟨init, value, rfl⟩
  · exact .nil
  · have hPop :
        pop key (first :: (init ++ [value])) =
          adjustHeap key value (first :: init).length 0
            (first :: init) := by
      unfold pop
      rw [← List.cons_append, List.getLast?_concat,
        List.dropLast_concat]
    rw [List.concat_eq_append, hPop]
    refine (adjustHeap_perm value (Nat.zero_lt_succ _)).trans ?_
    exact (List.perm_append_singleton value init).symm

------------------------------------------------------------
-- Order
------------------------------------------------------------

/-
  The heap order around a hole: it holds away from the hole,
  and from the children of the hole to its parent.
-/
structure Around
    (key : α → K)
    (items : List α)
    (hole : Nat) : Prop where
  edges :
    ∀ i x p, 0 < i → i ≠ hole → parent i ≠ hole →
      items[i]? = some x → items[parent i]? = some p →
        key x ≤ key p
  skips :
    ∀ i x p, 0 < hole → 0 < i → parent i = hole →
      items[i]? = some x → items[parent hole]? = some p →
        key x ≤ key p

/- No child of the hole has a larger key than the value. -/
def Covers
    (key : α → K)
    (items : List α)
    (hole : Nat)
    (value : α) : Prop :=
  ∀ i x, 0 < i → parent i = hole → items[i]? = some x →
    key x ≤ key value

theorem IsHeap.around_root
    (hHeap : IsHeap key items) :
    Around key items 0 where
  edges i x p hPos _ _ hItem hAbove :=
    hHeap i x p hPos hItem hAbove
  skips _ _ _ hHole := absurd hHole (Nat.lt_irrefl 0)

theorem IsHeap.around_append
    (hHeap : IsHeap key items)
    (value : α) :
    Around key (items ++ [value]) items.length where
  edges i x p hPos hNe _ hItem hAbove := by
    have hLt := (List.getElem?_eq_some_iff.mp hItem).1
    rw [List.length_append, List.length_singleton] at hLt
    have hParent := parent_lt hPos
    rw [List.getElem?_append_left (by omega)]
      at hItem hAbove
    exact hHeap i x p hPos hItem hAbove
  skips i x p _ hPos hParent hItem := by
    have hLt := (List.getElem?_eq_some_iff.mp hItem).1
    rw [List.length_append, List.length_singleton] at hLt
    have hLess := parent_lt hPos
    omega

/- A leaf has no children to cover. -/
theorem covers_of_leaf
    (hLeaf : items.length ≤ 2 * hole + 1)
    (value : α) :
    Covers key items hole value := by
  intro i x hPos hParent hItem
  have hLt := (List.getElem?_eq_some_iff.mp hItem).1
  unfold parent at hParent
  omega

theorem getElem?_of_set_ne
    {i j : Nat}
    {value x : α}
    (hNe : i ≠ j)
    (hItem : (items.set i value)[j]? = some x) :
    items[j]? = some x := by
  rw [List.getElem?_set_ne hNe] at hItem
  exact hItem

theorem eq_of_set_self
    {value x : α}
    (hItem : (items.set i value)[i]? = some x) :
    x = value := by
  rw [List.getElem?_set] at hItem
  grind

variable {value : α}

/- The value fills the hole. -/
theorem Around.isHeap
    (hAround : Around key items hole)
    (hCovers : Covers key items hole value)
    (hStops :
      ∀ p, 0 < hole → items[parent hole]? = some p →
        key value ≤ key p) :
    IsHeap key (items.set hole value) := by
  intro i x p hPos hItem hAbove
  have hParent := parent_lt hPos
  by_cases hSelf : hole = i
  · rw [hSelf] at hItem hAbove hStops
    rw [eq_of_set_self hItem]
    exact
      hStops p hPos (getElem?_of_set_ne (by omega) hAbove)
  · have hOld := getElem?_of_set_ne hSelf hItem
    by_cases hBelow : hole = parent i
    · rw [hBelow] at hAbove hCovers
      rw [eq_of_set_self hAbove]
      exact hCovers i x hPos rfl hOld
    · exact
        hAround.edges i x p hPos (Ne.symm hSelf)
          (Ne.symm hBelow) hOld
          (getElem?_of_set_ne hBelow hAbove)

/- The hole moves up, and its parent down. -/
theorem Around.up
    {above : α}
    (hAround : Around key items hole)
    (hPos : 0 < hole)
    (hAbove : items[parent hole]? = some above) :
    Around key (items.set hole above) (parent hole) := by
  have hHole := parent_lt hPos
  refine ⟨?_, ?_⟩
  · intro i x p hi hNe hNotChild hItem hParent
    have hNeHole : hole ≠ i := by
      rintro rfl
      exact hNotChild rfl
    have hOld := getElem?_of_set_ne hNeHole hItem
    by_cases hBelow : hole = parent i
    · rw [← hBelow] at hParent
      rw [eq_of_set_self hParent]
      exact
        hAround.skips i x above hPos hi hBelow.symm hOld
          hAbove
    · exact
        hAround.edges i x p hi (Ne.symm hNeHole)
          (Ne.symm hBelow) hOld
          (getElem?_of_set_ne hBelow hParent)
  · intro i x p hParentPos hi hSibling hItem hTop
    have hHigher := parent_lt hParentPos
    have hGrand := getElem?_of_set_ne (by omega) hTop
    have hStep : key above ≤ key p :=
      hAround.edges (parent hole) above p hParentPos
        (by omega) (by omega) hAbove hGrand
    by_cases hSelf : hole = i
    · rw [← hSelf] at hItem
      rw [eq_of_set_self hItem]
      exact hStep
    · have hOld := getElem?_of_set_ne hSelf hItem
      have hSide : key x ≤ key above :=
        hAround.edges i x above hi (Ne.symm hSelf)
          (by omega) hOld (by rw [hSibling]; exact hAbove)
      exact le_trans hSide hStep

theorem Around.covers_up
    {above value : α}
    (hAround : Around key items hole)
    (hPos : 0 < hole)
    (hAbove : items[parent hole]? = some above)
    (hLess : key above < key value) :
    Covers key (items.set hole above) (parent hole) value := by
  have hHole := parent_lt hPos
  intro i x hi hSibling hItem
  by_cases hSelf : hole = i
  · rw [← hSelf] at hItem
    rw [eq_of_set_self hItem]
    exact le_of_lt hLess
  · have hOld := getElem?_of_set_ne hSelf hItem
    have hSide : key x ≤ key above :=
      hAround.edges i x above hi (Ne.symm hSelf) (by omega)
        hOld (by rw [hSibling]; exact hAbove)
    exact le_trans hSide (le_of_lt hLess)

/- The hole moves down to a child that covers the others. -/
theorem Around.down
    {hole child : Nat}
    {below : α}
    (hAround : Around key items hole)
    (hPos : 0 < child)
    (hParent : parent child = hole)
    (hBelow : items[child]? = some below)
    (hCovers : Covers key items hole below) :
    Around key (items.set hole below) child := by
  have hHole := parent_lt hPos
  rw [hParent] at hHole
  refine ⟨?_, ?_⟩
  · intro i x p hi hNe hNotChild hItem hAbove
    have hi' := parent_lt hi
    by_cases hSelf : hole = i
    · rw [hSelf] at hItem hAbove hAround hParent
      rw [eq_of_set_self hItem]
      exact
        hAround.skips child below p hi hPos hParent hBelow
          (getElem?_of_set_ne (by omega) hAbove)
    · have hOld := getElem?_of_set_ne hSelf hItem
      by_cases hSibling : hole = parent i
      · rw [← hSibling] at hAbove
        rw [eq_of_set_self hAbove]
        exact hCovers i x hi hSibling.symm hOld
      · exact
          hAround.edges i x p hi (Ne.symm hSelf)
            (Ne.symm hSibling) hOld
            (getElem?_of_set_ne hSibling hAbove)
  · intro i x p _ hi hUnder hItem hAbove
    have hi' := parent_lt hi
    rw [hParent] at hAbove
    rw [eq_of_set_self hAbove]
    exact
      hAround.edges i x below hi (by omega) (by omega)
        (getElem?_of_set_ne (by omega) hItem)
        (by rw [hUnder]; exact hBelow)

------------------------------------------------------------
-- Heaps
------------------------------------------------------------

theorem getElem?_of_getD
    (hLt : i < items.length)
    (value : α) :
    items[i]? = some (items.getD i value) := by
  rw [List.getElem?_eq_getElem hLt,
    List.getElem_eq_getD value]

theorem pushHeap_isHeap
    (value : α)
    (hAround : Around key items hole)
    (hCovers : Covers key items hole value)
    (hHole : hole < items.length)
    (hFuel : hole ≤ fuel) :
    IsHeap key (pushHeap key value fuel hole items) := by
  induction fuel generalizing hole items with
  | zero =>
      refine hAround.isHeap hCovers ?_
      intro p hPos
      omega
  | succ fuel ih =>
      unfold pushHeap
      dsimp only
      split
      case isTrue hMoves =>
        have hParent := parent_lt hMoves.1
        have hAbove :=
          getElem?_of_getD (Nat.lt_trans hParent hHole) value
        refine
          ih (hAround.up hMoves.1 hAbove)
            (hAround.covers_up hMoves.1 hAbove hMoves.2)
            ?_ (by omega)
        rw [List.length_set]
        omega
      case isFalse hStops =>
        refine hAround.isHeap hCovers ?_
        intro p hPos hAbove
        rw [getElem?_of_getD (Nat.lt_trans (parent_lt hPos) hHole)
          value] at hAbove
        cases hAbove
        exact not_lt.mp (fun hLess => hStops ⟨hPos, hLess⟩)

/- The children of an inner node, of which one is largest. -/
theorem covers_child
    {hole child : Nat}
    (hChild :
      (if key (items.getD (2 * (hole + 1)) value) <
          key (items.getD (2 * (hole + 1) - 1) value) then
        2 * (hole + 1) - 1
      else 2 * (hole + 1)) = child) :
    Covers key items hole (items.getD child value) := by
  intro i x hPos hParent hItem
  have hSome := hItem
  rw [getElem?_of_getD
    (List.getElem?_eq_some_iff.mp hItem).1 value] at hSome
  cases hSome
  have hCases :
      i = 2 * (hole + 1) - 1 ∨ i = 2 * (hole + 1) := by
    unfold parent at hParent
    omega
  split at hChild
  case isTrue hLess =>
    rw [← hChild]
    rcases hCases with rfl | rfl
    · exact le_refl _
    · exact le_of_lt hLess
  case isFalse hLe =>
    rw [← hChild]
    rcases hCases with rfl | rfl
    · exact not_lt.mp hLe
    · exact le_refl _

theorem adjustHeap_isHeap
    (value : α)
    (hAround : Around key items hole)
    (hHole : hole < items.length)
    (hFuel : items.length ≤ hole + fuel) :
    IsHeap key (adjustHeap key value fuel hole items) := by
  induction fuel generalizing hole items with
  | zero => omega
  | succ fuel ih =>
      unfold adjustHeap
      dsimp only
      split
      case isTrue hInner =>
        generalize hChild :
          (if key (items.getD (2 * (hole + 1)) value) <
              key (items.getD (2 * (hole + 1) - 1) value) then
            2 * (hole + 1) - 1
          else 2 * (hole + 1)) = child
        have hBounds :
            hole < child ∧ child < items.length ∧
              parent child = hole := by
          unfold parent
          split at hChild
          case isTrue => omega
          case isFalse => omega
        refine
          ih
            (hAround.down (by omega) hBounds.2.2
              (getElem?_of_getD hBounds.2.1 value)
              (covers_child hChild))
            ?_ ?_
        · rw [List.length_set]
          exact hBounds.2.1
        · rw [List.length_set]
          omega
      case isFalse hLast =>
        split
        case isTrue hOne =>
          have hBounds :
              2 * (hole + 1) - 1 < items.length ∧
                items.length ≤ 2 * (hole + 1) ∧
                parent (2 * (hole + 1) - 1) = hole := by
            unfold parent
            omega
          have hBelow := getElem?_of_getD hBounds.1 value
          have hCovers :
              Covers key items hole
                (items.getD (2 * (hole + 1) - 1) value) := by
            intro i x hPos hParent hItem
            have hLt :=
              (List.getElem?_eq_some_iff.mp hItem).1
            have hOnly : i = 2 * (hole + 1) - 1 := by
              unfold parent at hParent
              omega
            rw [hOnly, hBelow] at hItem
            cases hItem
            exact le_refl _
          refine
            pushHeap_isHeap value
              (hAround.down (by omega) hBounds.2.2 hBelow
                hCovers)
              (covers_of_leaf ?_ value) ?_ (Nat.le_refl _)
          · rw [List.length_set]
            omega
          · rw [List.length_set]
            omega
        case isFalse hNone =>
          exact
            pushHeap_isHeap value hAround
              (covers_of_leaf (by omega) value) hHole
              (Nat.le_refl _)

theorem IsHeap.push
    (hHeap : IsHeap key items)
    (value : α) :
    IsHeap key (push key items value) := by
  refine
    pushHeap_isHeap value (hHeap.around_append value)
      (covers_of_leaf ?_ value) ?_ (Nat.le_refl _)
  · rw [List.length_append, List.length_singleton]
    omega
  · rw [List.length_append, List.length_singleton]
    omega

theorem IsHeap.dropLast
    (hHeap : IsHeap key items) :
    IsHeap key items.dropLast := by
  intro i x p hPos hItem hAbove
  have hKept :
      ∀ (j : Nat) (y : α), items.dropLast[j]? = some y →
        items[j]? = some y := by
    intro j y hy
    rw [List.getElem?_dropLast] at hy
    split at hy
    case isTrue => exact hy
    case isFalse => cases hy
  exact hHeap i x p hPos (hKept i x hItem) (hKept _ p hAbove)

theorem IsHeap.pop
    (hHeap : IsHeap key items) :
    IsHeap key (pop key items) := by
  unfold BinaryHeap.pop
  split
  case h_1 value hValue =>
    by_cases hEmpty : items.dropLast.length = 0
    · rw [List.length_eq_zero_iff.mp hEmpty]
      intro i x p _ hItem
      cases hItem
    · exact
        adjustHeap_isHeap value hHeap.dropLast.around_root
          (by omega) (by omega)
  case h_2 =>
    intro i x p _ hItem
    cases hItem

variable {rest : List α} {x : α}

/- The first element has the largest key. -/
theorem IsHeap.le_head
    {first : α}
    (hHeap : IsHeap key (first :: rest))
    (hMem : x ∈ first :: rest) :
    key x ≤ key first := by
  rcases List.mem_iff_getElem?.mp hMem with ⟨i, hItem⟩
  induction i using Nat.strongRecOn generalizing x with
  | ind i ih =>
      by_cases hPos : 0 < i
      · have hParent := parent_lt hPos
        have hLt := (List.getElem?_eq_some_iff.mp hItem).1
        have hAbove :=
          getElem?_of_getD (Nat.lt_trans hParent hLt) x
        have hStep := hHeap i x _ hPos hItem hAbove
        exact
          le_trans hStep
            (ih _ hParent (List.mem_of_getElem? hAbove) hAbove)
      · have hZero : i = 0 := by omega
        rw [hZero] at hItem
        cases hItem
        exact le_refl _

------------------------------------------------------------
-- Ties
------------------------------------------------------------

theorem head?_set
    (hPos : 0 < hole)
    (value : α) :
    (items.set hole value).head? = items.head? := by
  rcases Nat.exists_eq_add_of_lt hPos with ⟨k, rfl⟩
  cases items with
  | nil => rfl
  | cons first rest => simp

theorem head?_fill
    (hHole : hole < items.length)
    (value : α) :
    (items.set hole value).head? = some value ∨
      (0 < hole ∧
        (items.set hole value).head? = items.head?) := by
  rcases Nat.eq_zero_or_pos hole with rfl | hPos
  · left
    rw [List.head?_eq_getElem?, List.getElem?_set_self hHole]
  · exact .inr ⟨hPos, head?_set hPos value⟩

/- The value comes first, or the first element stays. -/
theorem head?_pushHeap
    (value : α)
    (hHole : hole < items.length) :
    (pushHeap key value fuel hole items).head? = some value ∨
      (0 < hole ∧
        (pushHeap key value fuel hole items).head? =
          items.head?) := by
  induction fuel generalizing hole items with
  | zero => exact head?_fill hHole value
  | succ fuel ih =>
      unfold pushHeap
      dsimp only
      split
      case isTrue hMoves =>
        have hParent := parent_lt hMoves.1
        have hLength :
            parent hole <
              (items.set hole
                (items.getD (parent hole) value)).length := by
          rw [List.length_set]
          omega
        rcases ih hLength with hValue | ⟨-, hKept⟩
        · exact .inl hValue
        · rw [head?_set hMoves.1] at hKept
          exact .inr ⟨hMoves.1, hKept⟩
      case isFalse => exact head?_fill hHole value

theorem head?_push
    (items : List α)
    (value : α) :
    (push key items value).head? = some value ∨
      (push key items value).head? = items.head? := by
  have hHole : items.length < (items ++ [value]).length := by
    rw [List.length_append, List.length_singleton]
    omega
  have hEither :
      (push key items value).head? = some value ∨
        (0 < items.length ∧
          (push key items value).head? =
            (items ++ [value]).head?) :=
    head?_pushHeap value hHole
  rcases hEither with hValue | ⟨hPos, hKept⟩
  · exact .inl hValue
  · right
    rw [hKept]
    cases items with
    | nil => cases hPos
    | cons first rest => rfl

/- A value that is not larger than any is put at the end. -/
theorem pushHeap_of_le
    (value : α)
    (hAll : ∀ x ∈ items, key value ≤ key x) :
    pushHeap key value fuel hole items =
      items.set hole value := by
  cases fuel with
  | zero => rfl
  | succ fuel =>
      unfold pushHeap
      dsimp only
      refine if_neg ?_
      rintro ⟨-, hLess⟩
      rw [List.getD_eq_getElem?_getD] at hLess
      cases hAbove : items[parent hole]? with
      | none =>
          rw [hAbove] at hLess
          exact lt_irrefl _ hLess
      | some above =>
          rw [hAbove] at hLess
          exact
            absurd hLess
              (not_lt.mpr (hAll _ (List.mem_of_getElem? hAbove)))

section

variable (hAll : ∀ x ∈ items, key value ≤ key x)

include hAll

theorem push_of_le :
    push key items value = items ++ [value] := by
  unfold push
  rw [pushHeap_of_le value ?_,
    List.set_append_right _ _ (Nat.le_refl _)]
  · simp
  · intro x hMem
    rcases List.mem_append.mp hMem with hOld | hNew
    · exact hAll x hOld
    · rw [List.mem_singleton.mp hNew]

theorem le_getD
    (i : Nat) :
    key value ≤ key (items.getD i value) := by
  rw [List.getD_eq_getElem?_getD]
  cases hItem : items[i]? with
  | none => exact le_refl _
  | some x => exact hAll x (List.mem_of_getElem? hItem)

theorem le_of_mem_set
    (hole child : Nat) :
    ∀ x ∈ items.set hole (items.getD child value),
      key value ≤ key x := by
  intro x hMem
  rcases List.mem_or_eq_of_mem_set hMem with hOld | rfl
  · exact hAll x hOld
  · exact le_getD hAll child

/- Below the root, the walk leaves the first element. -/
theorem head?_adjustHeap
    (hPos : 0 < hole) :
    (adjustHeap key value fuel hole items).head? =
      items.head? := by
  induction fuel generalizing hole items with
  | zero =>
      unfold adjustHeap
      rw [pushHeap_of_le value hAll, head?_set hPos]
  | succ fuel ih =>
      unfold adjustHeap
      dsimp only
      split
      case isTrue hInner =>
        rw [ih (le_of_mem_set hAll _ _) (by split <;> omega),
          head?_set hPos]
      case isFalse =>
        split
        case isTrue hOne =>
          rw [pushHeap_of_le value (le_of_mem_set hAll _ _),
            head?_set (by omega), head?_set hPos]
        case isFalse =>
          rw [pushHeap_of_le value hAll, head?_set hPos]

end

/- With at most three equal elements, the next comes first. -/
theorem pop_of_equal
    {first : α}
    (hEqual : ∀ x ∈ rest, ∀ y ∈ rest, key x = key y)
    (hFew : rest.length ≤ 2) :
    pop key (first :: rest) = rest := by
  rcases rest with _ | ⟨second, _ | ⟨third, _ | ⟨d, more⟩⟩⟩
  · rfl
  · simp [pop, adjustHeap, pushHeap]
  · have hSame : key second = key third :=
      hEqual _ (by simp) _ (by simp)
    simp [pop, adjustHeap, pushHeap_of_le, hSame]
  · simp at hFew

/- With four or more, the third comes first. -/
theorem head?_pop_of_equal
    {first second third : α}
    (hRest : rest ≠ [])
    (hEqual :
      ∀ x ∈ second :: third :: rest,
        ∀ y ∈ second :: third :: rest, key x = key y) :
    (pop key (first :: second :: third :: rest)).head? =
      some third := by
  rcases List.eq_nil_or_concat rest with rfl | ⟨init, value, rfl⟩
  · exact absurd rfl hRest
  · rw [List.concat_eq_append] at hEqual ⊢
    have hPop :
        pop key (first :: second :: third :: (init ++ [value])) =
          adjustHeap key value (init.length + 3) 0
            (first :: second :: third :: init) := by
      unfold pop
      rw [← List.cons_append, ← List.cons_append,
        ← List.cons_append, List.getLast?_concat,
        List.dropLast_concat]
      rfl
    have hSame : key second = key third :=
      hEqual _ (by simp) _ (by simp)
    have hInner : 0 < (init.length + 3 - 1) / 2 := by omega
    rw [hPop]
    unfold adjustHeap
    dsimp only [List.length_cons]
    rw [if_pos hInner]
    have hRight :
        (if key ((first :: second :: third :: init).getD
              (2 * (0 + 1)) value) <
            key ((first :: second :: third :: init).getD
              (2 * (0 + 1) - 1) value) then
          2 * (0 + 1) - 1
        else 2 * (0 + 1)) = 2 := by
      refine if_neg ?_
      change ¬ key third < key second
      rw [hSame]
      exact lt_irrefl _
    rw [hRight]
    refine head?_adjustHeap ?_ (Nat.zero_lt_succ 1)
    intro x hMem
    have hIn :
        x ∈ second :: third :: (init ++ [value]) := by
      simp at hMem ⊢
      tauto
    exact le_of_eq (hEqual _ (by simp) _ hIn)

end BinaryHeap

end Ps3emu
