import Mathlib.Algebra.GroupWithZero.Nat
import Mathlib.Tactic.Common

/-
  Loops that advance through a stream of items of variable
  length.  An item says how long it is and whether it is the
  last one; a loop folds a body over the items that it meets.

  Key definitions include:
    * `Cursor.Item`
    * `Cursor.Walk`
    * `Cursor.Reaches`
    * `Cursor.loop`, `Cursor.collect`

  Key theorems include:
    * `Cursor.loop_iff`
    * `Cursor.Walk.unique`, `Cursor.Walk.congr`
    * `Cursor.Walk.map`, `Cursor.Walk.exists_of_map`
    * `Cursor.Walk.widen`
    * `Cursor.Walk.apart`, `Cursor.Walk.stop_eq`
    * `Cursor.Walk.mem_iff_reaches`
    * `Cursor.exists_walk_iff`
-/

------------------------------------------------------------
-- Walks
------------------------------------------------------------

namespace Ps3emu

namespace Cursor

structure Item (A : Type) where
  value : A
  size : Nat
  isLast : Bool

def Item.map
    {A B : Type}
    (f : A → B)
    (i : Item A) : Item B :=
  ⟨f i.value, i.size, i.isLast⟩

variable {A B : Type}

/-
  The items from a position on, each with its position, up to
  the first last one or the limit, and where they stop.
-/
inductive Walk
    (item : Nat → Option (Item A))
    (limit : Nat) :
    Nat → List (Nat × Item A) → Nat → Prop where
  | done
      {pos : Nat}
      (hLimit : limit ≤ pos) :
      Walk item limit pos [] pos
  | last
      {pos : Nat}
      {i : Item A}
      (hLimit : pos < limit)
      (hItem : item pos = some i)
      (hLast : i.isLast = true) :
      Walk item limit pos [(pos, i)] (pos + i.size)
  | more
      {pos stop : Nat}
      {i : Item A}
      {rest : List (Nat × Item A)}
      (hLimit : pos < limit)
      (hItem : item pos = some i)
      (hLast : i.isLast = false)
      (hRest : Walk item limit (pos + i.size) rest stop) :
      Walk item limit pos ((pos, i) :: rest) stop

/-
  `while (pos < limit)`: decode an item, run the body, advance
  by the size, and leave the loop after the last item.
-/
def loop
    (item : Nat → Option (Item A))
    (limit : Nat)
    (body : B → Nat → A → Option B) :
    Nat → Nat → B → Option (B × Nat)
  | 0, pos, b => if pos < limit then none else some (b, pos)
  | fuel + 1, pos, b =>
      if pos < limit then
        (item pos).bind (fun i =>
          (body b pos i.value).bind (fun b' =>
            if i.isLast then some (b', pos + i.size)
            else loop item limit body fuel (pos + i.size) b'))
      else some (b, pos)

/- Run a body on the items of a walk. -/
def runItems
    (body : B → Nat → A → Option B) :
    List (Nat × Item A) → B → Option B
  | [], b => some b
  | (pos, i) :: rest, b =>
      (body b pos i.value).bind (runItems body rest)

/-
  A loop whose items are not empty gives a result if and only
  if there is a walk and the body succeeds on its items.
-/
theorem loop_iff
    {item : Nat → Option (Item A)}
    {limit : Nat}
    (body : B → Nat → A → Option B)
    (hSize : ∀ pos i, item pos = some i → 0 < i.size)
    (fuel pos stop : Nat)
    (b b' : B)
    (hFuel : limit ≤ pos + fuel) :
    loop item limit body fuel pos b = some (b', stop) ↔
      ∃ items,
        Walk item limit pos items stop ∧
          runItems body items b = some b' := by
  induction fuel generalizing pos b with
  | zero =>
      have hDone : ¬ pos < limit := by omega
      rw [loop, if_neg hDone]
      constructor
      · intro hEq
        obtain ⟨rfl, rfl⟩ := Prod.mk.inj (Option.some.inj hEq)
        exact ⟨[], .done (Nat.le_of_not_lt hDone), rfl⟩
      · rintro ⟨items, hWalk, hRun⟩
        cases hWalk with
        | done => rw [← Option.some.inj hRun]
        | last hLimit => exact absurd hLimit hDone
        | more hLimit => exact absurd hLimit hDone
  | succ fuel ih =>
      rw [loop]
      split
      case isFalse hDone =>
        constructor
        · intro hEq
          obtain ⟨rfl, rfl⟩ :=
            Prod.mk.inj (Option.some.inj hEq)
          exact ⟨[], .done (Nat.le_of_not_lt hDone), rfl⟩
        · rintro ⟨items, hWalk, hRun⟩
          cases hWalk with
          | done => rw [← Option.some.inj hRun]
          | last hLimit => exact absurd hLimit hDone
          | more hLimit => exact absurd hLimit hDone
      case isTrue hLimit =>
        constructor
        · intro hEq
          rcases Option.bind_eq_some_iff.mp hEq with
            ⟨i, hItem, hBody⟩
          rcases Option.bind_eq_some_iff.mp hBody with
            ⟨c, hFirst, hRest⟩
          have hPos := hSize pos i hItem
          split at hRest
          case isTrue hLast =>
            obtain ⟨rfl, rfl⟩ :=
              Prod.mk.inj (Option.some.inj hRest)
            refine ⟨[(pos, i)], .last hLimit hItem hLast, ?_⟩
            rw [runItems, hFirst]
            rfl
          case isFalse hLast =>
            rw [ih _ _ (by omega)] at hRest
            rcases hRest with ⟨items, hWalk, hRun⟩
            refine ⟨(pos, i) :: items, ?_, ?_⟩
            · exact
                .more hLimit hItem
                  (Bool.not_eq_true _ ▸ hLast) hWalk
            · rw [runItems, hFirst]
              exact hRun
        · rintro ⟨items, hWalk, hRun⟩
          cases hWalk with
          | done hDone => omega
          | @last _ i _ hItem hLast =>
              rw [runItems] at hRun
              rcases Option.bind_eq_some_iff.mp hRun with
                ⟨c, hFirst, hEnd⟩
              obtain rfl := Option.some.inj hEnd
              simp [hItem, hFirst, hLast]
          | @more _ _ i rest _ hItem hLast hRest =>
              rw [runItems] at hRun
              rcases Option.bind_eq_some_iff.mp hRun with
                ⟨c, hFirst, hEnd⟩
              have hPos := hSize pos i hItem
              simp only [hItem, hFirst, hLast,
                Option.bind_some, Bool.false_eq_true, if_false]
              rw [ih _ _ (by omega)]
              exact ⟨rest, hRest, hEnd⟩

/- A body that sees only the images of the items. -/
theorem runItems_map
    {C : Type}
    (body : B → Nat → C → Option B)
    (f : A → C)
    (items : List (Nat × Item A))
    (b : B) :
    runItems body (items.map (fun x => (x.1, x.2.map f))) b =
      runItems (fun b pos a => body b pos (f a)) items b := by
  induction items generalizing b with
  | nil => rfl
  | cons x rest ih =>
      rw [List.map_cons, runItems, runItems]
      congr 1
      funext b'
      exact ih b'

------------------------------------------------------------
-- Facts about Walks
------------------------------------------------------------

namespace Walk

variable {item : Nat → Option (Item A)} {limit pos stop : Nat}
variable {items : List (Nat × Item A)}

/- The stream determines its walk. -/
theorem unique
    {stop' : Nat}
    {items' : List (Nat × Item A)}
    (hWalk : Walk item limit pos items stop)
    (hOther : Walk item limit pos items' stop') :
    items = items' ∧ stop = stop' := by
  induction hWalk generalizing items' stop' with
  | done hLimit =>
      cases hOther with
      | done => exact ⟨rfl, rfl⟩
      | last hLess => omega
      | more hLess => omega
  | last hLimit hItem hLast =>
      cases hOther with
      | done hDone => omega
      | last _ hItem' =>
          rw [hItem] at hItem'
          obtain rfl := Option.some.inj hItem'
          exact ⟨rfl, rfl⟩
      | more _ hItem' hLast' =>
          rw [hItem] at hItem'
          obtain rfl := Option.some.inj hItem'
          rw [hLast] at hLast'
          cases hLast'
  | more hLimit hItem hLast _ ih =>
      cases hOther with
      | done hDone => omega
      | last _ hItem' hLast' =>
          rw [hItem] at hItem'
          obtain rfl := Option.some.inj hItem'
          rw [hLast] at hLast'
          cases hLast'
      | more _ hItem' _ hRest =>
          rw [hItem] at hItem'
          obtain rfl := Option.some.inj hItem'
          rcases ih hRest with ⟨rfl, rfl⟩
          exact ⟨rfl, rfl⟩

/-
  A stream that gives corresponding items at the positions of
  a walk has the corresponding walk.
-/
theorem map
    {C : Type}
    {item' : Nat → Option (Item C)}
    (f : A → C)
    (hWalk : Walk item limit pos items stop)
    (hSame :
      ∀ q i, (q, i) ∈ items → item' q = some (i.map f)) :
    Walk item' limit pos
      (items.map (fun x => (x.1, x.2.map f))) stop := by
  induction hWalk with
  | done hLimit => exact .done hLimit
  | last hLimit hItem hLast =>
      exact .last hLimit (hSame _ _ (by simp)) hLast
  | more hLimit hItem hLast _ ih =>
      refine .more hLimit (hSame _ _ (by simp)) hLast ?_
      exact ih (fun q i hMem => hSame q i (by simp [hMem]))

theorem congr
    {item' : Nat → Option (Item A)}
    (hWalk : Walk item limit pos items stop)
    (hSame : ∀ q i, (q, i) ∈ items → item' q = some i) :
    Walk item' limit pos items stop := by
  have hMap := hWalk.map id hSame
  simpa [Item.map] using hMap

/- A walk that meets a last item does not need its limit. -/
theorem widen
    {limit' : Nat}
    (hWalk : Walk item limit pos items stop)
    (hEnds : ∃ x ∈ items, x.2.isLast = true)
    (hLimit : limit ≤ limit') :
    Walk item limit' pos items stop := by
  induction hWalk with
  | done =>
      rcases hEnds with ⟨x, hMem, -⟩
      cases hMem
  | last hLess hItem hLast =>
      exact .last (Nat.lt_of_lt_of_le hLess hLimit) hItem hLast
  | @more pos stop i rest hLess hItem hLast _ ih =>
      refine
        .more (Nat.lt_of_lt_of_le hLess hLimit) hItem hLast
          (ih ?_)
      rcases hEnds with ⟨x, hMem, hx⟩
      rcases List.mem_cons.mp hMem with rfl | hTail
      · rw [hLast] at hx
        cases hx
      · exact ⟨x, hTail, hx⟩

/- A walk through a mapped stream is a mapped walk. -/
theorem exists_of_map
    {C : Type}
    {item : Nat → Option (Item C)}
    (f : C → A)
    (hWalk :
      Walk (fun q => (item q).map (Item.map f)) limit pos items
        stop) :
    ∃ items',
      Walk item limit pos items' stop ∧
        items = items'.map (fun x => (x.1, x.2.map f)) := by
  induction hWalk with
  | done hLimit => exact ⟨[], .done hLimit, rfl⟩
  | last hLimit hItem hLast =>
      rcases Option.map_eq_some_iff.mp hItem with ⟨i, hi, rfl⟩
      exact ⟨[(_, i)], .last hLimit hi hLast, rfl⟩
  | more hLimit hItem hLast _ ih =>
      rcases Option.map_eq_some_iff.mp hItem with ⟨i, hi, rfl⟩
      rcases ih with ⟨rest, hRest, rfl⟩
      exact ⟨(_, i) :: rest, .more hLimit hi hLast hRest, rfl⟩

variable (hWalk : Walk item limit pos items stop)

include hWalk

/- Each item of a walk is in the stream below the limit. -/
theorem item_of_mem
    {q : Nat}
    {i : Item A}
    (hMem : (q, i) ∈ items) :
    q < limit ∧ item q = some i := by
  induction hWalk with
  | done => cases hMem
  | last hLimit hItem =>
      obtain ⟨rfl, rfl⟩ :=
        Prod.mk.inj (List.mem_singleton.mp hMem)
      exact ⟨hLimit, hItem⟩
  | more hLimit hItem _ _ ih =>
      rcases List.mem_cons.mp hMem with hHead | hTail
      · obtain ⟨rfl, rfl⟩ := Prod.mk.inj hHead
        exact ⟨hLimit, hItem⟩
      · exact ih hTail

/- Each item of a walk lies between its ends. -/
theorem bounds_of_mem
    {q : Nat}
    {i : Item A}
    (hMem : (q, i) ∈ items) :
    pos ≤ q ∧ q + i.size ≤ stop := by
  have hStop : ∀ {pos items stop},
      Walk item limit pos items stop → pos ≤ stop := by
    intro pos items stop hWalk
    induction hWalk with
    | done => exact Nat.le_refl _
    | last => omega
    | more _ _ _ _ ih => omega
  induction hWalk with
  | done => cases hMem
  | last =>
      obtain ⟨rfl, rfl⟩ :=
        Prod.mk.inj (List.mem_singleton.mp hMem)
      exact ⟨Nat.le_refl _, Nat.le_refl _⟩
  | more _ _ _ hRest ih =>
      rcases List.mem_cons.mp hMem with hHead | hTail
      · obtain ⟨rfl, rfl⟩ := Prod.mk.inj hHead
        exact ⟨Nat.le_refl _, hStop hRest⟩
      · have hLater := ih hTail
        omega

/- Two items of a walk are the same or do not overlap. -/
theorem apart
    {q q' : Nat}
    {i i' : Item A}
    (hMem : (q, i) ∈ items)
    (hMem' : (q', i') ∈ items) :
    (q = q' ∧ i = i') ∨ q + i.size ≤ q' ∨
      q' + i'.size ≤ q := by
  induction hWalk with
  | done => cases hMem
  | last =>
      rw [List.mem_singleton] at hMem hMem'
      exact .inl (Prod.mk.inj (hMem.trans hMem'.symm))
  | more _ _ _ hRest ih =>
      rcases List.mem_cons.mp hMem with hHead | hTail
      · rcases List.mem_cons.mp hMem' with hHead' | hTail'
        · exact .inl (Prod.mk.inj (hHead.trans hHead'.symm))
        · obtain ⟨rfl, rfl⟩ := Prod.mk.inj hHead
          exact .inr (.inl (hRest.bounds_of_mem hTail').1)
      · rcases List.mem_cons.mp hMem' with hHead' | hTail'
        · obtain ⟨rfl, rfl⟩ := Prod.mk.inj hHead'
          exact .inr (.inr (hRest.bounds_of_mem hTail).1)
        · exact ih hTail hTail'

/- A walk stops after the sizes of its items. -/
theorem stop_eq :
    stop = pos + (items.map (fun x => x.2.size)).sum := by
  induction hWalk with
  | done => rfl
  | last => simp
  | more _ _ _ _ ih =>
      rw [ih, List.map_cons, List.sum_cons, Nat.add_assoc]

end Walk

------------------------------------------------------------
-- Positions and Items of a Loop
------------------------------------------------------------

/- The loop comes to a position, whatever is there. -/
inductive Reaches
    (item : Nat → Option (Item A))
    (limit : Nat) : Nat → Nat → Prop where
  | here {pos : Nat} : Reaches item limit pos pos
  | next
      {pos q : Nat}
      {i : Item A}
      (hLimit : pos < limit)
      (hItem : item pos = some i)
      (hLast : i.isLast = false)
      (hRest : Reaches item limit (pos + i.size) q) :
      Reaches item limit pos q

theorem Reaches.snoc
    {item : Nat → Option (Item A)}
    {limit pos q : Nat}
    {i : Item A}
    (hReaches : Reaches item limit pos q)
    (hLimit : q < limit)
    (hItem : item q = some i)
    (hLast : i.isLast = false) :
    Reaches item limit pos (q + i.size) := by
  induction hReaches with
  | here => exact .next hLimit hItem hLast .here
  | next hLimit' hItem' hLast' _ ih =>
      exact .next hLimit' hItem' hLast' (ih hLimit hItem)

/- The items of a walk stand where the loop comes. -/
theorem Walk.mem_iff_reaches
    {item : Nat → Option (Item A)}
    {limit pos stop : Nat}
    {items : List (Nat × Item A)}
    (hWalk : Walk item limit pos items stop)
    (q : Nat) :
    (∃ i, (q, i) ∈ items) ↔
      q < limit ∧ Reaches item limit pos q := by
  have hAfter :
      ∀ {pos q}, Reaches item limit pos q → pos ≤ q := by
    intro pos q hReaches
    induction hReaches with
    | here => exact Nat.le_refl _
    | next => omega
  induction hWalk with
  | @done pos hDone =>
      constructor
      · rintro ⟨i, hMem⟩
        cases hMem
      · rintro ⟨hLess, hReaches⟩
        have hLe := hAfter hReaches
        omega
  | @last pos i hLimit hItem hLast =>
      constructor
      · rintro ⟨j, hMem⟩
        obtain ⟨rfl, rfl⟩ :=
          Prod.mk.inj (List.mem_singleton.mp hMem)
        exact ⟨hLimit, .here⟩
      · rintro ⟨-, hReaches⟩
        cases hReaches with
        | here => exact ⟨i, List.mem_singleton_self _⟩
        | next _ hItem' hLast' =>
            rw [hItem] at hItem'
            obtain rfl := Option.some.inj hItem'
            rw [hLast] at hLast'
            cases hLast'
  | @more pos stop i rest hLimit hItem hLast _ ih =>
      constructor
      · rintro ⟨j, hMem⟩
        rcases List.mem_cons.mp hMem with hHead | hTail
        · obtain ⟨rfl, rfl⟩ := Prod.mk.inj hHead
          exact ⟨hLimit, .here⟩
        · rcases ih.mp ⟨j, hTail⟩ with ⟨hLess, hReaches⟩
          exact ⟨hLess, .next hLimit hItem hLast hReaches⟩
      · rintro ⟨hLess, hReaches⟩
        cases hReaches with
        | here => exact ⟨i, List.mem_cons_self⟩
        | next _ hItem' _ hRest =>
            rw [hItem] at hItem'
            obtain rfl := Option.some.inj hItem'
            rcases ih.mpr ⟨hLess, hRest⟩ with ⟨j, hMem⟩
            exact ⟨j, List.mem_cons_of_mem _ hMem⟩

/- There is a walk if every position met has an item. -/
theorem exists_walk_iff
    {item : Nat → Option (Item A)}
    (limit pos : Nat)
    (hSize : ∀ pos i, item pos = some i → 0 < i.size) :
    (∃ items stop, Walk item limit pos items stop) ↔
      ∀ q < limit, Reaches item limit pos q →
        (item q).isSome = true := by
  constructor
  · rintro ⟨items, stop, hWalk⟩ q hLess hReaches
    rcases (hWalk.mem_iff_reaches q).mpr
        ⟨hLess, hReaches⟩ with ⟨i, hMem⟩
    rw [(hWalk.item_of_mem hMem).2]
    rfl
  · intro hAll
    -- the distance to the limit shrinks by each item
    induction hLeft : limit - pos using Nat.strongRecOn
      generalizing pos with
    | ind left ih =>
        by_cases hLimit : pos < limit
        · rcases Option.isSome_iff_exists.mp
              (hAll pos hLimit .here) with ⟨i, hItem⟩
          cases hLast : i.isLast with
          | true => exact ⟨_, _, .last hLimit hItem hLast⟩
          | false =>
              have hPos := hSize pos i hItem
              have hRest := fun q hLess hReaches =>
                hAll q hLess
                  (.next hLimit hItem hLast hReaches)
              rcases ih (limit - (pos + i.size)) (by omega)
                  (pos + i.size) hRest rfl with
                ⟨items, stop, hWalk⟩
              exact ⟨_, _, .more hLimit hItem hLast hWalk⟩
        · exact ⟨[], pos, .done (Nat.le_of_not_lt hLimit)⟩

/- The values that a loop meets, with their positions. -/
def collect
    (item : Nat → Option (Item A))
    (limit fuel pos : Nat) :
    Option (List (Nat × A) × Nat) :=
  loop item limit
    (fun seen pos value => some (seen ++ [(pos, value)]))
    fuel pos []

theorem runItems_collect
    (items : List (Nat × Item A))
    (seen : List (Nat × A)) :
    runItems
        (fun seen pos value => some (seen ++ [(pos, value)]))
        items seen =
      some (seen ++ items.map (fun x => (x.1, x.2.value))) := by
  induction items generalizing seen with
  | nil => simp [runItems]
  | cons x rest ih => simp [runItems, ih]

theorem collect_iff
    {item : Nat → Option (Item A)}
    {limit : Nat}
    (hSize : ∀ pos i, item pos = some i → 0 < i.size)
    (fuel pos stop : Nat)
    (values : List (Nat × A))
    (hFuel : limit ≤ pos + fuel) :
    collect item limit fuel pos = some (values, stop) ↔
      ∃ items,
        Walk item limit pos items stop ∧
          values = items.map (fun x => (x.1, x.2.value)) := by
  rw [collect, loop_iff _ hSize _ _ _ _ _ hFuel]
  simp only [runItems_collect, List.nil_append,
    Option.some.injEq, eq_comm]

end Cursor

end Ps3emu
