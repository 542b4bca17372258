import Mathlib.Data.List.Count
import Mathlib.Data.List.ReduceOption
import Mathlib.Logic.Function.Basic
import Mathlib.Tactic.Common

/-
  The reservation table: granules, the slot arrays of the
  reservation lines, and the operations that add and drop
  reservations.

  Key definitions include:
    * `ReservationGranule`, `ReservationMap`
    * `ReservationMap.insert`
    * `ReservationMap.clear`
    * `ReservationMap.clearExcept`
    * `ReservationMap.clearOne`
    * `ReservationMap.Consistent`

  Key theorems include:
    * `ReservationMap.Consistent.clear`
    * `ReservationMap.Consistent.clearExcept`
    * `ReservationMap.Consistent.clearOne`
    * `ReservationMap.Consistent.reserve`
    * `ReservationMap.Consistent.unique`
-/

------------------------------------------------------------
-- Granules and Lines
------------------------------------------------------------

namespace Ps3emu

/- A granule is named by the agent that owns it. -/
abbrev GranuleId := Nat

/-
  The lost-reservation callback is a code pointer, absent
  when it is null, with the two words passed to it.
-/
structure ReservationGranule where
  line : Option Nat := none
  notify : Option Nat := none
  arg1 : Nat := 0
  arg2 : Nat := 0
deriving DecidableEq

/- A slot of `_arr`; `none` is a null pointer. -/
abbrev Slots := List (Option GranuleId)

/-
  `lines` gives the slot array of every line and `lost` the
  callbacks made so far, as code pointer and arguments.
-/
structure ReservationMap where
  granules : GranuleId → ReservationGranule
  lines : Nat → Slots
  lost : List (Nat × Nat × Nat)

namespace ReservationMap

/- The line a granule points to. -/
def lineOf
    (r : ReservationMap)
    (g : GranuleId) : Option Nat :=
  (r.granules g).line

/- The state of a freshly constructed map. -/
def empty : ReservationMap where
  granules := fun _ => {}
  lines := fun _ => []
  lost := []

/- Call back the owner of a granule and forget the callback. -/
def notify
    (r : ReservationMap)
    (g : GranuleId) : ReservationMap :=
  let granule := r.granules g
  { r with
    granules :=
      Function.update r.granules g
        { granule with notify := none }
    lost :=
      match granule.notify with
      | some f => r.lost ++ [(f, granule.arg1, granule.arg2)]
      | none => r.lost }

/- `notify(granule); granule->line = nullptr`. -/
def unlink
    (r : ReservationMap)
    (g : GranuleId) : ReservationMap :=
  let r' := r.notify g
  { r' with
    granules :=
      Function.update r'.granules g
        { r'.granules g with line := none } }

/- Unlink the granules of a list in turn. -/
def unlinkAll
    (r : ReservationMap)
    (gs : List GranuleId) : ReservationMap :=
  gs.foldl unlink r

def setLine
    (r : ReservationMap)
    (line : Nat)
    (slots : Slots) : ReservationMap :=
  { r with lines := Function.update r.lines line slots }

variable (r : ReservationMap)

@[simp] theorem lines_unlink
    (g : GranuleId) :
    (r.unlink g).lines = r.lines := rfl

@[simp] theorem lineOf_unlink
    (g h : GranuleId) :
    (r.unlink g).lineOf h =
      if h = g then none else r.lineOf h := by
  by_cases hEq : h = g
  · subst h
    simp [unlink, lineOf]
  · simp [unlink, notify, lineOf, hEq]

@[simp] theorem lines_unlinkAll
    (gs : List GranuleId) :
    (r.unlinkAll gs).lines = r.lines := by
  induction gs generalizing r with
  | nil => rfl
  | cons g gs ih => exact ih (r.unlink g)

@[simp] theorem lineOf_unlinkAll
    (gs : List GranuleId)
    (h : GranuleId) :
    (r.unlinkAll gs).lineOf h =
      if h ∈ gs then none else r.lineOf h := by
  induction gs generalizing r with
  | nil => simp [unlinkAll]
  | cons g gs ih =>
      have hRest := ih (r.unlink g)
      simp only [unlinkAll, List.foldl_cons] at hRest ⊢
      rw [hRest, lineOf_unlink]
      by_cases hMem : h ∈ gs
      · simp [hMem]
      · by_cases hEq : h = g <;> simp [hMem, hEq]

@[simp] theorem lineOf_setLine
    (line : Nat)
    (slots : Slots)
    (g : GranuleId) :
    (r.setLine line slots).lineOf g = r.lineOf g := rfl

@[simp] theorem lines_setLine
    (line : Nat)
    (slots : Slots) :
    (r.setLine line slots).lines =
      Function.update r.lines line slots := rfl

------------------------------------------------------------
-- Array Operations
------------------------------------------------------------

/- The first null slot is reused, else the array grows. -/
def insertSlot (g : GranuleId) : Slots → Slots
  | [] => [some g]
  | none :: rest => some g :: rest
  | some h :: rest => some h :: insertSlot g rest

/-
  `newSize` of `clearExcept`: one past the last slot that
  holds `granule`, or zero.
-/
def sizeUpTo (granule : Option GranuleId) : Slots → Nat
  | [] => 0
  | slot :: rest =>
      match sizeUpTo granule rest with
      | 0 => if slot.isSome && slot == granule then 1 else 0
      | n + 1 => n + 2

def insert
    (r : ReservationMap)
    (line : Nat)
    (g : GranuleId) : ReservationMap :=
  r.setLine line (insertSlot g (r.lines line))

/-
  The loop the three clearing operations share: the granules
  selected by `drop` are unlinked and their slots nulled.
-/
def dropWhere
    (r : ReservationMap)
    (line : Nat)
    (drop : GranuleId → Bool) : ReservationMap :=
  let slots := r.lines line
  (r.unlinkAll (slots.reduceOption.filter drop)).setLine line
    (slots.map (Option.filter (fun g => !drop g)))

/- Set the size of a line's array, as `_arr.resize`. -/
def resize
    (r : ReservationMap)
    (line size : Nat) : ReservationMap :=
  r.setLine line ((r.lines line).take size)

def clear
    (r : ReservationMap)
    (line : Nat) : ReservationMap :=
  (r.dropWhere line (fun _ => true)).resize line 0

/- `granule` may be null, and then every slot is dropped. -/
def clearExcept
    (r : ReservationMap)
    (line : Nat)
    (granule : Option GranuleId) : ReservationMap :=
  (r.dropWhere line (fun g => some g != granule)).resize line
    (sizeUpTo granule (r.lines line))

def clearOne
    (r : ReservationMap)
    (line : Nat)
    (granule : GranuleId) : ReservationMap :=
  r.dropWhere line (fun g => g == granule)

/- `exists`, which Lean reserves. -/
def contains
    (r : ReservationMap)
    (line : Nat)
    (granule : GranuleId) : Bool :=
  (r.lines line).any (fun slot => slot == some granule)

/-
  The fields `loadReserve` sets under the lock of the new
  line, and the insertion into that line.
-/
def reserve
    (r : ReservationMap)
    (g : GranuleId)
    (line : Nat)
    (notify : Option Nat)
    (arg1 arg2 : Nat) : ReservationMap :=
  ({ r with
      granules :=
        Function.update r.granules g
          { line := some line, notify, arg1, arg2 } }
    : ReservationMap).insert line g

/- The granule's own line is the one that is searched. -/
def destroySingleReservation
    (r : ReservationMap)
    (g : GranuleId) : ReservationMap :=
  match r.lineOf g with
  | some line => r.clearOne line g
  | none => r

def destroySingleLine
    (r : ReservationMap)
    (line : Nat) : ReservationMap :=
  r.clear line

def destroyExcept
    (r : ReservationMap)
    (line : Nat)
    (nextLine : Option Nat)
    (granule : Option GranuleId) : ReservationMap :=
  let r' := r.clearExcept line granule
  match nextLine with
  | some next => r'.clearExcept next granule
  | none => r'

------------------------------------------------------------
-- Slot Arrays
------------------------------------------------------------

theorem mem_insertSlot
    (g h : GranuleId)
    (slots : Slots) :
    some h ∈ insertSlot g slots ↔ h = g ∨ some h ∈ slots := by
  induction slots with
  | nil => simp [insertSlot]
  | cons slot rest ih =>
      cases slot with
      | none => simp [insertSlot]
      | some k =>
          simp only [insertSlot, List.mem_cons, ih]
          tauto

theorem count_insertSlot
    (g h : GranuleId)
    (slots : Slots) :
    (insertSlot g slots).count (some h) =
      slots.count (some h) + if h = g then 1 else 0 := by
  induction slots with
  | nil =>
      by_cases hEq : h = g
      · simp [insertSlot, hEq]
      · simp [insertSlot, hEq, Ne.symm hEq]
  | cons slot rest ih =>
      cases slot with
      | none =>
          by_cases hEq : h = g
          · simp [insertSlot, hEq]
          · simp [insertSlot, hEq, Ne.symm hEq]
      | some k =>
          simp only [insertSlot, List.count_cons, ih]
          omega

theorem mem_filterSlots
    (keep : GranuleId → Bool)
    (h : GranuleId)
    (slots : Slots) :
    some h ∈ slots.map (Option.filter keep) ↔
      some h ∈ slots ∧ keep h = true := by
  simp only [List.mem_map, Option.filter_eq_some_iff]
  constructor
  · rintro ⟨slot, hMem, rfl, hKeep⟩
    exact ⟨hMem, hKeep⟩
  · rintro ⟨hMem, hKeep⟩
    exact ⟨some h, hMem, rfl, hKeep⟩

theorem count_filterSlots_le
    (keep : GranuleId → Bool)
    (h : GranuleId)
    (slots : Slots) :
    (slots.map (Option.filter keep)).count (some h) ≤
      slots.count (some h) := by
  induction slots with
  | nil => simp
  | cons slot rest ih =>
      have hHead :
          Option.filter keep slot = some h →
            slot = some h := by
        intro hEq
        exact (Option.filter_eq_some_iff.mp hEq).1
      simp only [List.map_cons, List.count_cons, beq_iff_eq]
      split <;> split <;> grind

/- Every slot that holds `granule` lies below `sizeUpTo`. -/
theorem mem_take_sizeUpTo
    (g : GranuleId)
    (slots : Slots)
    (keep : GranuleId → Bool)
    (hKeep : keep g = true) :
    some g ∈ slots →
      some g ∈
        (slots.map (Option.filter keep)).take
          (sizeUpTo (some g) slots) := by
  induction slots with
  | nil => simp
  | cons slot rest ih =>
      intro hMem
      rcases List.mem_cons.mp hMem with hHead | hTail
      · subst hHead
        cases hSize : sizeUpTo (some g) rest <;>
          simp [sizeUpTo, hSize, hKeep, Option.filter]
      · have hRest := ih hTail
        cases hSize : sizeUpTo (some g) rest with
        | zero => simp [hSize] at hRest
        | succ n =>
            simp only [sizeUpTo, hSize, List.map_cons,
              List.take_succ_cons]
            rw [hSize] at hRest
            exact List.mem_cons_of_mem _ hRest

theorem lineOf_reserve
    (g h : GranuleId)
    (line : Nat)
    (notify : Option Nat)
    (arg1 arg2 : Nat) :
    (r.reserve g line notify arg1 arg2).lineOf h =
      if h = g then some line else r.lineOf h := by
  by_cases hEq : h = g
  · simp [ReservationMap.reserve, ReservationMap.insert,
      ReservationMap.setLine, lineOf, hEq]
  · simp [ReservationMap.reserve, ReservationMap.insert,
      ReservationMap.setLine, lineOf, hEq]

------------------------------------------------------------
-- Consistency
------------------------------------------------------------

/-
  Back pointers and slot arrays describe the same set of
  reservations, and no array lists a granule twice.
-/
structure Consistent (r : ReservationMap) : Prop where
  lineOf_iff :
    ∀ g line,
      r.lineOf g = some line ↔ some g ∈ r.lines line
  count_le :
    ∀ g line, (r.lines line).count (some g) ≤ 1

namespace Consistent

variable {r : ReservationMap}

theorem empty : Consistent ReservationMap.empty where
  lineOf_iff := by
    intro g line
    simp [ReservationMap.empty, lineOf]
  count_le := by
    intro g line
    simp [ReservationMap.empty]

variable (hCons : Consistent r)

include hCons

/-
  A reserved granule occurs exactly once in the array of its
  line and in no other line's array.
-/
theorem unique
    {g : GranuleId}
    {line : Nat}
    (hLine : r.lineOf g = some line) :
    (r.lines line).count (some g) = 1 ∧
      ∀ other, other ≠ line → some g ∉ r.lines other := by
  have hMem := (hCons.lineOf_iff g line).mp hLine
  constructor
  · have hPos := List.count_pos_iff.mpr hMem
    have hLe := hCons.count_le g line
    omega
  · intro other hOther hMemOther
    have hOtherLine := (hCons.lineOf_iff g other).mpr hMemOther
    rw [hLine] at hOtherLine
    exact hOther (Option.some.inj hOtherLine).symm

variable (line : Nat)

theorem contains_iff
    (g : GranuleId) :
    r.contains line g = true ↔ r.lineOf g = some line := by
  rw [hCons.lineOf_iff]
  simp [contains]

/- A granule without a reservation may be made anew. -/
theorem renew
    {g : GranuleId}
    (hFree : r.lineOf g = none) :
    Consistent
      { r with
        granules := Function.update r.granules g {} } where
  lineOf_iff := by
    intro h line
    rw [← hCons.lineOf_iff h line]
    by_cases hEq : h = g
    · subst hEq
      rw [hFree]
      simp [lineOf]
    · simp [lineOf, hEq]
  count_le := hCons.count_le

/- Back pointers after the shared clearing loop. -/
theorem lineOf_dropWhere
    (drop : GranuleId → Bool)
    (g : GranuleId) :
    (r.dropWhere line drop).lineOf g =
      if r.lineOf g = some line ∧ drop g = true then none
      else r.lineOf g := by
  simp only [ReservationMap.dropWhere, lineOf_setLine,
    lineOf_unlinkAll, List.mem_filter,
    List.reduceOption_mem_iff, hCons.lineOf_iff]

theorem dropWhere
    (drop : GranuleId → Bool) :
    Consistent (r.dropWhere line drop) where
  lineOf_iff := by
    intro g other
    rw [hCons.lineOf_dropWhere]
    by_cases hOther : other = line
    · subst hOther
      simp only [ReservationMap.dropWhere, lines_setLine,
        Function.update_self, mem_filterSlots,
        ← hCons.lineOf_iff]
      grind
    · simp only [ReservationMap.dropWhere, lines_setLine,
        lines_unlinkAll, Function.update_of_ne hOther,
        ← hCons.lineOf_iff]
      grind
  count_le := by
    intro g other
    by_cases hOther : other = line
    · subst hOther
      simp only [ReservationMap.dropWhere, lines_setLine,
        Function.update_self]
      exact Nat.le_trans (count_filterSlots_le _ g _)
        (hCons.count_le g other)
    · simp only [ReservationMap.dropWhere, lines_setLine,
        lines_unlinkAll, Function.update_of_ne hOther]
      exact hCons.count_le g other

/- Cutting an array is safe when it loses no granule. -/
theorem resize
    (line size : Nat)
    (hKept :
      ∀ g, some g ∈ r.lines line →
        some g ∈ (r.lines line).take size) :
    Consistent (r.resize line size) where
  lineOf_iff := by
    intro g other
    rw [ReservationMap.resize, lineOf_setLine,
      hCons.lineOf_iff]
    by_cases hOther : other = line
    · subst hOther
      simp only [lines_setLine, Function.update_self]
      exact ⟨hKept g, List.mem_of_mem_take⟩
    · simp [Function.update_of_ne hOther]
  count_le := by
    intro g other
    by_cases hOther : other = line
    · subst hOther
      simp only [ReservationMap.resize, lines_setLine,
        Function.update_self]
      exact Nat.le_trans
        ((List.take_sublist _ _).count_le _)
        (hCons.count_le g other)
    · simp only [ReservationMap.resize, lines_setLine,
        Function.update_of_ne hOther]
      exact hCons.count_le g other

theorem clear
    (line : Nat) :
    Consistent (r.clear line) := by
  apply (hCons.dropWhere line _).resize
  intro g hMem
  simp [ReservationMap.dropWhere] at hMem

theorem lineOf_clear
    (g : GranuleId) :
    (r.clear line).lineOf g =
      if r.lineOf g = some line then none
      else r.lineOf g := by
  simpa [ReservationMap.clear, ReservationMap.resize] using
    hCons.lineOf_dropWhere line (fun _ => true) g

theorem clearExcept
    (granule : Option GranuleId) :
    Consistent (r.clearExcept line granule) := by
  apply (hCons.dropWhere line _).resize
  intro g hMem
  simp only [ReservationMap.dropWhere, lines_setLine,
    Function.update_self] at hMem ⊢
  have hKeep := (mem_filterSlots _ g _).mp hMem
  have hEq : some g = granule := by
    simpa using hKeep.2
  subst hEq
  exact mem_take_sizeUpTo g _ _ hKeep.2 hKeep.1

theorem lineOf_clearExcept
    (granule : Option GranuleId)
    (g : GranuleId) :
    (r.clearExcept line granule).lineOf g =
      if r.lineOf g = some line ∧ some g ≠ granule then none
      else r.lineOf g := by
  simpa [ReservationMap.clearExcept, ReservationMap.resize]
    using
      hCons.lineOf_dropWhere line
        (fun g => some g != granule) g

theorem destroySingleReservation
    (g : GranuleId) :
    Consistent (r.destroySingleReservation g) := by
  unfold ReservationMap.destroySingleReservation
  cases r.lineOf g with
  | none => exact hCons
  | some line => exact hCons.dropWhere line _

theorem lineOf_destroySingleReservation
    (g h : GranuleId) :
    (r.destroySingleReservation g).lineOf h =
      if h = g then none else r.lineOf h := by
  unfold ReservationMap.destroySingleReservation
  cases hLine : r.lineOf g with
  | none =>
      by_cases hEq : h = g
      · simp [hEq, hLine]
      · simp [hEq]
  | some line =>
      simp only [ReservationMap.clearOne,
        hCons.lineOf_dropWhere, beq_iff_eq]
      by_cases hEq : h = g
      · simp [hEq, hLine]
      · simp [hEq]

theorem destroyExcept
    (nextLine : Option Nat)
    (granule : Option GranuleId) :
    Consistent (r.destroyExcept line nextLine granule) := by
  unfold ReservationMap.destroyExcept
  have hFirst := hCons.clearExcept line granule
  cases nextLine with
  | none => exact hFirst
  | some next => exact hFirst.clearExcept next granule

/-
  A store drops the other granules on the lines it locks and
  no others.
-/
theorem lineOf_destroyExcept
    (nextLine : Option Nat)
    (granule : Option GranuleId)
    (g : GranuleId) :
    (r.destroyExcept line nextLine granule).lineOf g =
      if (r.lineOf g = some line ∨
            (r.lineOf g ≠ none ∧ r.lineOf g = nextLine)) ∧
          some g ≠ granule then none
      else r.lineOf g := by
  unfold ReservationMap.destroyExcept
  have hFirst := hCons.clearExcept line granule
  cases nextLine with
  | none =>
      simp only [hCons.lineOf_clearExcept]
      grind
  | some next =>
      simp only [hFirst.lineOf_clearExcept,
        hCons.lineOf_clearExcept]
      grind

/- A granule without a reservation may take one. -/
theorem reserve
    (g : GranuleId)
    (hFree : r.lineOf g = none)
    (line : Nat)
    (notify : Option Nat)
    (arg1 arg2 : Nat) :
    Consistent (r.reserve g line notify arg1 arg2) := by
  have hAbsent : ∀ other, some g ∉ r.lines other := by
    intro other hMem
    have hLine := (hCons.lineOf_iff g other).mpr hMem
    simp [hFree] at hLine
  have hLines :
      (r.reserve g line notify arg1 arg2).lines =
        Function.update r.lines line
          (insertSlot g (r.lines line)) := rfl
  constructor
  · intro h other
    rw [lineOf_reserve, hLines]
    by_cases hOther : other = line
    · subst hOther
      rw [Function.update_self, mem_insertSlot,
        ← hCons.lineOf_iff]
      grind
    · rw [Function.update_of_ne hOther]
      by_cases hEq : h = g
      · subst hEq
        have hNot := hAbsent other
        simp [Ne.symm hOther, hNot]
      · simpa [hEq] using hCons.lineOf_iff h other
  · intro h other
    rw [hLines]
    by_cases hOther : other = line
    · subst hOther
      rw [Function.update_self, count_insertSlot]
      by_cases hEq : h = g
      · subst hEq
        have hZero :=
          List.count_eq_zero.mpr (hAbsent other)
        simp [hZero]
      · simpa [hEq] using hCons.count_le h other
    · rw [Function.update_of_ne hOther]
      exact hCons.count_le h other

end Consistent

end ReservationMap

end Ps3emu
