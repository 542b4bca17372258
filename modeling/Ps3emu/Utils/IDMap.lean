import Mathlib.Data.List.Sort
import Mathlib.Logic.Function.Basic
import Mathlib.Order.Nat

/-
  The map that gives ids to objects.  An id that was freed
  is given again, the smallest first, before a new one is
  made.

  Key definitions include:
    * `IDMap`
    * `IDMap.create`, `IDMap.destroy`, `IDMap.modify`

  Key theorems include:
    * `IDMap.get_create`, `IDMap.get_nextId`
    * `IDMap.get_destroy`
-/

------------------------------------------------------------
-- Maps
------------------------------------------------------------

namespace Ps3emu

/-
  `free` has the ids that were freed, in ascending order.
  No id that is free or not made yet has an object.
-/
structure IDMap (T : Type) where
  maxId : Nat
  get : Nat → Option T
  free : List Nat
  unmade : ∀ id, maxId ≤ id → get id = none
  freed : ∀ id ∈ free, get id = none ∧ id < maxId
  nodup : free.Nodup

namespace IDMap

variable {T : Type}

/- The first id is `InitialID`. -/
def empty (initialId : Nat) : IDMap T where
  maxId := initialId
  get := fun _ => none
  free := []
  unmade := fun _ _ => rfl
  freed := fun _ hMem => absurd hMem List.not_mem_nil
  nodup := List.nodup_nil

/- The id of the next object. -/
def nextId (m : IDMap T) : Nat :=
  m.free.headD m.maxId

theorem get_nextId (m : IDMap T) : m.get m.nextId = none := by
  unfold nextId
  cases hFree : m.free with
  | nil => exact m.unmade _ (Nat.le_refl _)
  | cons id rest =>
      exact (m.freed id (by simp [hFree])).1

/- The id is `nextId`. -/
def create (m : IDMap T) (t : T) : IDMap T where
  maxId := if m.free = [] then m.maxId + 1 else m.maxId
  get := Function.update m.get m.nextId (some t)
  free := m.free.tail
  unmade := by
    intro id hId
    have hNe : id ≠ m.nextId := by
      unfold nextId
      cases hFree : m.free with
      | nil =>
          simp only [hFree, if_true] at hId
          simp only [List.headD_nil]
          omega
      | cons first rest =>
          have hFirst := (m.freed first (by simp [hFree])).2
          simp only [hFree, reduceCtorEq, if_false] at hId
          simp only [List.headD_cons]
          omega
    rw [Function.update_of_ne hNe]
    apply m.unmade
    split at hId <;> omega
  freed := by
    intro id hId
    have hOld := m.freed id (List.mem_of_mem_tail hId)
    have hNe : id ≠ m.nextId := by
      intro hEq
      cases hFree : m.free with
      | nil => simp [hFree] at hId
      | cons first rest =>
          have hNodup := hFree ▸ m.nodup
          rw [hFree, List.tail_cons] at hId
          rw [hEq, nextId, hFree, List.headD_cons] at hId
          exact (List.nodup_cons.mp hNodup).1 hId
    rw [Function.update_of_ne hNe]
    refine ⟨hOld.1, ?_⟩
    split <;> omega
  nodup := m.nodup.tail

theorem get_create
    (m : IDMap T)
    (t : T)
    (id : Nat) :
    (m.create t).get id =
      if id = m.nextId then some t else m.get id :=
  Function.update_apply m.get m.nextId (some t) id

/- The object has to be there, which `destroy` asserts. -/
def erase
    (m : IDMap T)
    (id : Nat)
    (hId : (m.get id).isSome) : IDMap T where
  maxId := m.maxId
  get := Function.update m.get id none
  free := m.free.orderedInsert (· ≤ ·) id
  unmade := by
    intro other hOther
    rw [Function.update_apply, m.unmade other hOther, ite_self]
  freed := by
    intro other hOther
    rcases List.mem_orderedInsert _ |>.mp hOther with
      rfl | hOld
    · refine ⟨Function.update_self .., ?_⟩
      by_contra hLarge
      rw [m.unmade other (by omega)] at hId
      cases hId
    · refine ⟨?_, (m.freed other hOld).2⟩
      rw [Function.update_apply, (m.freed other hOld).1,
        ite_self]
  nodup := by
    rw [(List.perm_orderedInsert _ id m.free).nodup_iff,
      List.nodup_cons]
    refine ⟨?_, m.nodup⟩
    intro hFree
    rw [(m.freed id hFree).1] at hId
    cases hId

def destroy (m : IDMap T) (id : Nat) : Option (IDMap T) :=
  if hId : (m.get id).isSome then some (m.erase id hId)
  else none

theorem get_destroy
    {m n : IDMap T}
    {id : Nat}
    (hDestroy : m.destroy id = some n)
    (other : Nat) :
    n.get other = if other = id then none else m.get other := by
  unfold destroy at hDestroy
  split at hDestroy
  case isTrue hId =>
      rw [← Option.some.inj hDestroy]
      exact Function.update_apply m.get id none other
  case isFalse => cases hDestroy

/- A change of an object that the map points to. -/
def modify
    (m : IDMap T)
    (id : Nat)
    (f : T → T) : IDMap T where
  maxId := m.maxId
  get := Function.update m.get id ((m.get id).map f)
  free := m.free
  unmade := by
    intro other hOther
    rw [Function.update_apply, m.unmade other hOther]
    split
    case isTrue hEq =>
        rw [← hEq, m.unmade other hOther, Option.map_none]
    case isFalse => rfl
  freed := by
    intro other hOther
    have hOld := m.freed other hOther
    refine ⟨?_, hOld.2⟩
    rw [Function.update_apply, hOld.1]
    split
    case isTrue hEq => rw [← hEq, hOld.1, Option.map_none]
    case isFalse => rfl
  nodup := m.nodup

theorem get_modify
    (m : IDMap T)
    (id : Nat)
    (f : T → T)
    (other : Nat) :
    (m.modify id f).get other =
      if other = id then (m.get id).map f else m.get other :=
  Function.update_apply m.get id _ other

/- The first id whose object satisfies the predicate. -/
def search (m : IDMap T) (predicate : T → Bool) : Nat :=
  ((List.range m.maxId).find? (fun id =>
    (m.get id).any predicate)).getD 0

end IDMap

end Ps3emu
