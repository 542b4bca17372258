import Mathlib.Data.BitVec
import Ps3emu.Library.Transition
import Ps3emu.Utils.IDMap

/-
  The id map with ids that are machine words, over whole runs
  of its operations.

  Key definitions include:
    * `IDWords`, `IDWords.step`
    * `Event`, `objectOf`
    * `Represents`
    * `Lawful`, `Unexhausted`

  Key theorems include:
    * `represents_create`, `represents_destroy`
    * `lawful_of_run`
-/

------------------------------------------------------------
-- The Map
------------------------------------------------------------

namespace Ps3emu

/- `IDMap`: `free` is a set in ascending order. -/
structure IDWords (w : Nat) (T : Type) where
  maxId : BitVec w
  map : List (BitVec w × T)
  free : List (BitVec w)

namespace IDWords

variable {w : Nat} {T : Type}

/- The first id is `InitialID`. -/
def empty (initial : BitVec w) : IDWords w T :=
  ⟨initial, [], []⟩

def tryGet (s : IDWords w T) (id : BitVec w) : Option T :=
  s.map.lookup id

/- `std::map::insert` keeps an object that is there. -/
def insert
    (map : List (BitVec w × T))
    (id : BitVec w)
    (t : T) : List (BitVec w × T) :=
  if (map.lookup id).isSome then map else (id, t) :: map

def create (s : IDWords w T) (t : T) :
    BitVec w × IDWords w T :=
  match s.free with
  | id :: rest => (id, ⟨s.maxId, insert s.map id t, rest⟩)
  | [] => (s.maxId, ⟨s.maxId + 1, insert s.map s.maxId t, []⟩)

/- `std::set::insert` -/
def insertFree
    (free : List (BitVec w))
    (id : BitVec w) : List (BitVec w) :=
  if id ∈ free then free else free.orderedInsert (· ≤ ·) id

/- The object has to be there, which is asserted. -/
def destroy (s : IDWords w T) (id : BitVec w) :
    Option (IDWords w T) :=
  if (s.tryGet id).isSome then
    some
      ⟨s.maxId, s.map.filter (fun p => p.1 ≠ id),
        insertFree s.free id⟩
  else none

/- An operation with what it was given and what it returned. -/
inductive Event (I T : Type) where
  | create (t : T) (id : I)
  | destroy (id : I)
  | tryGet (id : I) (result : Option T)
  | get (id : I) (t : T)

/- `get` asserts that there is an object. -/
inductive Step :
    IDWords w T → Event (BitVec w) T → IDWords w T → Prop where
  | create {s : IDWords w T} {t : T} :
      Step s (.create t (s.create t).1) (s.create t).2
  | destroy {s t : IDWords w T} {id : BitVec w} :
      s.destroy id = some t → Step s (.destroy id) t
  | tryGet {s : IDWords w T} {id : BitVec w} :
      Step s (.tryGet id (s.tryGet id)) s
  | get {s : IDWords w T} {id : BitVec w} {t : T} :
      s.tryGet id = some t → Step s (.get id t) s

------------------------------------------------------------
-- Histories and Words
------------------------------------------------------------

section

variable {I : Type} [DecidableEq I]

/- The object that was created with the id and is not gone. -/
def record (object : I → Option T) :
    Event I T → I → Option T
  | .create t id => Function.update object id (some t)
  | .destroy id => Function.update object id none
  | .tryGet _ _ | .get _ _ => object

def objectOf (events : List (Event I T)) : I → Option T :=
  events.foldl record (fun _ => none)

def HandedOut (events : List (Event I T)) (id : I) : Prop :=
  ∃ t, Event.create t id ∈ events

/- What an operation does, with the objects there are. -/
def Answered (object : I → Option T) : Event I T → Prop
  | .create _ id => object id = none
  | .destroy id => (object id).isSome
  | .tryGet id result => result = object id
  | .get id t => object id = some t

end

/-
  The live ids are distinct and not free, with the free ones
  they are those handed out so far, and every operation so
  far has found the objects of its history.
-/
structure Lawful
    (initial : BitVec w)
    (events : List (Event (BitVec w) T))
    (s : IDWords w T) : Prop where
  distinct : (s.map.map Prod.fst).Nodup
  disjoint : ∀ id ∈ s.free, s.tryGet id = none
  whole :
    ∀ id,
      (s.tryGet id).isSome ∨ id ∈ s.free ↔
        HandedOut events id
  range :
    ∀ id,
      HandedOut events id ↔
        initial.toNat ≤ id.toNat ∧ id.toNat < s.maxId.toNat
  found : ∀ id, s.tryGet id = objectOf events id
  answered :
    ∀ before e after, events = before ++ e :: after →
      Answered (objectOf before) e

/- The ids do not run out where a new one is made. -/
def Unexhausted
    (s : IDWords w T)
    (e : Event (BitVec w) T)
    (_ : IDWords w T) : Prop :=
  ∀ t id, e = .create t id → s.free = [] →
    s.maxId ≠ BitVec.allOnes w

/- The map of numbers that the map of words stands for. -/
structure Represents
    (s : IDWords w T)
    (m : IDMap T) : Prop where
  maxId : m.maxId = s.maxId.toNat
  free : m.free = s.free.map BitVec.toNat
  object : ∀ id, s.tryGet id = m.get id.toNat

variable {s t : IDWords w T} {m : IDMap T} {id : BitVec w}

theorem represents_empty (initial : BitVec w) :
    Represents (empty initial : IDWords w T)
      (IDMap.empty initial.toNat) :=
  ⟨rfl, rfl, fun _ => rfl⟩

theorem not_mem_keys
    {map : List (BitVec w × T)}
    (hNone : map.lookup id = none) :
    id ∉ map.map Prod.fst := by
  intro hMem
  rcases List.mem_map.mp hMem with ⟨p, hP, rfl⟩
  have hNot := List.lookup_eq_none_iff.mp hNone p hP
  exact bne_iff_ne.mp hNot rfl

theorem insert_of_none
    {map : List (BitVec w × T)}
    (hNone : map.lookup id = none)
    (t : T) :
    insert map id t = (id, t) :: map := by
  rw [insert, hNone]
  rfl

theorem lookup_cons_word
    (map : List (BitVec w × T))
    (id other : BitVec w)
    (t : T) :
    ((id, t) :: map).lookup other =
      if other = id then some t else map.lookup other := by
  rw [List.lookup_cons]
  by_cases hSame : other = id
  · rw [if_pos hSame, hSame, beq_self_eq_true]
  · rw [if_neg hSame, beq_false_of_ne hSame]

theorem lookup_erase
    (map : List (BitVec w × T))
    (id other : BitVec w) :
    (map.filter (fun p => p.1 ≠ id)).lookup other =
      if other = id then none else map.lookup other := by
  induction map with
  | nil => simp
  | cons p rest ih =>
      by_cases hKey : p.1 = id
      · rw [List.filter_cons_of_neg (by simp [hKey]), ih,
          lookup_cons_word]
        split
        case isTrue => rfl
        case isFalse hNe =>
          rw [if_neg (by rwa [hKey])]
      · rw [List.filter_cons_of_pos (by simp [hKey]),
          lookup_cons_word, lookup_cons_word, ih]
        by_cases hOther : other = p.1
        · rw [if_pos hOther, if_pos hOther,
            if_neg (by rwa [hOther])]
        · rw [if_neg hOther, if_neg hOther]

/- The id of the next object is not live. -/
theorem Represents.next
    (hRep : Represents s m)
    (t : T) :
    (s.create t).1.toNat = m.nextId ∧
      s.tryGet (s.create t).1 = none := by
  have hNext : (s.create t).1.toNat = m.nextId := by
    unfold create IDMap.nextId
    rw [hRep.free, hRep.maxId]
    cases s.free with
    | nil => rfl
    | cons id rest => rfl
  refine ⟨hNext, ?_⟩
  rw [hRep.object, hNext, m.get_nextId]

theorem map_create
    (hRep : Represents s m)
    (t : T) :
    (s.create t).2.map = ((s.create t).1, t) :: s.map := by
  have hNone := (hRep.next t).2
  unfold create tryGet at *
  cases hFree : s.free with
  | nil =>
      simp only [hFree] at hNone
      exact insert_of_none hNone t
  | cons id rest =>
      simp only [hFree] at hNone
      exact insert_of_none hNone t

theorem tryGet_create
    (hRep : Represents s m)
    (t : T)
    (other : BitVec w) :
    (s.create t).2.tryGet other =
      if other = (s.create t).1 then some t
      else s.tryGet other := by
  rw [tryGet, map_create hRep, lookup_cons_word]
  rfl

/- Where the ids do not run out, words act as the numbers. -/
theorem represents_create
    (hRep : Represents s m)
    (t : T)
    (hSome : s.free = [] → s.maxId ≠ BitVec.allOnes w) :
    Represents (s.create t).2 (m.create t) := by
  have hNext := (hRep.next t).1
  refine ⟨?_, ?_, fun other => ?_⟩
  · change
      (if m.free = [] then m.maxId + 1 else m.maxId) = _
    rw [hRep.free, hRep.maxId]
    unfold create
    cases hFree : s.free with
    | nil =>
        have hNe : s.maxId.toNat ≠ 2 ^ w - 1 := by
          rw [← BitVec.toNat_allOnes]
          exact fun hEq =>
            hSome hFree (BitVec.eq_of_toNat_eq hEq)
        have hLt := s.maxId.isLt
        rw [List.map_nil, if_pos rfl]
        change _ = (s.maxId + 1#w).toNat
        rw [BitVec.toNat_add, BitVec.toNat_ofNat,
          Nat.add_mod_mod, Nat.mod_eq_of_lt (by omega)]
    | cons id rest => rfl
  · change m.free.tail = _
    rw [hRep.free]
    unfold create
    cases s.free with
    | nil => rfl
    | cons id rest => rfl
  · rw [tryGet_create hRep, IDMap.get_create, hRep.object,
      ← hNext]
    simp only [BitVec.toNat_inj]

theorem tryGet_destroy
    (hDestroy : s.destroy id = some t)
    (other : BitVec w) :
    t.tryGet other =
      if other = id then none else s.tryGet other := by
  rw [destroy, Option.ite_none_right_eq_some] at hDestroy
  rw [← Option.some.inj hDestroy.2]
  exact lookup_erase s.map id other

theorem represents_destroy
    (hRep : Represents s m)
    (hDestroy : s.destroy id = some t) :
    ∃ n, m.destroy id.toNat = some n ∧ Represents t n := by
  have hGet := tryGet_destroy hDestroy
  rw [destroy, Option.ite_none_right_eq_some] at hDestroy
  rcases hDestroy with ⟨hLive, hEq⟩
  have hLive' : (m.get id.toNat).isSome := by
    rw [← hRep.object]
    exact hLive
  have hErase :
      m.destroy id.toNat = some (m.erase id.toNat hLive') :=
    dif_pos hLive'
  have hNot : id ∉ s.free := by
    intro hMem
    have hNone :=
      (m.freed id.toNat (by
        rw [hRep.free]
        exact List.mem_map_of_mem hMem)).1
    rw [hNone] at hLive'
    cases hLive'
  obtain rfl := Option.some.inj hEq
  refine ⟨_, hErase, hRep.maxId, ?_, fun other => ?_⟩
  · change m.free.orderedInsert (· ≤ ·) id.toNat = _
    rw [hRep.free, insertFree, if_neg hNot,
      List.map_orderedInsert (· ≤ ·) (· ≤ ·)]
    · exact fun _ _ => Iff.rfl
    · exact fun _ _ => Iff.rfl
  · rw [hGet, IDMap.get_destroy hErase, hRep.object]
    simp only [BitVec.toNat_inj]

------------------------------------------------------------
-- Runs
------------------------------------------------------------

variable {initial : BitVec w} {events : List (Event (BitVec w) T)}
variable {e : Event (BitVec w) T}

theorem objectOf_snoc
    (events : List (Event (BitVec w) T))
    (e : Event (BitVec w) T) :
    objectOf (events ++ [e]) = record (objectOf events) e := by
  rw [objectOf, List.foldl_append]
  rfl

theorem handedOut_snoc :
    HandedOut (events ++ [e]) id ↔
      HandedOut events id ∨ ∃ t, e = .create t id := by
  simp only [HandedOut, List.mem_append, List.mem_singleton,
    exists_or, eq_comm]

/- Operations that make no id hand out none. -/
theorem handedOut_of_not_create
    (hNot : ∀ t id, e ≠ .create t id) :
    HandedOut (events ++ [e]) id ↔ HandedOut events id := by
  rw [handedOut_snoc, or_iff_left]
  rintro ⟨t, hEq⟩
  exact hNot t id hEq

/- The free ids are those that were freed before. -/
theorem free_create
    (s : IDWords w T)
    (t : T)
    (other : BitVec w) :
    other ∈ (s.create t).2.free ↔ other ∈ s.free.tail := by
  unfold create
  cases s.free with
  | nil => rfl
  | cons id rest => rfl

section

variable (hLawful : Lawful initial events s)

include hLawful

theorem Lawful.answered_snoc
    (hLast : Answered (objectOf events) e)
    {before after : List (Event (BitVec w) T)}
    {d : Event (BitVec w) T}
    (hEvents : events ++ [e] = before ++ d :: after) :
    Answered (objectOf before) d := by
  rcases Transition.snoc_eq_split hEvents with
    ⟨rfl, rfl, -⟩ | ⟨init, -, hInit⟩
  · exact hLast
  · exact hLawful.answered before d init hInit

/- A lookup changes nothing. -/
theorem Lawful.lookup
    (hRecord : record (objectOf events) e = objectOf events)
    (hNot : ∀ t id, e ≠ .create t id)
    (hLast : Answered (objectOf events) e) :
    Lawful initial (events ++ [e]) s := by
  refine ⟨hLawful.distinct, hLawful.disjoint, fun id => ?_,
    fun id => ?_, fun id => ?_, ?_⟩
  · rw [handedOut_of_not_create hNot]
    exact hLawful.whole id
  · rw [handedOut_of_not_create hNot]
    exact hLawful.range id
  · rw [objectOf_snoc, hRecord]
    exact hLawful.found id
  · intro before d after hEvents
    exact hLawful.answered_snoc hLast hEvents

theorem Lawful.destroy
    (hDestroy : s.destroy id = some t) :
    Lawful initial (events ++ [.destroy id]) t := by
  have hGet := tryGet_destroy hDestroy
  rw [IDWords.destroy, Option.ite_none_right_eq_some]
    at hDestroy
  rcases hDestroy with ⟨hLive, hEq⟩
  have hFree :
      ∀ other, other ∈ t.free ↔ other = id ∨ other ∈ s.free := by
    intro other
    rw [← Option.some.inj hEq]
    unfold insertFree
    split
    case isTrue hMem =>
      exact ⟨.inr, fun hOr => hOr.elim (· ▸ hMem) (fun h => h)⟩
    case isFalse => exact List.mem_orderedInsert _
  have hNot :
      ∀ (u : T) other, Event.destroy id ≠ .create u other := by
    intro u other hSame
    cases hSame
  refine ⟨?_, fun other hMem => ?_, fun other => ?_,
    fun other => ?_, fun other => ?_, ?_⟩
  · rw [← Option.some.inj hEq]
    exact
      hLawful.distinct.sublist (List.filter_sublist.map _)
  · rw [hGet]
    split
    case isTrue => rfl
    case isFalse hNe =>
      exact
        hLawful.disjoint other
          (((hFree other).mp hMem).resolve_left hNe)
  · rw [handedOut_of_not_create hNot, ← hLawful.whole, hFree,
      hGet]
    by_cases hSame : other = id
    · simp [hSame, hLive]
    · simp [hSame]
  · rw [handedOut_of_not_create hNot, hLawful.range,
      ← Option.some.inj hEq]
  · rw [hGet, objectOf_snoc, hLawful.found]
    exact (Function.update_apply ..).symm
  · intro before d after hEvents
    refine hLawful.answered_snoc ?_ hEvents
    change (objectOf events id).isSome
    rw [← hLawful.found]
    exact hLive

theorem Lawful.create
    (hRep : Represents s m)
    (hAbove : initial.toNat ≤ s.maxId.toNat)
    (hSome : s.free = [] → s.maxId ≠ BitVec.allOnes w)
    (t : T) :
    Lawful initial (events ++ [.create t (s.create t).1])
      (s.create t).2 := by
  have hNone := (hRep.next t).2
  have hGet := tryGet_create hRep t
  have hRep' := represents_create hRep t hSome
  have hHanded :
      ∀ other,
        HandedOut (events ++ [.create t (s.create t).1]) other ↔
          HandedOut events other ∨ other = (s.create t).1 := by
    intro other
    rw [handedOut_snoc]
    simp [eq_comm]
  refine ⟨?_, fun other hMem => ?_, fun other => ?_,
    fun other => ?_, fun other => ?_, ?_⟩
  · rw [map_create hRep, List.map_cons, List.nodup_cons]
    exact ⟨not_mem_keys hNone, hLawful.distinct⟩
  · rw [hRep'.object]
    apply ((m.create t).freed other.toNat _).1
    rw [hRep'.free]
    exact List.mem_map_of_mem hMem
  · rw [hHanded, ← hLawful.whole, hGet, free_create]
    unfold IDWords.create at *
    cases hFree : s.free with
    | nil =>
        by_cases hSame : other = s.maxId <;>
          simp [hSame]
    | cons id rest =>
        by_cases hSame : other = id <;> simp [hSame]
  · rw [hHanded, hLawful.range, ← hRep'.maxId]
    change
      _ ↔ _ ∧ _ < if m.free = [] then m.maxId + 1 else m.maxId
    rw [hRep.free, hRep.maxId]
    unfold IDWords.create
    cases hFree : s.free with
    | nil =>
        simp only [List.map_nil, if_true, ← BitVec.toNat_inj]
        omega
    | cons id rest =>
        have hId : id ∈ s.free := by
          rw [hFree]
          exact List.mem_cons_self
        have hRange :=
          (hLawful.range id).mp
            ((hLawful.whole id).mp (.inr hId))
        simp only [List.map_cons, reduceCtorEq, if_false,
          ← BitVec.toNat_inj]
        omega
  · rw [hGet, objectOf_snoc, hLawful.found]
    exact (Function.update_apply ..).symm
  · intro before d after hEvents
    refine hLawful.answered_snoc ?_ hEvents
    change objectOf events (s.create t).1 = none
    rw [← hLawful.found]
    exact hNone

end

/- What a run keeps where the ids do not run out. -/
structure Inv
    (initial : BitVec w)
    (events : List (Event (BitVec w) T))
    (s : IDWords w T) : Prop where
  lawful : Lawful initial events s
  above : initial.toNat ≤ s.maxId.toNat
  represents : ∃ m : IDMap T, Represents s m

theorem inv_empty (initial : BitVec w) :
    Inv initial [] (empty initial : IDWords w T) := by
  refine
    ⟨⟨List.nodup_nil, fun _ _ => rfl, fun id => ?_,
        fun id => ?_, fun _ => rfl, ?_⟩,
      Nat.le_refl _, _, represents_empty initial⟩
  · simp [HandedOut, tryGet, empty]
  · simp [HandedOut, empty]
  · intro before e after hEvents
    simp at hEvents

theorem Inv.step
    (hInv : Inv initial events s)
    (hStep : Step s e t)
    (hSome : Unexhausted s e t) :
    Inv initial (events ++ [e]) t := by
  rcases hInv with ⟨hLawful, hAbove, m, hRep⟩
  cases hStep with
  | @create object =>
      have hNew := hSome object _ rfl
      have hRep' := represents_create hRep object hNew
      refine
        ⟨hLawful.create hRep hAbove hNew object, ?_, _, hRep'⟩
      rw [← hRep'.maxId]
      change
        _ ≤ if m.free = [] then m.maxId + 1 else m.maxId
      rw [hRep.maxId]
      split <;> omega
  | destroy hDestroy =>
      rcases represents_destroy hRep hDestroy with
        ⟨n, -, hRep'⟩
      refine ⟨hLawful.destroy hDestroy, ?_, n, hRep'⟩
      rw [destroy, Option.ite_none_right_eq_some] at hDestroy
      rw [← Option.some.inj hDestroy.2]
      exact hAbove
  | @tryGet id =>
      have hLast := hLawful.found id
      refine
        ⟨hLawful.lookup rfl (fun _ _ hSame => ?_) hLast,
          hAbove, m, hRep⟩
      cases hSame
  | get hGet =>
      have hLast := (hLawful.found _).symm.trans hGet
      refine
        ⟨hLawful.lookup rfl (fun _ _ hSame => ?_) hLast,
          hAbove, m, hRep⟩
      cases hSame

/- The map is lawful in every run that has an id to give. -/
theorem lawful_of_run
    (hRun :
      Transition.Run
        (Transition.restrict Step Unexhausted)
        (empty initial : IDWords w T) events s) :
    Lawful initial events s := by
  have hInv : Inv initial events s := by
    induction hRun with
    | nil => exact inv_empty initial
    | snoc _ hLast ih => exact ih.step hLast.1 hLast.2
  exact hInv.lawful

theorem lawful_of_run_reuse :
    Lawful 1#32
      [.create 'a' 1#32, .create 'b' 2#32, .destroy 1#32,
        .create 'c' 1#32]
      ⟨3#32, [(1#32, 'c'), (2#32, 'b')], []⟩ := by
  refine
    lawful_of_run
      (.cons ⟨.create, ?_⟩
        (.cons ⟨.create, ?_⟩
          (.cons ⟨.destroy rfl, ?_⟩
            (.cons ⟨.create, ?_⟩ .nil))))
  all_goals
    intro t id _ _
    decide

/- Creations that go on until the ids start again. -/
def creations (n : Nat) : List (Event (BitVec 32) Unit) :=
  (List.range n).map (fun i =>
    .create () (BitVec.ofNat 32 (i + 1)))

theorem run_creations (n : Nat) :
    ∃ s : IDWords 32 Unit,
      Transition.Run Step (empty 1) (creations n) s ∧
        s.maxId = BitVec.ofNat 32 (n + 1) ∧ s.free = [] := by
  induction n with
  | zero => exact ⟨_, .nil, rfl, rfl⟩
  | succ n ih =>
      rcases ih with ⟨s, hRun, hMaxId, hFree⟩
      have hId : (s.create ()).1 = BitVec.ofNat 32 (n + 1) := by
        unfold create
        rw [hFree]
        exact hMaxId
      refine ⟨(s.create ()).2, ?_, ?_, ?_⟩
      · rw [creations, List.range_succ, List.map_append,
          List.map_singleton, ← hId]
        exact hRun.snoc .create
      · unfold create
        rw [hFree, BitVec.ofNat_add, ← hMaxId]
        rfl
      · unfold create
        rw [hFree]

/- An object that was created and not destroyed is live. -/
theorem isSome_objectOf_creations
    {n i : Nat}
    (hLess : i < n) :
    (objectOf (creations n) (BitVec.ofNat 32 (i + 1))).isSome
      := by
  induction n with
  | zero => cases hLess
  | succ n ih =>
      rw [creations, List.range_succ, List.map_append,
        List.map_singleton]
      change
        (objectOf (creations n ++ [_]) _).isSome
      rw [objectOf_snoc, record, Function.update_apply]
      split
      case isTrue => rfl
      case isFalse hNe =>
        apply ih
        have hNot : i ≠ n := fun hSame => hNe (by rw [hSame])
        omega

/- After all words were given, a live id is given again. -/
theorem creations_not_lawful :
    ∃ s : IDWords 32 Unit,
      Transition.Run Step (empty 1)
          (creations (2 ^ 32 + 1)) s ∧
        ¬ Lawful 1#32 (creations (2 ^ 32 + 1)) s := by
  rcases run_creations (2 ^ 32 + 1) with ⟨s, hRun, -, -⟩
  refine ⟨s, hRun, fun hLawful => ?_⟩
  have hEvents :
      creations (2 ^ 32 + 1) =
        creations (2 ^ 32) ++ [.create () 1#32] := by
    rw [creations, List.range_succ, List.map_append]
    rfl
  have hFresh := hLawful.answered _ _ [] hEvents
  have hLive :=
    isSome_objectOf_creations (n := 2 ^ 32) (i := 0) (by omega)
  change objectOf (creations (2 ^ 32)) 1#32 = none at hFresh
  change (objectOf (creations (2 ^ 32)) 1#32).isSome at hLive
  rw [hFresh] at hLive
  cases hLive

end IDWords

end Ps3emu
