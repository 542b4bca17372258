import Ps3emu.Library.Transition
import Ps3emu.Rsx.Cache

/-
  Runs of a cache whose items have ranges anywhere in the
  address space.  A cache owns its values, and each operation
  happens at its own time.

  Key definitions include:
    * `ResourceCache`, `ResourceCache.Op`
    * `Shares`
    * `Observed`, `Observed.step`
    * `Coherent`, `Allowed`

  Key theorems include:
    * `intersects_of_shares`
    * `Inv.step`
    * `coherent_of_run`
-/

------------------------------------------------------------
-- Items and Operations
------------------------------------------------------------

namespace Ps3emu

/-
  `ValueInfo`: the value, the range of its updater, and when
  the value was last updated.
-/
structure ValueInfo where
  value : Nat
  va : Ps3Uintptr
  size : Ps3Uintptr
  updated : Option Nat
  deriving DecidableEq

/- The store, the dirty keys, and the values destroyed so far. -/
structure ResourceCache (K : Type) [DecidableEq K] where
  store : List (K × ValueInfo)
  dirty : Finset K
  destroyed : Finset Nat

namespace ResourceCache

variable {K : Type} [DecidableEq K]

def empty : ResourceCache K where
  store := []
  dirty := ∅
  destroyed := ∅

def find (c : ResourceCache K) (key : K) : Option ValueInfo :=
  (c.store.find? (fun p => p.1 == key)).map Prod.snd

/- `updater->update(value)` for the keys in a set. -/
def update
    (now : Nat)
    (store : List (K × ValueInfo))
    (keys : Finset K) : List (K × ValueInfo) :=
  store.map (fun p =>
    if p.1 ∈ keys then (p.1, { p.2 with updated := some now })
    else p)

/- A dirty key without an item would have no updater. -/
def sync
    (c : ResourceCache K)
    (now : Nat)
    (key : K) : Option (ResourceCache K) :=
  if key ∈ c.dirty then
    if (c.find key).isSome then
      some
        { c with
          store := update now c.store {key}
          dirty := c.dirty.erase key }
    else none
  else some c

def retrieve
    (c : ResourceCache K)
    (now : Nat)
    (key : K) :
    Option (ResourceCache K × Option ValueInfo) :=
  match c.find key with
  | none => some (c, none)
  | some _ => (c.sync now key).map (fun t => (t, t.find key))

/-
  `emplace` keeps the item of a key that is stored, and the
  value that was given for it is destroyed.
-/
def insert
    (c : ResourceCache K)
    (key : K)
    (val : Nat)
    (va size : Ps3Uintptr) : ResourceCache K :=
  let dirty := Insert.insert key c.dirty
  if (c.find key).isSome then
    { c with
      dirty := dirty
      destroyed := Insert.insert val c.destroyed }
  else
    { c with
      store := c.store ++ [(key, ⟨val, va, size, none⟩)]
      dirty := dirty }

def watch
    (c : ResourceCache K)
    (action : Ps3Uintptr → Ps3Uintptr → Bool) :
    ResourceCache K :=
  { c with
    dirty :=
      c.dirty ∪
        ((c.store.filter (fun p =>
          action p.2.va p.2.size)).map Prod.fst).toFinset }

def invalidate
    (c : ResourceCache K)
    (va size : Ps3Uintptr) : ResourceCache K :=
  c.watch (fun a alen => Cache.intersects a alen va size)

/- Every dirty key is asserted to have an item. -/
def syncAll
    (c : ResourceCache K)
    (now : Nat) : Option (ResourceCache K) :=
  if ∀ key ∈ c.dirty, (c.find key).isSome then
    some
      { c with
        store := update now c.store c.dirty
        dirty := ∅ }
  else none

inductive Op (K : Type) where
  | insert (key : K) (val : Nat) (va size : Ps3Uintptr)
  | invalidate (va size : Ps3Uintptr)
  | watch (action : Ps3Uintptr → Ps3Uintptr → Bool)
  | retrieve (key : K)
  | sync (key : K)
  | syncAll

/- An operation at a time. -/
def perform
    (c : ResourceCache K)
    (now : Nat) : Op K → Option (ResourceCache K)
  | .insert key val va size => some (c.insert key val va size)
  | .invalidate va size => some (c.invalidate va size)
  | .watch action => some (c.watch action)
  | .retrieve key => (c.retrieve now key).map Prod.fst
  | .sync key => c.sync now key
  | .syncAll => c.syncAll now

------------------------------------------------------------
-- Coherence of Items
------------------------------------------------------------

variable {K : Type} [DecidableEq K]

/- An address of a range, which wraps around where it ends. -/
def InRange (va size x : Ps3Uintptr) : Prop :=
  x - va < size

instance (va size x : Ps3Uintptr) :
    Decidable (InRange va size x) :=
  inferInstanceAs (Decidable (_ < _))

def Shares (a alen b blen : Ps3Uintptr) : Prop :=
  ∃ x, InRange a alen x ∧ InRange b blen x

/- The items that an operation invalidates. -/
def Op.Selects (op : Op K) (i : ValueInfo) : Prop :=
  match op with
  | .invalidate va size => Shares i.va i.size va size
  | .watch action => action i.va i.size = true
  | _ => False

/- A cache with the time and what has been done to it. -/
structure Observed (K : Type) [DecidableEq K] where
  cache : ResourceCache K
  now : Nat
  log : List (Nat × Op K)

def Observed.start : Observed K where
  cache := empty
  now := 0
  log := []

def Observed.step
    (o : Observed K)
    (op : Op K) : Option (Observed K) :=
  (o.cache.perform o.now op).map (fun c =>
    { cache := c
      now := o.now + 1
      log := (o.now, op) :: o.log })

/- The last update came after every invalidation. -/
def Observed.IsFresh (o : Observed K) (i : ValueInfo) : Prop :=
  ∃ time,
    i.updated = some time ∧
      ∀ e ∈ o.log, e.2.Selects i → e.1 < time

/-
  Dirty keys are present, a value is fresh when it is
  retrieved, and no value that is stored or was given to the
  cache is destroyed.
-/
structure Coherent (o : Observed K) : Prop where
  present : ∀ key ∈ o.cache.dirty, (o.cache.find key).isSome
  fresh :
    ∀ key, (o.cache.find key).isSome →
      ∃ t i,
        o.cache.retrieve o.now key = some (t, some i) ∧
          o.IsFresh i
  stored :
    ∀ p ∈ o.cache.store, p.2.value ∉ o.cache.destroyed
  given :
    ∀ time key val va size,
      (time, Op.insert key val va size) ∈ o.log →
        val ∉ o.cache.destroyed

/-
  What an operation has to respect: no key is inserted again,
  and the test of an invalidation finds the ranges that share
  an address with it.
-/
def Allowed (o : Observed K) (op : Op K) : Prop :=
  match op with
  | .insert key _ _ _ => o.cache.find key = none
  | .invalidate va size =>
      ∀ p ∈ o.cache.store,
        Shares p.2.va p.2.size va size →
          Cache.intersects p.2.va p.2.size va size = true
  | _ => True

/- A step of a run in which every operation is allowed. -/
def Step (o : Observed K) (op : Op K) (t : Observed K) : Prop :=
  o.step op = some t ∧ Allowed o op

variable {K : Type} [DecidableEq K] {c : ResourceCache K} {key : K}
variable {i : ValueInfo}

theorem mem_of_find (hFind : c.find key = some i) :
    (key, i) ∈ c.store := by
  rw [find, Option.map_eq_some_iff] at hFind
  rcases hFind with ⟨p, hP, rfl⟩
  have hKey := List.find?_some hP
  rw [beq_iff_eq] at hKey
  rw [← hKey]
  exact List.mem_of_find?_eq_some hP

theorem isSome_find_iff :
    (c.find key).isSome = true ↔ ∃ p ∈ c.store, p.1 = key := by
  rw [find, Option.isSome_map, List.find?_isSome]
  simp only [beq_iff_eq]

/- An item is what it was, or it has just been updated. -/
theorem mem_update
    {now : Nat}
    {store : List (K × ValueInfo)}
    {keys : Finset K}
    {p : K × ValueInfo}
    (hp : p ∈ update now store keys) :
    ∃ q ∈ store,
      q.1 = p.1 ∧
        ((p.1 ∉ keys ∧ p.2 = q.2) ∨
          (p.1 ∈ keys ∧
            p.2 = { q.2 with updated := some now })) := by
  rcases List.mem_map.mp hp with ⟨q, hq, rfl⟩
  refine ⟨q, hq, ?_⟩
  by_cases hKey : q.1 ∈ keys
  · rw [if_pos hKey]
    exact ⟨rfl, .inr ⟨hKey, rfl⟩⟩
  · rw [if_neg hKey]
    exact ⟨rfl, .inl ⟨hKey, rfl⟩⟩

theorem exists_update
    {now : Nat}
    {store : List (K × ValueInfo)}
    (keys : Finset K)
    (hKey : ∃ p ∈ store, p.1 = key) :
    ∃ p ∈ update now store keys, p.1 = key := by
  rcases hKey with ⟨p, hp, rfl⟩
  refine ⟨_, List.mem_map_of_mem hp, ?_⟩
  split <;> rfl

/- The keys that a watch makes dirty. -/
theorem mem_dirty_watch
    {action : Ps3Uintptr → Ps3Uintptr → Bool} :
    key ∈ (c.watch action).dirty ↔
      key ∈ c.dirty ∨
        ∃ p ∈ c.store,
          action p.2.va p.2.size = true ∧ p.1 = key := by
  rw [watch, Finset.mem_union, List.mem_toFinset, List.mem_map]
  simp only [List.mem_filter, and_assoc]

------------------------------------------------------------
-- The Invariant
------------------------------------------------------------

variable {K : Type} [DecidableEq K] {o t : Observed K} {op : Op K}

/- Every item that is not dirty is fresh. -/
structure Inv (o : Observed K) : Prop where
  times : ∀ e ∈ o.log, e.1 < o.now
  present :
    ∀ key ∈ o.cache.dirty, ∃ p ∈ o.cache.store, p.1 = key
  clean :
    ∀ p ∈ o.cache.store, p.1 ∉ o.cache.dirty → o.IsFresh p.2
  alive : o.cache.destroyed = ∅

/- What is seen of an operation. -/
def Observed.after
    (o : Observed K)
    (op : Op K)
    (c : ResourceCache K) : Observed K where
  cache := c
  now := o.now + 1
  log := (o.now, op) :: o.log

theorem Observed.IsFresh.keep
    {i : ValueInfo}
    (hFresh : o.IsFresh i)
    (hSelects : ¬ op.Selects i)
    (c : ResourceCache K) :
    (o.after op c).IsFresh i := by
  rcases hFresh with ⟨time, hTime, hLog⟩
  refine ⟨time, hTime, fun e he hSel => ?_⟩
  rcases List.mem_cons.mp he with rfl | hOld
  · exact absurd hSel hSelects
  · exact hLog e hOld hSel

section

variable (hInv : Inv o)

include hInv

theorem Inv.isFresh_now
    {i : ValueInfo}
    (hUpdated : i.updated = some o.now)
    (hSelects : ¬ op.Selects i)
    (c : ResourceCache K) :
    (o.after op c).IsFresh i := by
  refine ⟨o.now, hUpdated, fun e he hSel => ?_⟩
  rcases List.mem_cons.mp he with rfl | hOld
  · exact absurd hSel hSelects
  · exact hInv.times e hOld

theorem Inv.times_after
    (op : Op K)
    (c : ResourceCache K) :
    ∀ e ∈ (o.after op c).log, e.1 < (o.after op c).now := by
  intro e he
  rcases List.mem_cons.mp he with rfl | hOld
  · exact Nat.lt_succ_self _
  · exact Nat.lt_succ_of_lt (hInv.times e hOld)

/- Nothing of the cache changes. -/
theorem Inv.same
    (hSelects : ∀ i, ¬ op.Selects i) :
    Inv (o.after op o.cache) where
  times := hInv.times_after op _
  present := hInv.present
  clean := fun p hp hDirty =>
    (hInv.clean p hp hDirty).keep (hSelects _) _
  alive := hInv.alive

/- Some dirty items are updated. -/
theorem Inv.update
    (hSelects : ∀ i, ¬ op.Selects i)
    {keys dirty : Finset K}
    (hSub : dirty ⊆ o.cache.dirty)
    (hRest : ∀ k ∈ o.cache.dirty, k ∉ keys → k ∈ dirty) :
    Inv
      (o.after op
        { o.cache with
          store :=
            ResourceCache.update o.now o.cache.store keys
          dirty := dirty }) where
  times := hInv.times_after op _
  present := fun key hKey =>
    exists_update keys (hInv.present key (hSub hKey))
  clean := by
    intro p hp hDirty
    rcases mem_update hp with ⟨q, hq, hKey, hCases⟩
    rcases hCases with ⟨hNot, hSame⟩ | ⟨-, hNew⟩
    · rw [hSame]
      refine (hInv.clean q hq ?_).keep (hSelects _) _
      intro hOld
      rw [hKey] at hOld
      exact hDirty (hRest _ hOld hNot)
    · refine hInv.isFresh_now ?_ (hSelects _) _
      rw [hNew]
  alive := hInv.alive

/- A watch makes dirty at least what is invalidated. -/
theorem Inv.watch
    {action : Ps3Uintptr → Ps3Uintptr → Bool}
    (hAction :
      ∀ p ∈ o.cache.store, op.Selects p.2 →
        action p.2.va p.2.size = true) :
    Inv (o.after op (o.cache.watch action)) where
  times := hInv.times_after op _
  present := by
    intro key hKey
    rcases mem_dirty_watch.mp hKey with hOld | ⟨p, hp, -, hEq⟩
    · exact hInv.present key hOld
    · exact ⟨p, hp, hEq⟩
  clean := by
    intro p hp hDirty
    have hNot := fun h => hDirty (mem_dirty_watch.mpr h)
    refine (hInv.clean p hp (fun h => hNot (.inl h))).keep ?_ _
    intro hSel
    exact hNot (.inr ⟨p, hp, hAction p hp hSel, rfl⟩)
  alive := hInv.alive

theorem Inv.insert
    {key : K}
    {val : Nat}
    {va size : Ps3Uintptr}
    (hNew : o.cache.find key = none) :
    Inv
      (o.after (.insert key val va size)
        (o.cache.insert key val va size)) := by
  have hNone : ¬ ((o.cache.find key).isSome = true) := by
    rw [hNew]
    exact Bool.false_ne_true
  rw [ResourceCache.insert, if_neg hNone]
  refine ⟨hInv.times_after _ _, ?_, ?_, hInv.alive⟩
  · intro k hk
    rcases Finset.mem_insert.mp hk with rfl | hOld
    · exact ⟨_, List.mem_append_right _ (List.mem_singleton_self _),
        rfl⟩
    · rcases hInv.present k hOld with ⟨p, hp, hKey⟩
      exact ⟨p, List.mem_append_left _ hp, hKey⟩
  · intro p hp hDirty
    change p.1 ∉ Insert.insert key o.cache.dirty at hDirty
    rw [Finset.mem_insert, not_or] at hDirty
    rcases List.mem_append.mp hp with hOld | hLast
    · exact (hInv.clean p hOld hDirty.2).keep id _
    · rw [List.mem_singleton.mp hLast] at hDirty
      exact absurd rfl hDirty.1

theorem Inv.sync
    (hSelects : ∀ i, ¬ op.Selects i)
    {key : K}
    {c : ResourceCache K}
    (hSync : o.cache.sync o.now key = some c) :
    Inv (o.after op c) := by
  rw [ResourceCache.sync] at hSync
  split at hSync
  case isTrue hDirty =>
    rw [Option.ite_none_right_eq_some] at hSync
    obtain rfl := Option.some.inj hSync.2
    apply hInv.update hSelects (Finset.erase_subset _ _)
    intro k hk hKeys
    exact
      Finset.mem_erase.mpr
        ⟨fun h => hKeys (Finset.mem_singleton.mpr h), hk⟩
  case isFalse =>
    obtain rfl := Option.some.inj hSync
    exact hInv.same hSelects

theorem Inv.syncAll
    {c : ResourceCache K}
    (hSync : o.cache.syncAll o.now = some c) :
    Inv (o.after .syncAll c) := by
  rw [ResourceCache.syncAll, Option.ite_none_right_eq_some]
    at hSync
  obtain rfl := Option.some.inj hSync.2
  apply hInv.update (fun _ => id) (Finset.empty_subset _)
  exact fun k hk hKeys => absurd hk hKeys

/- An operation that is allowed keeps the invariant. -/
theorem Inv.step
    (hStep : Step o op t) :
    Inv t := by
  rcases hStep with ⟨hStep, hAllowed⟩
  rw [Observed.step, Option.map_eq_some_iff] at hStep
  rcases hStep with ⟨c, hPerform, rfl⟩
  change Inv (o.after op c)
  cases op with
  | insert key val va size =>
      obtain rfl := Option.some.inj hPerform
      exact hInv.insert hAllowed
  | invalidate va size =>
      obtain rfl := Option.some.inj hPerform
      exact hInv.watch hAllowed
  | watch action =>
      obtain rfl := Option.some.inj hPerform
      exact hInv.watch (fun _ _ hSel => hSel)
  | sync key => exact hInv.sync (fun _ => id) hPerform
  | syncAll => exact hInv.syncAll hPerform
  | retrieve key =>
      rw [perform, Option.map_eq_some_iff] at hPerform
      rcases hPerform with ⟨⟨c', i⟩, hRetrieve, rfl⟩
      rw [ResourceCache.retrieve] at hRetrieve
      split at hRetrieve
      · obtain ⟨rfl, -⟩ :=
          Prod.mk.inj (Option.some.inj hRetrieve)
        exact hInv.same (fun _ => id)
      · rcases Option.map_eq_some_iff.mp hRetrieve with
          ⟨c'', hSync, hEq⟩
        obtain ⟨rfl, -⟩ := Prod.mk.inj hEq
        exact hInv.sync (fun _ => id) hSync

end

theorem Inv.start : Inv (Observed.start : Observed K) where
  times := nofun
  present := nofun
  clean := nofun
  alive := rfl

/- What the invariant says to those who use the cache. -/
theorem Inv.coherent (hInv : Inv o) : Coherent o where
  present := fun key hKey =>
    isSome_find_iff.mpr (hInv.present key hKey)
  fresh := by
    intro key hKey
    rcases Option.isSome_iff_exists.mp hKey with ⟨i, hFind⟩
    have hMem := mem_of_find hFind
    by_cases hDirty : key ∈ o.cache.dirty
    · -- the item is updated first
      let c : ResourceCache K :=
        { o.cache with
          store :=
            ResourceCache.update o.now o.cache.store {key}
          dirty := o.cache.dirty.erase key }
      have hSync : o.cache.sync o.now key = some c :=
        (if_pos hDirty).trans (if_pos hKey)
      have hFound : (c.find key).isSome = true :=
        isSome_find_iff.mpr
          (exists_update {key} (isSome_find_iff.mp hKey))
      rcases Option.isSome_iff_exists.mp hFound with ⟨j, hJ⟩
      refine ⟨c, j, ?_, o.now, ?_, fun e he _ =>
        hInv.times e he⟩
      · simp only [retrieve, hFind, hSync, Option.map_some, hJ]
      · rcases mem_update (mem_of_find hJ) with
          ⟨q, -, -, ⟨hNot, -⟩ | ⟨-, hNew⟩⟩
        · exact absurd (Finset.mem_singleton_self key) hNot
        · exact congrArg ValueInfo.updated hNew
    · have hSync : o.cache.sync o.now key = some o.cache :=
        if_neg hDirty
      refine ⟨o.cache, i, ?_, hInv.clean _ hMem hDirty⟩
      simp only [retrieve, hFind, hSync, Option.map_some]
  stored := fun p hp => by
    rw [hInv.alive]
    exact Finset.notMem_empty _
  given := fun _ _ _ _ _ _ => by
    rw [hInv.alive]
    exact Finset.notMem_empty _

/- Every operation that is allowed succeeds. -/
theorem Inv.exists_step
    (hInv : Inv o)
    (hAllowed : Allowed o op) :
    ∃ t, Step o op t := by
  have hCoherent := hInv.coherent
  have hSome : ∃ c, o.cache.perform o.now op = some c := by
    cases op with
    | insert | invalidate | watch => exact ⟨_, rfl⟩
    | retrieve key =>
        cases hFind : o.cache.find key with
        | none =>
            refine ⟨o.cache, ?_⟩
            rw [perform, retrieve, hFind]
            rfl
        | some i =>
            rcases hCoherent.fresh key (by rw [hFind]; rfl) with
              ⟨c, j, hRetrieve, -⟩
            refine ⟨c, ?_⟩
            rw [perform, hRetrieve]
            rfl
    | sync key =>
        rw [perform, ResourceCache.sync]
        split
        case isTrue hDirty =>
          rw [if_pos (hCoherent.present key hDirty)]
          exact ⟨_, rfl⟩
        case isFalse => exact ⟨_, rfl⟩
    | syncAll =>
        rw [perform, ResourceCache.syncAll,
          if_pos hCoherent.present]
        exact ⟨_, rfl⟩
  rcases hSome with ⟨c, hPerform⟩
  refine ⟨o.after op c, ?_, hAllowed⟩
  rw [Observed.step, hPerform]
  rfl

/- Where every operation is allowed, a cache is coherent. -/
theorem coherent_of_run
    {ops : List (Op K)}
    (hRun : Transition.Run Step Observed.start ops o) :
    Coherent o :=
  (hRun.invariant Inv (fun _ _ _ hInv hStep => hInv.step hStep)
    Inv.start).coherent

/- A range below the top is retrieved and invalidated. -/
theorem coherent_inserted :
    ∃ o : Observed Nat,
      Transition.Run Step Observed.start
          [.insert 0 7 0x1000 0x1000, .retrieve 0,
            .invalidate 0x1800 0x1000] o ∧
        Coherent o := by
  let s : Observed Nat :=
    Observed.start.after (.insert 0 7 0x1000 0x1000)
      (empty.insert 0 7 0x1000 0x1000)
  have hInsert :
      Step Observed.start (.insert 0 7 0x1000 0x1000) s :=
    ⟨rfl, rfl⟩
  have hRetrieve : Step s (.retrieve 0) _ := ⟨rfl, trivial⟩
  have hBefore := (Transition.Run.nil.snoc hInsert).snoc hRetrieve
  have hRun :=
    @Transition.Run.snoc _ _ _ _ _ _ _
      (Op.invalidate 0x1800 0x1000) hBefore
      ⟨rfl, fun p hp _ => by
        rcases List.mem_singleton.mp hp with rfl
        decide⟩
  exact ⟨_, hRun, coherent_of_run hRun⟩

/-
  A range that ends at the top is not found by the test, and
  a value that is given for a stored key is destroyed.
-/
theorem coherent_fails :
    (∃ o : Observed Nat,
      Transition.exec Observed.step Observed.start
            [.insert 0 7 0xfffff000 0x1000, .retrieve 0,
              .invalidate 0xfffff000 0x1000] =
          some o ∧
        ¬ Coherent o) ∧
      ∃ o : Observed Nat,
        Transition.exec Observed.step Observed.start
              [.insert 0 7 0 4, .insert 0 8 0 4] =
            some o ∧
          ¬ Coherent o := by
  refine ⟨⟨_, rfl, fun hCoherent => ?_⟩,
    ⟨_, rfl, fun hCoherent => ?_⟩⟩
  · rcases hCoherent.fresh 0 rfl with
      ⟨t, i, hRetrieve, time, hTime, hLog⟩
    obtain ⟨-, hI⟩ := Prod.mk.inj (Option.some.inj hRetrieve)
    obtain rfl := Option.some.inj hI
    obtain rfl := Option.some.inj hTime
    have hLess :=
      hLog _ List.mem_cons_self
        ⟨0xfffff000, of_decide_eq_true rfl,
          of_decide_eq_true rfl⟩
    exact absurd hLess (by decide)
  · refine hCoherent.given 1 0 8 0 4 List.mem_cons_self ?_
    exact Finset.mem_insert_self _ _

end ResourceCache

end Ps3emu
