import Mathlib.Data.Finset.Basic
import Ps3emu.Memory.ModificationMap

/-
  The renderer's cache of values that are read from ranges
  of main memory: a store of items by key, and the set of
  keys whose items are dirty.  The map of the source is a
  list here, since no operation depends on its order.

  Key definitions include:
    * `CacheRange`, `CacheItem`, `Cache`
    * `Cache.retrieve`, `Cache.insert`, `Cache.watch`
    * `ModificationMap.resetAll`
-/

------------------------------------------------------------
-- Items and Operations
------------------------------------------------------------

namespace Ps3emu

/-
  A range whose pages are all in the array of page marks,
  as `marked` and `reset` assert.
-/
structure CacheRange where
  va : Ps3Uintptr
  size : Ps3Uintptr
  fits : va.toNat + size.toNat < 0xffffc000
deriving DecidableEq

/- `value` is what the last update read, if there was one. -/
structure CacheItem (V : Type) where
  range : CacheRange
  value : Option V
deriving DecidableEq

structure Cache (K V : Type) [DecidableEq K] where
  store : List (K × CacheItem V)
  dirty : Finset K

namespace Cache

variable {K V : Type} [DecidableEq K]

def empty : Cache K V where
  store := []
  dirty := ∅

/- `updater->update(value)` for the keys in a set. -/
def update
    (store : List (K × CacheItem V))
    (read : CacheRange → V)
    (keys : Finset K) : List (K × CacheItem V) :=
  store.map (fun p =>
    if p.1 ∈ keys then
      (p.1, { p.2 with value := some (read p.2.range) })
    else p)

def sync
    (c : Cache K V)
    (read : CacheRange → V)
    (key : K) : Cache K V :=
  if key ∈ c.dirty then
    { store := update c.store read {key}
      dirty := c.dirty.erase key }
  else c

/- A key that is not stored is not synchronised. -/
def retrieve
    (c : Cache K V)
    (read : CacheRange → V)
    (key : K) : Cache K V :=
  if c.store.any (fun p => p.1 == key) then c.sync read key
  else c

def syncAll
    (c : Cache K V)
    (read : CacheRange → V) : Cache K V where
  store := update c.store read c.dirty
  dirty := ∅

/- `emplace` keeps the item that a key already has. -/
def insert
    (c : Cache K V)
    (key : K)
    (range : CacheRange) : Cache K V where
  store :=
    if c.store.any (fun p => p.1 == key) then c.store
    else c.store ++ [(key, ⟨range, none⟩)]
  dirty := Insert.insert key c.dirty

/- Two ranges meet, with ends that may wrap around. -/
def intersects (a alen b blen : Ps3Uintptr) : Bool :=
  !(decide (a + alen ≤ b) || decide (b + blen ≤ a))

/- Make dirty the items that a test on the range selects. -/
def watch
    (c : Cache K V)
    (action : Ps3Uintptr → Ps3Uintptr → Bool) :
    Cache K V :=
  { c with
    dirty :=
      c.dirty ∪
        ((c.store.filter (fun p =>
          action p.2.range.va p.2.range.size)).map
            Prod.fst).toFinset }

def invalidate
    (c : Cache K V)
    (va size : Ps3Uintptr) : Cache K V :=
  c.watch (fun a alen => intersects a alen va size)

/- The keys that become dirty are those of selected items. -/
theorem dirty_subset_watch
    (c : Cache K V)
    (action : Ps3Uintptr → Ps3Uintptr → Bool) :
    c.dirty ⊆ (c.watch action).dirty :=
  Finset.subset_union_left

/- An updated store has an old item at every position. -/
theorem mem_update
    {store : List (K × CacheItem V)}
    {read : CacheRange → V}
    {keys : Finset K}
    {p : K × CacheItem V}
    (hp : p ∈ update store read keys) :
    (p ∈ store ∧ p.1 ∉ keys) ∨
      p.2.value = some (read p.2.range) := by
  rcases List.mem_map.mp hp with ⟨q, hq, rfl⟩
  by_cases hKey : q.1 ∈ keys
  · right
    rw [if_pos hKey]
  · left
    rw [if_neg hKey]
    exact ⟨hq, hKey⟩

end Cache

/- `resetCacheWatch`: the marks of every item are cleared. -/
def ModificationMap.resetAll
    {K V : Type}
    [DecidableEq K]
    (m : ModificationMap)
    (c : Cache K V) : ModificationMap :=
  c.store.foldl
    (fun m p => m.reset p.2.range.va p.2.range.size) m

end Ps3emu
