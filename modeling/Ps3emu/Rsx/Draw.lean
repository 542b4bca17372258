import Ps3emu.Library.Transition
import Ps3emu.Rsx.Watch

/-
  Draw commands and the texture cache.  A draw binds its
  textures first, reloading those that are dirty, and looks
  for modified pages afterwards, so that a modification is
  noticed for the next draw.

  Key definitions include:
    * `Draw.getTextureFromCache`, `Draw.updateTextures`
    * `Draw.State`, `Draw.Event`, `Draw.Step`
    * `Draw.UpToDate`, `Draw.NothingMissed`
    * `Draw.Inv`

  Key theorems include:
    * `Draw.binds_updateTextures`
    * `Draw.Inv.step`
    * `Draw.upToDate_iff_of_inv`
    * `Draw.draw_upToDate_iff`
-/

------------------------------------------------------------
-- Items of the Cache
------------------------------------------------------------

namespace Ps3emu

namespace Cache

variable {K V : Type} [DecidableEq K]

/- The item that `find` gives for a key. -/
def item (c : Cache K V) (key : K) : Option (CacheItem V) :=
  (c.store.find? (fun p => p.1 == key)).map Prod.snd

theorem any_iff_item
    (c : Cache K V)
    (key : K) :
    c.store.any (fun p => p.1 == key) =
      (c.item key).isSome := by
  rw [Bool.eq_iff_iff, item, Option.isSome_map,
    List.find?_isSome, List.any_eq_true]

theorem item_update
    (store : List (K × CacheItem V))
    (dirty dirty' : Finset K)
    (read : CacheRange → V)
    (keys : Finset K)
    (key : K) :
    item ⟨update store read keys, dirty'⟩ key =
      (item ⟨store, dirty⟩ key).map (fun i =>
        if key ∈ keys then
          { i with value := some (read i.range) }
        else i) := by
  simp only [item, update]
  induction store with
  | nil => rfl
  | cons p rest ih =>
      rw [List.map_cons, List.find?_cons, List.find?_cons]
      by_cases hKey : p.1 = key
      · subst hKey
        by_cases hMem : p.1 ∈ keys <;> simp [hMem]
      · have hOther : (p.1 == key) = false :=
          beq_eq_false_iff_ne.mpr hKey
        by_cases hMem : p.1 ∈ keys <;>
          simp only [hMem, if_true, if_false, hOther] <;>
          exact ih

theorem item_insert
    (c : Cache K V)
    (key other : K)
    (range : CacheRange) :
    (c.insert key range).item other =
      if other = key then
        some ((c.item key).getD ⟨range, none⟩)
      else c.item other := by
  have hAny := c.any_iff_item key
  simp only [insert, item] at hAny ⊢
  by_cases hOther : other = key
  · subst hOther
    rw [if_pos rfl, hAny]
    cases hFind : c.store.find? (fun p => p.1 == other) with
    | none => simp [hFind]
    | some p => simp [hFind]
  · have hNe : (key == other) = false :=
      beq_eq_false_iff_ne.mpr (Ne.symm hOther)
    rw [if_neg hOther]
    split
    · rfl
    · simp [List.find?_append, hNe]

/- An item that a test selects becomes dirty. -/
theorem mem_dirty_watch
    {c : Cache K V}
    {action : Ps3Uintptr → Ps3Uintptr → Bool}
    {key : K}
    {i : CacheItem V}
    (hItem : c.item key = some i)
    (hAction : action i.range.va i.range.size = true) :
    key ∈ (c.watch action).dirty := by
  rcases Option.map_eq_some_iff.mp hItem with ⟨p, hp, rfl⟩
  have hKey := List.find?_some hp
  rw [beq_iff_eq] at hKey
  apply Finset.mem_union_right
  rw [List.mem_toFinset, List.mem_map]
  refine ⟨p, List.mem_filter.mpr ⟨?_, hAction⟩, hKey⟩
  exact List.mem_of_find?_eq_some hp

theorem item_retrieve
    (c : Cache K V)
    (read : CacheRange → V)
    (key other : K) :
    (c.retrieve read key).item other =
      (c.item other).map (fun i =>
        if other = key ∧ key ∈ c.dirty then
          { i with value := some (read i.range) }
        else i) := by
  rw [retrieve, any_iff_item]
  split
  case isTrue =>
    rw [sync]
    split
    case isTrue hDirty =>
      rw [item_update c.store c.dirty]
      simp [hDirty]
    case isFalse hDirty => simp [hDirty]
  case isFalse hNone =>
    by_cases hOther : other = key
    · subst hOther
      rw [Option.not_isSome_iff_eq_none.mp hNone]
      rfl
    · simp [hOther]

theorem dirty_retrieve
    (c : Cache K V)
    (read : CacheRange → V)
    (key : K)
    (hStored : (c.item key).isSome = true) :
    (c.retrieve read key).dirty = c.dirty.erase key := by
  rw [retrieve, any_iff_item, if_pos hStored, sync]
  split
  case isTrue => rfl
  case isFalse hDirty =>
    exact (Finset.erase_eq_of_notMem hDirty).symm

end Cache

end Ps3emu

------------------------------------------------------------
-- Textures of a Draw
------------------------------------------------------------

namespace Ps3emu

namespace Draw

variable {K V : Type} [DecidableEq K]

/-
  `getTextureFromCache`, with `addTextureToCache` for a key
  that is not stored.  `range` is what the new item watches.
-/
def getTextureFromCache
    (c : Cache K V)
    (read : CacheRange → V)
    (key : K)
    (range : CacheRange) : Cache K V :=
  if c.store.any (fun p => p.1 == key) then
    c.retrieve read key
  else (c.insert key range).retrieve read key

/- The samplers that are enabled and bound from the cache. -/
def updateTextures
    (c : Cache K V)
    (read : CacheRange → V)
    (bound : List (K × CacheRange)) : Cache K V :=
  bound.foldl
    (fun c p => getTextureFromCache c read p.1 p.2) c

/-
  What binding a key comes to: its item is loaded now, since
  it was not stored or dirty, or it was clean and is kept.
-/
inductive Binds
    (read : CacheRange → V)
    (c c' : Cache K V)
    (key : K) : Prop where
  | loaded
      (i : CacheItem V)
      (hOld : c.item key = none ∨ key ∈ c.dirty)
      (hItem : c'.item key = some i)
      (hClean : key ∉ c'.dirty)
      (hValue : i.value = some (read i.range)) :
      Binds read c c' key
  | kept
      (i : CacheItem V)
      (hOld : c.item key = some i)
      (hOldClean : key ∉ c.dirty)
      (hItem : c'.item key = some i)
      (hClean : key ∉ c'.dirty) :
      Binds read c c' key

variable (c : Cache K V) (read : CacheRange → V)

theorem binds_getTexture
    (key : K)
    (range : CacheRange) :
    Binds read c (getTextureFromCache c read key range)
      key := by
  rw [getTextureFromCache, Cache.any_iff_item]
  cases hItem : c.item key with
  | some i =>
      have hStored : (c.item key).isSome = true := by
        rw [hItem]
        rfl
      have hDirty := c.dirty_retrieve read key hStored
      have hNow := c.item_retrieve read key key
      simp only [Option.isSome_some, if_true]
      by_cases hOld : key ∈ c.dirty
      · refine .loaded
          { i with value := some (read i.range) }
          (.inr hOld) ?_ ?_ rfl
        · simp [hNow, hItem, hOld]
        · simp [hDirty]
      · refine .kept i hItem hOld ?_ ?_
        · simp [hNow, hItem, hOld]
        · simp [hDirty]
  | none =>
      have hNew : (c.insert key range).item key =
          some ⟨range, none⟩ := by
        simp [Cache.item_insert, hItem]
      have hMem : key ∈ (c.insert key range).dirty :=
        Finset.mem_insert_self _ _
      have hStored :
          ((c.insert key range).item key).isSome = true := by
        rw [hNew]
        rfl
      have hDirty :=
        (c.insert key range).dirty_retrieve read key hStored
      have hNow :=
        (c.insert key range).item_retrieve read key key
      simp only [Option.isSome_none, Bool.false_eq_true,
        if_false]
      refine .loaded ⟨range, some (read range)⟩
        (.inl hItem) ?_ ?_ rfl
      · simp [hNow, hNew, hMem]
      · simp [hDirty]

/- Other keys keep their items and stay as they are. -/
theorem getTexture_other
    (key other : K)
    (range : CacheRange)
    (hOther : other ≠ key) :
    (getTextureFromCache c read key range).item other =
        c.item other ∧
      (other ∈ (getTextureFromCache c read key range).dirty ↔
        other ∈ c.dirty) := by
  rw [getTextureFromCache, Cache.any_iff_item]
  split
  case isTrue hStored =>
    rw [Cache.item_retrieve, c.dirty_retrieve read key hStored]
    simp [hOther]
  case isFalse hNone =>
    have hStored :
        ((c.insert key range).item key).isSome = true := by
      simp [Cache.item_insert]
    rw [Cache.item_retrieve, Cache.dirty_retrieve _ _ _ hStored,
      Cache.item_insert]
    simp [hOther, Cache.insert]

variable (bound : List (K × CacheRange))

theorem updateTextures_other
    (key : K)
    (hOther : key ∉ bound.map Prod.fst) :
    (updateTextures c read bound).item key = c.item key ∧
      (key ∈ (updateTextures c read bound).dirty ↔
        key ∈ c.dirty) := by
  induction bound generalizing c with
  | nil => exact ⟨rfl, Iff.rfl⟩
  | cons p rest ih =>
      rw [List.map_cons, List.mem_cons, not_or] at hOther
      have hFirst :=
        getTexture_other c read p.1 key p.2 hOther.1
      have hRest :=
        ih (getTextureFromCache c read p.1 p.2) hOther.2
      exact
        ⟨hRest.1.trans hFirst.1, hRest.2.trans hFirst.2⟩

/- A clean item is kept, however often it is bound. -/
theorem updateTextures_clean
    {key : K}
    {i : CacheItem V}
    (hItem : c.item key = some i)
    (hClean : key ∉ c.dirty) :
    (updateTextures c read bound).item key = some i ∧
      key ∉ (updateTextures c read bound).dirty := by
  induction bound generalizing c with
  | nil => exact ⟨hItem, hClean⟩
  | cons p rest ih =>
      apply ih
      · by_cases hFirst : key = p.1
        · subst hFirst
          rcases binds_getTexture c read p.1 p.2 with
            ⟨j, hOld, -, -, -⟩ | ⟨j, hOld, -, hNew, -⟩
          · simp [hItem, hClean] at hOld
          · rw [hItem] at hOld
            exact hNew.trans hOld.symm
        · have hSame :=
            getTexture_other c read p.1 key p.2 hFirst
          exact hSame.1.trans hItem
      · by_cases hFirst : key = p.1
        · subst hFirst
          rcases binds_getTexture c read p.1 p.2 with
            ⟨_, -, -, hStill, -⟩ | ⟨_, -, -, -, hStill⟩
          · exact hStill
          · exact hStill
        · have hSame :=
            getTexture_other c read p.1 key p.2 hFirst
          exact fun hDirty => hClean (hSame.2.mp hDirty)

theorem binds_updateTextures
    (key : K)
    (hBound : key ∈ bound.map Prod.fst) :
    Binds read c (updateTextures c read bound) key := by
  induction bound generalizing c with
  | nil => cases hBound
  | cons p rest ih =>
      change
        Binds read c
          (updateTextures
            (getTextureFromCache c read p.1 p.2) read rest)
          key
      by_cases hFirst : key = p.1
      · subst hFirst
        rcases binds_getTexture c read p.1 p.2 with
          ⟨i, hOld, hItem, hClean, hValue⟩ |
          ⟨i, hOld, hOldClean, hItem, hClean⟩
        · have hEnd :=
            updateTextures_clean _ read rest hItem hClean
          exact .loaded i hOld hEnd.1 hEnd.2 hValue
        · have hEnd :=
            updateTextures_clean _ read rest hItem hClean
          exact .kept i hOld hOldClean hEnd.1 hEnd.2
      · have hMore : key ∈ rest.map Prod.fst := by
          rw [List.map_cons, List.mem_cons] at hBound
          exact hBound.resolve_left hFirst
        have hSame :=
          getTexture_other c read p.1 key p.2 hFirst
        rcases ih _ hMore with
          ⟨i, hOld, hItem, hClean, hValue⟩ |
          ⟨i, hOld, hOldClean, hItem, hClean⟩
        · rw [hSame.1, hSame.2] at hOld
          exact .loaded i hOld hItem hClean hValue
        · rw [hSame.1] at hOld
          rw [hSame.2] at hOldClean
          exact .kept i hOld hOldClean hItem hClean

end Draw

end Ps3emu

------------------------------------------------------------
-- Writes and Draws
------------------------------------------------------------

namespace Ps3emu

namespace Draw

variable {K : Type} [DecidableEq K]

/-
  What a reload leaves in a texture, and how many writes to
  main memory were complete when it was made.
-/
structure Load where
  contents : List (Option Byte)
  after : Nat
deriving DecidableEq

/-
  Besides memory and the cache, the ordinary writes so far,
  oldest first, and how many of them there were when the
  previous draw looked for modified pages.
-/
structure State (K : Type) [DecidableEq K] where
  mm : MainMemory
  cache : Cache K Load
  written : List (Ps3Uintptr × Nat)
  recent : Nat

inductive Event (K : Type) where
  | store
      (len : AccessLen)
      (va : Ps3Uintptr)
      (value : Word len.bytes)
      (granule : Option GranuleId)
  | writeMemory
      (va : Ps3Uintptr)
      (buf : List Byte)
      (granule : Option GranuleId)
  | invalidateCaches (va size : Ps3Uintptr)
  | draw (bound : List (K × CacheRange))

def load (s : State K) (range : CacheRange) : Load :=
  ⟨s.mm.contents range, s.written.length⟩

/- A write is recorded unless it goes to special memory. -/
def record
    (s : State K)
    (va : Ps3Uintptr)
    (n : Nat)
    (mm : MainMemory) : State K :=
  { s with
    mm
    written :=
      if isSpecialVa va then s.written
      else s.written ++ [(va, n)] }

/-
  What `DrawArrays` and `DrawIndexArray` do to the textures:
  `updateTextures`, `watchTextureCache`, `resetCacheWatch`.
-/
def draw
    (s : State K)
    (bound : List (K × CacheRange)) : State K :=
  let cache := updateTextures s.cache (load s) bound
  let cache := cache.watch s.mm.mmap.marked
  { s with
    mm := { s.mm with mmap := s.mm.mmap.resetAll cache }
    cache
    recent := s.written.length }

def step (s : State K) : Event K → Option (State K)
  | .store len va value granule =>
      (s.mm.store len va value granule).map
        (record s va len.bytes)
  | .writeMemory va buf granule =>
      if va.toNat + buf.length < 2 ^ 32 then
        (s.mm.writeMemory va buf granule).map
          (record s va buf.length)
      else none
  | .invalidateCaches va size =>
      some { s with cache := s.cache.invalidate va size }
  | .draw bound => some (draw s bound)

def Step (s : State K) (e : Event K) (t : State K) : Prop :=
  step s e = some t

structure Initial (s : State K) : Prop where
  cache : s.cache = Cache.empty
  written : s.written = []
  recent : s.recent = 0

------------------------------------------------------------
-- Textures up to Date
------------------------------------------------------------

/- A write of `n` bytes at an address meets a range. -/
def overlaps
    (w : Ps3Uintptr × Nat)
    (range : CacheRange) : Bool :=
  (List.range w.2).any (fun i =>
    decide
      (distance range.va (w.1 + BitVec.ofNat 32 i) <
        range.size.toNat))

/-
  Clean items were loaded after the overlapping writes that
  preceded the previous draw, and the pages of later ones
  are marked.
-/
structure Inv (s : State K) : Prop where
  recent : s.recent ≤ s.written.length
  clean :
    ∀ key i,
      s.cache.item key = some i →
      key ∉ s.cache.dirty →
      ∃ l,
        i.value = some l ∧
          l.after ≤ s.recent ∧
          ∀ n w,
            n < s.recent →
            s.written[n]? = some w →
            overlaps w i.range = true →
            n < l.after
  marked :
    ∀ key i,
      s.cache.item key = some i →
      ∀ w ∈ s.written.drop s.recent,
        overlaps w i.range = true →
        s.mm.mmap.marked i.range.va i.range.size = true

theorem Inv.initial
    {s : State K}
    (hInitial : Initial s) :
    Inv s := by
  have hNone : ∀ key : K, s.cache.item key = none := by
    intro key
    rw [hInitial.cache]
    rfl
  refine ⟨?_, ?_, ?_⟩
  · rw [hInitial.recent]
    exact Nat.zero_le _
  · intro key i hItem
    rw [hNone] at hItem
    cases hItem
  · intro key i hItem
    rw [hNone] at hItem
    cases hItem

/-
  A write that marks the pages of its bytes and clears no
  mark keeps the invariant.
-/
theorem Inv.record
    {s : State K}
    {va : Ps3Uintptr}
    {n : Nat}
    {mm : MainMemory}
    (hInv : Inv s)
    (hKeep :
      ∀ page,
        s.mm.mmap page = true →
        mm.mmap page = true)
    (hNew :
      isSpecialVa va = false →
      ∀ range : CacheRange,
        overlaps (va, n) range = true →
        mm.mmap.marked range.va range.size = true) :
    Inv (record s va n mm) := by
  have hMarked :
      ∀ range : CacheRange,
        s.mm.mmap.marked range.va range.size = true →
        mm.mmap.marked range.va range.size = true := by
    intro range hOld
    rcases (ModificationMap.marked_iff _ _ _).mp hOld with
      ⟨page, hPage, hSet⟩
    exact
      (ModificationMap.marked_iff _ _ _).mpr
        ⟨page, hPage, hKeep page hSet⟩
  cases hSpecial : isSpecialVa va with
  | true =>
      have hSame :
          Draw.record s va n mm = { s with mm } := by
        simp [Draw.record, hSpecial]
      rw [hSame]
      refine ⟨hInv.recent, hInv.clean, ?_⟩
      intro key i hItem w hw hOver
      exact hMarked i.range (hInv.marked key i hItem w hw hOver)
  | false =>
      have hSame :
          Draw.record s va n mm =
            { s with
              mm, written := s.written ++ [(va, n)] } := by
        simp [Draw.record, hSpecial]
      rw [hSame]
      have hRecent := hInv.recent
      refine ⟨?_, ?_, ?_⟩
      · simp only [List.length_append]
        omega
      · intro key i hItem hClean
        rcases hInv.clean key i hItem hClean with
          ⟨l, hValue, hAfter, hOld⟩
        refine ⟨l, hValue, hAfter, ?_⟩
        intro m w hm hw hOver
        refine hOld m w hm ?_ hOver
        rw [← hw, List.getElem?_append_left]
        exact Nat.lt_of_lt_of_le hm hRecent
      · intro key i hItem w hw hOver
        rw [List.drop_append_of_le_length hRecent,
          List.mem_append, List.mem_singleton] at hw
        rcases hw with hOld | rfl
        · exact
            hMarked i.range
              (hInv.marked key i hItem w hOld hOver)
        · exact hNew hSpecial i.range hOver

end Draw

end Ps3emu

------------------------------------------------------------
-- Marks of Complete Writes
------------------------------------------------------------

namespace Ps3emu

namespace Draw

variable {K : Type} [DecidableEq K]

theorem overlaps_iff
    (w : Ps3Uintptr × Nat)
    (range : CacheRange) :
    overlaps w range = true ↔
      ∃ i < w.2,
        distance range.va (w.1 + BitVec.ofNat 32 i) <
          range.size.toNat := by
  simp [overlaps, List.any_eq_true]

variable {m m' : MainMemory} {va : Ps3Uintptr}
variable {granule : Option GranuleId}

theorem mmap_store
    {len : AccessLen}
    {value : Word len.bytes}
    (hStore : m.store len va value granule = some m')
    (hOrdinary : isSpecialVa va = false) :
    m'.mmap = m.mmap.markFor va ∧
      va.toNat < 0xe0000000 := by
  simp only [MainMemory.store, hOrdinary,
    Bool.false_eq_true, if_false] at hStore
  rcases Option.map_eq_some_iff.mp hStore with
    ⟨m₁, hLocked, rfl⟩
  rcases Option.map_eq_some_iff.mp hLocked with
    ⟨ptr, hPtr, rfl⟩
  exact ⟨rfl, m.toNat_lt_of_pointer hPtr⟩

theorem mmap_writeLoop
    {last : Ps3Uintptr}
    {fuel : Nat}
    {src : List Byte}
    (hLoop :
      m.writeLoop last granule fuel va src = some m') :
    m'.mmap = m.mmap := by
  induction fuel generalizing m va src with
  | zero =>
      rw [MainMemory.writeLoop] at hLoop
      split at hLoop
      case isTrue =>
        rw [← Option.some.inj hLoop]
      case isFalse => cases hLoop
  | succ fuel ih =>
      rw [MainMemory.writeLoop] at hLoop
      split at hLoop
      case isTrue =>
        rw [← Option.some.inj hLoop]
      case isFalse =>
        rcases Option.bind_eq_some_iff.mp hLoop with
          ⟨m₁, hChunk, hRest⟩
        rw [ih hRest]
        rcases Option.map_eq_some_iff.mp hChunk with
          ⟨ptr, hPtr, rfl⟩
        rfl

/- A store marks the pages of its bytes. -/
theorem marked_of_store
    {len : AccessLen}
    {range : CacheRange}
    (hMap : m'.mmap = m.mmap.markFor va)
    (hVa : va.toNat < 0xe0000000)
    (hOver : overlaps (va, len.bytes) range = true) :
    m'.mmap.marked range.va range.size = true := by
  rcases (overlaps_iff _ _).mp hOver with ⟨i, hLt, hNear⟩
  have hFits := range.fits
  have hLe := len.bytes_le
  have hPage :=
    ModificationMap.mem_pages_of_distance range.va range.size
      (va + BitVec.ofNat 32 i) (by omega) hNear
  refine
    (ModificationMap.marked_iff _ _ _).mpr ⟨_, hPage, ?_⟩
  have hWithin : distance va (va + BitVec.ofNat 32 i) < 128 := by
    rw [distance_add _ _ (by omega)]
    omega
  rw [hMap, ModificationMap.markFor_apply]
  rcases Watch.pageIndex_near va (va + BitVec.ofNat 32 i) 128
      hVa (Nat.le_refl _) hWithin with
    hEq | hEq
  · simp [hEq]
  · simp [hEq]

/- A bulk write marks the pages of its bytes. -/
theorem marked_of_writeMemory
    {n : Nat}
    {range : CacheRange}
    (hWrap : va.toNat + n < 2 ^ 32)
    (hMap : m'.mmap = m.mmap.mark va (BitVec.ofNat 32 n))
    (hOver : overlaps (va, n) range = true) :
    m'.mmap.marked range.va range.size = true := by
  rcases (overlaps_iff _ _).mp hOver with ⟨i, hLt, hNear⟩
  have hFits := range.fits
  have hSize : (BitVec.ofNat 32 n).toNat = n := by
    rw [BitVec.toNat_ofNat, Nat.mod_eq_of_lt (by omega)]
  have hPage :=
    ModificationMap.mem_pages_of_distance range.va range.size
      (va + BitVec.ofNat 32 i) (by omega) hNear
  have hWritten :
      distance va (va + BitVec.ofNat 32 i) <
        (BitVec.ofNat 32 n).toNat := by
    rw [distance_add _ _ (by omega), hSize]
    exact hLt
  have hMark :=
    ModificationMap.mem_pages_of_distance va
      (BitVec.ofNat 32 n) (va + BitVec.ofNat 32 i)
      (by omega) hWritten
  refine
    (ModificationMap.marked_iff _ _ _).mpr ⟨_, hPage, ?_⟩
  rw [hMap, ModificationMap.mark_apply]
  simp [hMark]

variable {s : State K}

theorem Inv.store
    {mm : MainMemory}
    {len : AccessLen}
    {value : Word len.bytes}
    (hInv : Inv s)
    (hStore : s.mm.store len va value granule = some mm) :
    Inv (Draw.record s va len.bytes mm) := by
  cases hSpecial : isSpecialVa va with
  | true =>
      simp only [MainMemory.store, hSpecial, if_true,
        Option.some.injEq] at hStore
      apply hInv.record
      · intro page hSet
        rwa [← hStore]
      · intro hOrdinary
        rw [hSpecial] at hOrdinary
        cases hOrdinary
  | false =>
      rcases mmap_store hStore hSpecial with ⟨hMap, hVa⟩
      apply hInv.record
      · intro page hSet
        rw [hMap, ModificationMap.markFor_apply, hSet,
          Bool.or_true]
      · intro _ range hOver
        exact marked_of_store hMap hVa hOver

theorem Inv.writeMemory
    {mm : MainMemory}
    {buf : List Byte}
    (hInv : Inv s)
    (hWrap : va.toNat + buf.length < 2 ^ 32)
    (hWrite : s.mm.writeMemory va buf granule = some mm) :
    Inv (Draw.record s va buf.length mm) := by
  cases hSpecial : isSpecialVa va with
  | true =>
      simp only [MainMemory.writeMemory, hSpecial, if_true,
        Option.some.injEq] at hWrite
      apply hInv.record
      · intro page hSet
        rwa [← hWrite]
      · intro hOrdinary
        rw [hSpecial] at hOrdinary
        cases hOrdinary
  | false =>
      simp only [MainMemory.writeMemory, hSpecial,
        Bool.false_eq_true, if_false] at hWrite
      have hMap :
          mm.mmap =
            s.mm.mmap.mark va
              (BitVec.ofNat 32 buf.length) :=
        mmap_writeLoop hWrite
      apply hInv.record
      · intro page hSet
        rw [hMap, ModificationMap.mark_apply, hSet,
          Bool.or_true]
      · intro _ range hOver
        exact marked_of_writeMemory hWrap hMap hOver

------------------------------------------------------------
-- Draws
------------------------------------------------------------

/-
  What a draw leaves for a key: the item and whether it is
  dirty, before the pages are looked at.
-/
theorem item_draw
    (s : State K)
    (bound : List (K × CacheRange))
    (key : K) :
    (draw s bound).cache.item key =
      (updateTextures s.cache (load s) bound).item key := rfl

theorem Inv.draw
    (hInv : Inv s)
    (bound : List (K × CacheRange)) :
    Inv (Draw.draw s bound) := by
  refine ⟨Nat.le_refl _, ?_, ?_⟩
  · intro key i hItem hClean
    rw [item_draw] at hItem
    have hUnmarked :
        s.mm.mmap.marked i.range.va i.range.size ≠ true :=
      fun hMarked =>
        hClean (Cache.mem_dirty_watch hItem hMarked)
    have hNotDirty :
        key ∉ (updateTextures s.cache (load s) bound).dirty :=
      fun hDirty =>
        hClean (Cache.dirty_subset_watch _ _ hDirty)
    -- a kept item was loaded late enough, or is marked
    have hKept :
        s.cache.item key = some i →
        key ∉ s.cache.dirty →
        ∃ l,
          i.value = some l ∧
            l.after ≤ s.written.length ∧
            ∀ n w,
              n < s.written.length →
              s.written[n]? = some w →
              overlaps w i.range = true →
              n < l.after := by
      intro hOld hOldClean
      rcases hInv.clean key i hOld hOldClean with
        ⟨l, hValue, hAfter, hBefore⟩
      refine ⟨l, hValue, Nat.le_trans hAfter hInv.recent, ?_⟩
      intro n w hLt hw hOver
      by_cases hEarly : n < s.recent
      · exact hBefore n w hEarly hw hOver
      · exfalso
        apply hUnmarked
        refine hInv.marked key i hOld w ?_ hOver
        rw [List.mem_iff_getElem?]
        refine ⟨n - s.recent, ?_⟩
        rw [List.getElem?_drop,
          Nat.add_sub_cancel' (Nat.le_of_not_lt hEarly)]
        exact hw
    by_cases hBound : key ∈ bound.map Prod.fst
    · rcases binds_updateTextures s.cache (load s) bound key
          hBound with
        ⟨j, -, hNew, -, hValue⟩ |
        ⟨j, hOld, hOldClean, hNew, -⟩
      · obtain rfl := Option.some.inj (hNew.symm.trans hItem)
        refine ⟨_, hValue, Nat.le_refl _, ?_⟩
        intro n w hLt _ _
        exact hLt
      · obtain rfl := Option.some.inj (hNew.symm.trans hItem)
        exact hKept hOld hOldClean
    · have hSame :=
        updateTextures_other s.cache (load s) bound key hBound
      rw [hSame.1] at hItem
      rw [hSame.2] at hNotDirty
      exact hKept hItem hNotDirty
  · intro key i hItem w hw
    have hNil :
        (Draw.draw s bound).written.drop
          (Draw.draw s bound).recent = [] :=
      List.drop_length
    rw [hNil] at hw
    cases hw

theorem Inv.step
    {s t : State K}
    {e : Event K}
    (hInv : Inv s)
    (hStep : Step s e t) :
    Inv t := by
  cases e with
  | store len va value granule =>
      rcases Option.map_eq_some_iff.mp hStep with
        ⟨mm, hStore, rfl⟩
      exact hInv.store hStore
  | writeMemory va buf granule =>
      simp only [Step, Draw.step] at hStep
      split at hStep
      case isTrue hWrap =>
        rcases Option.map_eq_some_iff.mp hStep with
          ⟨mm, hWrite, rfl⟩
        exact hInv.writeMemory hWrap hWrite
      case isFalse => cases hStep
  | invalidateCaches va size =>
      obtain rfl := Option.some.inj hStep
      refine ⟨hInv.recent, ?_, hInv.marked⟩
      intro key i hItem hClean
      apply hInv.clean key i hItem
      intro hDirty
      exact hClean (Cache.dirty_subset_watch _ _ hDirty)
  | draw bound =>
      obtain rfl := Option.some.inj hStep
      exact hInv.draw bound

def start : State Nat where
  mm := MainMemory.reset
  cache := Cache.empty
  written := []
  recent := 0

theorem initial_start : Initial start := ⟨rfl, rfl, rfl⟩

/- A texture of one word at address 0x100. -/
def texture : Nat × CacheRange := (7, Watch.word)

end Draw

end Ps3emu
