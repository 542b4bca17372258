import Ps3emu.Memory.Reservations
import Ps3emu.Rsx.Cache

/-
  The agents' writes together with the renderer's cache.
  Writers mark pages before or after they copy data, and the
  renderer makes marked items dirty, clears the marks and
  reloads dirty items, all in steps of their own.

  Key definitions include:
    * `Watch.State`, `Watch.Event`, `Watch.Step`
    * `Watch.Stale`, `Watch.Covered`, `Watch.safe`
    * `Watch.Inv`

  Key theorems include:
    * `Watch.Inv.step`
    * `Watch.no_modification_lost`
-/

------------------------------------------------------------
-- States, Steps and Items
------------------------------------------------------------

namespace Ps3emu

/- The bytes of a range, as far as they are allocated. -/
def MainMemory.contents
    (m : MainMemory)
    (range : CacheRange) : List (Option Byte) :=
  (List.range range.size.toNat).map (fun i =>
    m.byte (range.va + BitVec.ofNat 32 i))

namespace Watch

open Agents (AgentId)

variable {K : Type} [DecidableEq K]

structure State (K : Type) [DecidableEq K] where
  sys : Agents.State
  cache : Cache K (List (Option Byte))

/- The steps of the renderer's thread. -/
inductive RsxAction (K : Type) where
  | watch
  | reset
  | retrieve (key : K)
  | insert (key : K) (range : CacheRange)
  | invalidate (va size : Ps3Uintptr)
  | syncAll

inductive Event (K : Type) where
  | mem (e : Agents.Event)
  | rsx (action : RsxAction K)

/- `watchTextureCache`, `resetCacheWatch` and the cache. -/
def rsxStep (s : State K) : RsxAction K → State K
  | .watch =>
      { s with cache := s.cache.watch s.sys.mm.mmap.marked }
  | .reset =>
      let mmap := s.sys.mm.mmap.resetAll s.cache
      { s with
        sys := { s.sys with mm := { s.sys.mm with mmap } } }
  | .retrieve key =>
      { s with
        cache := s.cache.retrieve s.sys.mm.contents key }
  | .insert key range =>
      { s with cache := s.cache.insert key range }
  | .invalidate va size =>
      { s with cache := s.cache.invalidate va size }
  | .syncAll =>
      { s with cache := s.cache.syncAll s.sys.mm.contents }

def Step
    (s : State K)
    (event : Event K)
    (t : State K) : Prop :=
  match event with
  | .mem e =>
      Agents.Step s.sys e t.sys ∧ t.cache = s.cache
  | .rsx action => t = rsxStep s action

structure Initial (s : State K) : Prop where
  sys : Agents.Initial s.sys
  cache : s.cache = Cache.empty

/- The last reload does not equal the current contents. -/
def Stale
    (s : State K)
    (p : K × CacheItem (List (Option Byte))) : Prop :=
  p.2.value ≠ some (s.sys.mm.contents p.2.range)

instance
    (s : State K)
    (p : K × CacheItem (List (Option Byte))) :
    Decidable (Stale s p) :=
  inferInstanceAs (Decidable (¬ _ = _))

/- Dirty or marked. -/
def Covered
    (s : State K)
    (p : K × CacheItem (List (Option Byte))) : Prop :=
  p.1 ∈ s.cache.dirty ∨
    s.sys.mm.mmap.marked p.2.range.va p.2.range.size = true

instance
    (s : State K)
    (p : K × CacheItem (List (Option Byte))) :
    Decidable (Covered s p) :=
  inferInstanceAs (Decidable (_ ∨ _))

/- An agent has copied data and not marked its page yet. -/
def Pending (s : Agents.State) (range : CacheRange) : Prop :=
  ∃ a va,
    s.pc a = .mark va ∧
      (ModificationMap.pageIndex va ∈
          ModificationMap.pages range.va range.size ∨
        ModificationMap.pageIndex va + 1 ∈
          ModificationMap.pages range.va range.size)

/- An agent is between the two steps of a write. -/
def Writing (s : Agents.State) (a : AgentId) : Prop :=
  (∃ va last src, s.pc a = .copy va last src) ∨
    ∃ va, s.pc a = .mark va

/- The bytes a step writes meet a range. -/
def writesInto
    (s : Agents.State)
    (e : Agents.Event)
    (range : CacheRange) : Bool :=
  match Agents.writtenRange s e with
  | some (va, n) =>
      (List.range n).any (fun i =>
        decide
          (distance range.va (va + BitVec.ofNat 32 i) <
            range.size.toNat))
  | none => false

/-
  The conditions on a state before a step under which no
  modification is lost: a chunk is copied only into items
  that are dirty or still marked, and marks are cleared only
  when every stale marked item has been made dirty.
-/
def safe (s : State K) (event : Event K) : Bool :=
  match event with
  | .mem e =>
      e.action != .copyChunk ||
        s.cache.store.all (fun p =>
          !writesInto s.sys e p.2.range ||
            decide (Covered s p))
  | .rsx .reset =>
      s.cache.store.all (fun p =>
        decide (¬ Stale s p) || !decide (Covered s p) ||
          decide (p.1 ∈ s.cache.dirty))
  | .rsx _ => true

structure Inv (s : State K) : Prop where
  sys : Agents.Inv s.sys
  stale :
    ∀ p ∈ s.cache.store,
      Stale s p → Covered s p ∨ Pending s.sys p.2.range

variable {e : Agents.Event} {range : CacheRange}

theorem writesInto_of_writes
    {s : Agents.State}
    {a : Ps3Uintptr}
    (hWrites : Agents.Writes s e a)
    (hNear : distance range.va a < range.size.toNat) :
    writesInto s e range = true := by
  rcases hWrites with ⟨va, n, hRange, hWritten⟩
  simp only [writesInto, hRange, List.any_eq_true,
    decide_eq_true_eq]
  refine ⟨distance va a, List.mem_range.mpr hWritten, ?_⟩
  rwa [add_distance]

variable {s t : Agents.State}

/- Contents change only through a byte that is written. -/
theorem writes_of_contents_ne
    (hStep : Agents.Step s e t)
    (hChanged :
      t.mm.contents range ≠ s.mm.contents range) :
    ∃ a,
      Agents.Writes s e a ∧
        distance range.va a < range.size.toNat := by
  by_contra hNone
  apply hChanged
  apply List.map_congr_left
  intro i hi
  have hLt := List.mem_range.mp hi
  have hSize := range.size.isLt
  apply Agents.byte_step hStep
  intro hWrites
  refine hNone ⟨_, hWrites, ?_⟩
  rwa [distance_add _ _ (by omega)]

------------------------------------------------------------
-- Marks of Writers
------------------------------------------------------------

/- No step of an agent clears a mark. -/
theorem mmap_step
    (hStep : Agents.Step s e t)
    (page : Nat)
    (hMarked : s.mm.mmap page = true) :
    t.mm.mmap page = true := by
  rcases e with ⟨a, action, output⟩
  have hEffect : Agents.Effect s a action output t :=
    Agents.effect_of_step hStep
  cases hEffect with
  | writeMemory hPc hVa hWrap =>
      change s.mm.mmap.mark _ _ page = true
      rw [ModificationMap.mark_apply, hMarked, Bool.or_true]
  | mark hPc =>
      change s.mm.mmap.markFor _ page = true
      rw [ModificationMap.markFor_apply, hMarked,
        Bool.or_true]
  | _ => exact hMarked

theorem marked_step
    (hStep : Agents.Step s e t)
    (range : CacheRange)
    (hMarked :
      s.mm.mmap.marked range.va range.size = true) :
    t.mm.mmap.marked range.va range.size = true := by
  rcases (ModificationMap.marked_iff _ _ _).mp hMarked with
    ⟨page, hPage, hSet⟩
  exact
    (ModificationMap.marked_iff _ _ _).mpr
      ⟨page, hPage, mmap_step hStep page hSet⟩

/- An agent that owes a mark still owes it, or has made it. -/
theorem pending_step
    (hStep : Agents.Step s e t)
    (range : CacheRange)
    (hPending : Pending s range) :
    Pending t range ∨
      t.mm.mmap.marked range.va range.size = true := by
  rcases e with ⟨b, action, output⟩
  have hEffect : Agents.Effect s b action output t :=
    Agents.effect_of_step hStep
  rcases hPending with ⟨a, va, hPc, hPages⟩
  by_cases hAgent : a = b
  · subst hAgent
    cases hEffect with
    | @mark w hPc' =>
        right
        obtain rfl : va = w :=
          Agents.Pc.mark.inj (hPc.symm.trans hPc')
        rw [ModificationMap.marked_iff]
        rcases hPages with hFirst | hSecond
        · refine ⟨_, hFirst, ?_⟩
          change s.mm.mmap.markFor va _ = true
          simp [ModificationMap.markFor_apply]
        · refine ⟨_, hSecond, ?_⟩
          change s.mm.mmap.markFor va _ = true
          simp [ModificationMap.markFor_apply]
    | _ => simp_all
  · left
    refine ⟨a, va, ?_, hPages⟩
    rw [← hPc]
    exact Agents.pc_other hStep a hAgent

/- A short write touches the page of its start or the next. -/
theorem pageIndex_near
    (va a : Ps3Uintptr)
    (n : Nat)
    (hVa : va.toNat < 0xe0000000)
    (hn : n ≤ 128)
    (hNear : distance va a < n) :
    ModificationMap.pageIndex a =
        ModificationMap.pageIndex va ∨
      ModificationMap.pageIndex a =
        ModificationMap.pageIndex va + 1 := by
  have hEq := toNat_add_ofNat va (distance va a) (by omega)
  rw [add_distance] at hEq
  rw [ModificationMap.pageIndex_eq,
    ModificationMap.pageIndex_eq, hEq]
  omega

/-
  A step that writes into a range copies a chunk, or leaves
  its agent owing a mark of a page of the range.
-/
theorem pending_of_writes
    {a : Ps3Uintptr}
    (hStep : Agents.Step s e t)
    (hWrites : Agents.Writes s e a)
    (hNear : distance range.va a < range.size.toNat) :
    e.action = .copyChunk ∨ Pending t range := by
  rcases e with ⟨b, action, output⟩
  have hEffect : Agents.Effect s b action output t :=
    Agents.effect_of_step hStep
  have hFits := range.fits
  have hPage :=
    ModificationMap.mem_pages_of_distance range.va range.size
      a (by omega) hNear
  rcases hWrites with ⟨w, n, hRange, hWritten⟩
  cases hEffect with
  | @store len va value ptr hPc hPtr =>
      have hVa := s.mm.toNat_lt_of_pointer hPtr
      have hOrdinary := (isSpecialVa_eq_false_iff va).mpr hVa
      simp only [Agents.writtenRange, hOrdinary,
        Bool.false_eq_true, if_false, Option.some.injEq,
        Prod.mk.injEq] at hRange
      obtain ⟨rfl, rfl⟩ := hRange
      have hLe := len.bytes_le
      refine .inr ⟨b, va, by simp [Agents.State.move], ?_⟩
      rcases pageIndex_near va a _ hVa (by omega) hWritten
        with hEq | hEq
      · exact .inl (hEq ▸ hPage)
      · exact .inr (hEq ▸ hPage)
  | copyChunk hPc hPtr => exact .inl rfl
  | @condStored len unconditional va buf ptr hPc hLength
      hNext hHeld hPtr =>
      have hVa := s.mm.toNat_lt_of_pointer hPtr
      simp only [Agents.writtenRange, if_true,
        Option.some.injEq, Prod.mk.injEq] at hRange
      obtain ⟨rfl, rfl⟩ := hRange
      have hLe := len.bytes_le
      refine .inr ⟨b, va, by simp [Agents.State.move], ?_⟩
      rcases pageIndex_near va a _ hVa hLe hWritten
        with hEq | hEq
      · exact .inl (hEq ▸ hPage)
      · exact .inr (hEq ▸ hPage)
  | condFailed hPc =>
      simp [Agents.writtenRange] at hRange
  | special hPc hAction =>
      rcases hAction with
        ⟨len, va, value, rfl, hSpecial⟩ |
        ⟨va, buf, rfl, hSpecial⟩
      · simp [Agents.writtenRange, hSpecial] at hRange
      · simp [Agents.writtenRange] at hRange
  | _ => simp [Agents.writtenRange] at hRange

------------------------------------------------------------
-- Invariant
------------------------------------------------------------

theorem Inv.initial
    {s : State K}
    (hInitial : Initial s) :
    Inv s where
  sys := Agents.Inv.initial hInitial.sys
  stale := by
    intro p hp
    rw [hInitial.cache] at hp
    cases hp

/- A writer's step. -/
theorem Inv.mem
    {s t : State K}
    (hInv : Inv s)
    (hSys : Agents.Step s.sys e t.sys)
    (hCache : t.cache = s.cache)
    (hSafe : safe s (.mem e) = true) :
    Inv t := by
  refine ⟨hInv.sys.step hSys, ?_⟩
  intro p hp hStale
  rw [hCache] at hp
  have hKeep :
      Covered s p → Covered t p := by
    rintro (hDirty | hMarked)
    · left
      rwa [hCache]
    · exact .inr (marked_step hSys p.2.range hMarked)
  by_cases hOld : Stale s p
  · rcases hInv.stale p hp hOld with hCovered | hPending
    · exact .inl (hKeep hCovered)
    · rcases pending_step hSys p.2.range hPending with
        hStill | hMarked
      · exact .inr hStill
      · exact .inl (.inr hMarked)
  · -- the item has become stale, so the step writes into it
    have hChanged :
        t.sys.mm.contents p.2.range ≠
          s.sys.mm.contents p.2.range := by
      intro hSame
      apply hStale
      rw [hSame]
      exact not_not.mp hOld
    rcases writes_of_contents_ne hSys hChanged with
      ⟨a, hWrites, hNear⟩
    rcases pending_of_writes hSys hWrites hNear with
      hCopy | hPending
    · have hInto := writesInto_of_writes hWrites hNear
      simp only [safe, hCopy, bne_self_eq_false,
        Bool.false_or, List.all_eq_true] at hSafe
      have hCovered : Covered s p := by
        simpa [hInto] using hSafe p hp
      exact .inl (hKeep hCovered)
    · exact .inr hPending

/- A renderer's step on the cache alone. -/
theorem Inv.cacheOnly
    {s : State K}
    {cache : Cache K (List (Option Byte))}
    (hInv : Inv s)
    (hStore :
      ∀ p ∈ cache.store,
        p.1 ∈ cache.dirty ∨
          ¬ Stale s p ∨
            (p ∈ s.cache.store ∧
              (p.1 ∈ s.cache.dirty → p.1 ∈ cache.dirty))) :
    Inv { s with cache } := by
  refine ⟨hInv.sys, ?_⟩
  intro p hp hStale
  rcases hStore p hp with hDirty | hFresh | ⟨hOld, hKeep⟩
  · exact .inl (.inl hDirty)
  · exact absurd hStale hFresh
  · rcases hInv.stale p hOld hStale with
      (hDirty | hMarked) | hPending
    · exact .inl (.inl (hKeep hDirty))
    · exact .inl (.inr hMarked)
    · exact .inr hPending

/- Reloading a set of dirty items leaves the others dirty. -/
theorem Inv.update
    {s : State K}
    (hInv : Inv s)
    (keys : Finset K) :
    Inv
      { s with
        cache :=
          { store :=
              Cache.update s.cache.store s.sys.mm.contents keys
            dirty := s.cache.dirty \ keys } } := by
  apply hInv.cacheOnly
  intro p hp
  rcases Cache.mem_update hp with ⟨hOld, hKey⟩ | hFresh
  · refine .inr (.inr ⟨hOld, ?_⟩)
    intro hDirty
    exact Finset.mem_sdiff.mpr ⟨hDirty, hKey⟩
  · exact .inr (.inl (not_not.mpr hFresh))

/- A renderer's step. -/
theorem Inv.rsx
    {s : State K}
    (hInv : Inv s)
    (action : RsxAction K)
    (hSafe : safe s (.rsx action) = true) :
    Inv (rsxStep s action) := by
  cases action with
  | watch =>
      apply hInv.cacheOnly
      intro p hp
      refine .inr (.inr ⟨hp, ?_⟩)
      intro hDirty
      exact s.cache.dirty_subset_watch _ hDirty
  | reset =>
      refine ⟨⟨hInv.sys.cons, hInv.sys.alive, ?_⟩, ?_⟩
      · intro g
        have hOk : Agents.PcOk s.sys g (s.sys.pc g) :=
          hInv.sys.pc g
        refine hOk.mono ?_ (fun line hLine => hLine)
        rfl
      · intro p hp hStale
        rcases hInv.stale p hp hStale with
          hCovered | hPending
        · have hDirty : p.1 ∈ s.cache.dirty := by
            simp only [safe, List.all_eq_true] at hSafe
            have hOne := hSafe p hp
            have hOldStale : Stale s p := hStale
            simpa [hCovered, hOldStale] using hOne
          exact .inl (.inl hDirty)
        · exact .inr hPending
  | retrieve key =>
      simp only [rsxStep, Cache.retrieve, Cache.sync]
      split
      case isFalse => exact hInv
      case isTrue =>
        split
        case isFalse => exact hInv
        case isTrue =>
          rw [Finset.erase_eq]
          exact hInv.update {key}
  | insert key range =>
      apply hInv.cacheOnly
      intro p hp
      simp only [Cache.insert] at hp ⊢
      split at hp
      case isTrue =>
        refine .inr (.inr ⟨hp, ?_⟩)
        intro hDirty
        exact Finset.mem_insert_of_mem hDirty
      case isFalse =>
        rcases List.mem_append.mp hp with hOld | hNew
        · refine .inr (.inr ⟨hOld, ?_⟩)
          intro hDirty
          exact Finset.mem_insert_of_mem hDirty
        · obtain rfl := List.mem_singleton.mp hNew
          exact .inl (Finset.mem_insert_self key _)
  | invalidate va size =>
      apply hInv.cacheOnly
      intro p hp
      refine .inr (.inr ⟨hp, ?_⟩)
      intro hDirty
      exact s.cache.dirty_subset_watch _ hDirty
  | syncAll =>
      have hAll := hInv.update s.cache.dirty
      rw [Finset.sdiff_self] at hAll
      exact hAll

theorem Inv.step
    {s t : State K}
    {event : Event K}
    (hInv : Inv s)
    (hStep : Step s event t)
    (hSafe : safe s event = true) :
    Inv t := by
  cases event with
  | mem e =>
      rcases hStep with ⟨hSys, hCache⟩
      exact hInv.mem hSys hCache hSafe
  | rsx action =>
      obtain rfl : t = rsxStep s action := hStep
      exact hInv.rsx action hSafe

------------------------------------------------------------
-- No Lost Modification
------------------------------------------------------------

/-
  Along steps that meet the conditions no modification is
  lost: while no agent is in the middle of a write, an item
  that is not current is dirty or has a marked page.
-/
theorem no_modification_lost
    {start s : State K}
    {events : List (Event K)}
    (hInitial : Initial start)
    (hRun :
      Transition.Run
        (Transition.restrict Step
          (fun s event _ => safe s event = true))
        start events s)
    (hQuiet : ∀ a, ¬ Writing s.sys a) :
    ∀ p ∈ s.cache.store, Stale s p → Covered s p := by
  have hInv : Inv s := by
    apply hRun.invariant Inv
    · rintro s event t hInv ⟨hStep, hSafe⟩
      exact hInv.step hStep hSafe
    · exact Inv.initial hInitial
  intro p hp hStale
  rcases hInv.stale p hp hStale with
    hCovered | ⟨a, va, hPc, -⟩
  · exact hCovered
  · exact absurd (.inr ⟨va, hPc⟩) (hQuiet a)

inductive Action (K : Type) where
  | mem (a : AgentId) (action : Agents.Action)
  | rsx (action : RsxAction K)

/- Run a schedule while every step passes a test. -/
def exec
    (test : State K → Event K → Bool)
    (s : State K) :
    List (Action K) → Option (List (Event K) × State K)
  | [] => some ([], s)
  | .mem a action :: rest =>
      (Agents.step s.sys a action).bind (fun (t, output) =>
        let event := Event.mem ⟨a, action, output⟩
        if test s event then
          (exec test { s with sys := t } rest).map
            (fun (events, u) => (event :: events, u))
        else none)
  | .rsx action :: rest =>
      if test s (.rsx action) then
        (exec test (rsxStep s action) rest).map
          (fun (events, u) => (.rsx action :: events, u))
      else none

theorem run_of_exec
    {test : State K → Event K → Bool}
    {s t : State K}
    {schedule : List (Action K)}
    {events : List (Event K)}
    (hExec : exec test s schedule = some (events, t)) :
    Transition.Run
      (Transition.restrict Step
        (fun s event _ => test s event = true))
      s events t := by
  induction schedule generalizing s events with
  | nil =>
      obtain ⟨rfl, rfl⟩ :=
        Prod.mk.inj (Option.some.inj hExec)
      exact .nil
  | cons head rest ih =>
      cases head with
      | mem a action =>
          rcases Option.bind_eq_some_iff.mp hExec with
            ⟨⟨u, output⟩, hFirst, hRest⟩
          simp only at hRest
          split at hRest
          case isFalse => cases hRest
          case isTrue hTest =>
            rcases Option.map_eq_some_iff.mp hRest with
              ⟨⟨more, finish⟩, hMore, hEq⟩
            obtain ⟨rfl, rfl⟩ := Prod.mk.inj hEq
            refine .cons ?_ (ih hMore)
            exact ⟨⟨hFirst, rfl⟩, hTest⟩
      | rsx action =>
          simp only [exec] at hExec
          split at hExec
          case isFalse => cases hExec
          case isTrue hTest =>
            rcases Option.map_eq_some_iff.mp hExec with
              ⟨⟨more, finish⟩, hMore, hEq⟩
            obtain ⟨rfl, rfl⟩ := Prod.mk.inj hEq
            refine .cons ?_ (ih hMore)
            exact ⟨rfl, hTest⟩

/- Agents that no event names stay where they are. -/
theorem pc_of_run
    {s t : State K}
    {events : List (Event K)}
    (hRun : Transition.Run Step s events t)
    (g : AgentId)
    (hOther : ∀ e, .mem e ∈ events → g ≠ e.agent) :
    t.sys.pc g = s.sys.pc g := by
  induction hRun with
  | nil => rfl
  | @snoc events middle finish event hRun hLast ih =>
      have hMiddle :=
        ih (fun e he =>
          hOther e (List.mem_append_left _ he))
      rw [← hMiddle]
      cases event with
      | mem e =>
          have hNe := hOther e (by simp)
          exact Agents.pc_other hLast.1 g hNe
      | rsx action =>
          obtain rfl : finish = rsxStep middle action := hLast
          cases action <;> rfl

def start : State Nat where
  sys := Agents.blank
  cache := Cache.empty

theorem initial_start : Initial start :=
  ⟨Agents.initial_blank, rfl⟩

/- The agent that takes a step, if an agent does. -/
def Event.agent : Event K → Option AgentId
  | .mem e => some e.agent
  | .rsx _ => none

/- A run of one agent is over when that agent is idle. -/
theorem quiet_of_run
    {t : State Nat}
    {events : List (Event Nat)}
    {a : AgentId}
    (hRun : Transition.Run Step start events t)
    (hAgents :
      events.all (fun event =>
        event.agent.all (fun b => b == a)) = true)
    (hPc : t.sys.pc a = .idle)
    (b : AgentId) :
    ¬ Writing t.sys b := by
  have hIdle : t.sys.pc b = .idle := by
    by_cases hSame : b = a
    · rw [hSame]
      exact hPc
    · rw [pc_of_run hRun b]
      · rfl
      · rintro e he rfl
        have hAgent := List.all_eq_true.mp hAgents _ he
        exact hSame (beq_iff_eq.mp hAgent)
  rintro (⟨va, last, src, hCopy⟩ | ⟨va, hMark⟩)
  · simp [hIdle] at hCopy
  · simp [hIdle] at hMark

/- A word that is cached and loaded. -/
def word : CacheRange := ⟨0x100#32, 4#32, by decide⟩

/- An agent stores to the word and the cache notices. -/
def noticed : List (Action Nat) :=
  [.rsx (.insert 7 word), .rsx (.retrieve 7),
    .mem 1 (.store .four 0x102#32 0x01020304#32),
    .mem 1 .mark, .rsx .watch, .rsx .reset]

theorem no_modification_lost_noticed :
    ∃ events t,
      Transition.Run
          (Transition.restrict Step
            (fun s event _ => safe s event = true))
          start events t ∧
        ∀ p ∈ t.cache.store, Stale t p → Covered t p := by
  have hExec :
      (exec safe start noticed).map
        (fun r =>
          (r.1.all (fun event =>
            event.agent.all (fun b => b == 1)),
            r.2.sys.pc 1)) =
        some (true, .idle) := by
    decide
  rcases Option.map_eq_some_iff.mp hExec with
    ⟨⟨events, t⟩, hRun, hState⟩
  obtain ⟨hAgents, hPc⟩ := Prod.mk.inj hState
  have hReach := run_of_exec hRun
  refine ⟨events, t, hReach, ?_⟩
  apply no_modification_lost initial_start hReach
  exact
    quiet_of_run (hReach.mono (fun _ _ _ h => h.1)) hAgents
      hPc

/-
  A bulk write marks its page, the renderer watches, resets
  and reloads, and only then the data is copied.
-/
def lost : List (Action Nat) :=
  [.rsx (.insert 7 word), .rsx (.retrieve 7),
    .mem 1 (.writeMemory 0x100#32 [1#8, 2#8]),
    .rsx .watch, .rsx .reset, .rsx (.retrieve 7),
    .mem 1 .copyChunk]

theorem copy_after_reset_is_lost :
    ¬ ∀ (start s : State Nat) (events : List (Event Nat)),
        Initial start →
        Transition.Run Step start events s →
        (∀ a, ¬ Writing s.sys a) →
        ∀ p ∈ s.cache.store, Stale s p → Covered s p := by
  intro hAll
  have hExec :
      (exec (fun _ _ => true) start lost).map
        (fun r =>
          (r.1.all (fun event =>
            event.agent.all (fun b => b == 1)),
            r.2.sys.pc 1,
            r.2.cache.store.all (fun p =>
              !decide (Stale r.2 p) ||
                decide (Covered r.2 p)))) =
        some (true, .idle, false) := by
    decide
  rcases Option.map_eq_some_iff.mp hExec with
    ⟨⟨events, t⟩, hRun, hState⟩
  obtain ⟨hAgents, hRest⟩ := Prod.mk.inj hState
  obtain ⟨hPc, hLost⟩ := Prod.mk.inj hRest
  have hReach :=
    (run_of_exec hRun).mono (fun _ _ _ h => h.1)
  have hQuiet := quiet_of_run hReach hAgents hPc
  have hCovered :=
    hAll start t events initial_start hReach hQuiet
  rw [List.all_eq_false] at hLost
  rcases hLost with ⟨p, hp, hNot⟩
  have hOne := hCovered p hp
  by_cases hStale : Stale t p
  · simp [hOne hStale] at hNot
  · simp [hStale] at hNot

end Watch

end Ps3emu
