import Ps3emu.Library.Greedy
import Ps3emu.Library.Transition
import Ps3emu.Spu.SPUGroupManager

/-
  The state of the group scheduler: each group is in one of
  the collections, the running groups fit the physical SPUs,
  and the threads are suspended accordingly.

  Key definitions include:
    * `SPUGroupManager.order`
    * `SPUGroupManager.Placed`
    * `SPUGroupManager.Inv`

  Key theorems include:
    * `SPUGroupManager.Placed.dispatch`
    * `SPUGroupManager.inv_of_step`
    * `SPUGroupManager.state_of_run`
-/

------------------------------------------------------------
-- Ordered Sets
------------------------------------------------------------

namespace Ps3emu

namespace SPUGroupManager

open Transition

variable {ready : List ThreadGroup}

theorem insert_perm
    {group : ThreadGroup}
    (hNew : group ∉ ready) :
    (insert ready group).Perm (group :: ready) := by
  unfold insert
  rw [if_neg hNew]
  exact List.perm_orderedInsert _ _ _

theorem pairwise_lt
    {groups : List ThreadGroup}
    (hSorted : groups.Pairwise (· ≤ ·))
    (hNodup : groups.Nodup) :
    groups.Pairwise (· < ·) :=
  hSorted.imp₂ (fun _ _ hLe hNe => lt_of_le_of_ne hLe hNe) hNodup

theorem insert_sorted
    {group : ThreadGroup}
    (hSorted : ready.Pairwise (· ≤ ·)) :
    (insert ready group).Pairwise (· ≤ ·) := by
  unfold insert
  split
  case isTrue => exact hSorted
  case isFalse => exact hSorted.orderedInsert group ready

theorem foldl_insert_sorted
    (groups : List ThreadGroup)
    (hSorted : ready.Pairwise (· ≤ ·)) :
    (groups.foldl insert ready).Pairwise (· ≤ ·) := by
  induction groups generalizing ready with
  | nil => exact hSorted
  | cons group rest ih => exact ih (insert_sorted hSorted)

theorem foldl_insert_perm
    {ready groups : List ThreadGroup}
    (hNodup : (ready ++ groups).Nodup) :
    (groups.foldl insert ready).Perm (ready ++ groups) := by
  induction groups generalizing ready with
  | nil =>
      rw [List.append_nil]
      exact List.Perm.refl _
  | cons group rest ih =>
      have hMiddle :
          (ready ++ group :: rest).Perm
            (group :: ready ++ rest) :=
        List.perm_middle
      have hNew : group ∉ ready := by
        have hAll := hMiddle.nodup_iff.mp hNodup
        intro hMem
        exact
          (List.nodup_cons.mp hAll).1
            (List.mem_append_left _ hMem)
      have hInsert :
          (insert ready group ++ rest).Perm
            (ready ++ group :: rest) :=
        ((insert_perm hNew).append_right rest).trans
          hMiddle.symm
      exact
        (ih (hInsert.nodup_iff.mpr hNodup)).trans hInsert

/- The ready and the running groups in the order of the set. -/
def order (s : SPUGroupManager) : List ThreadGroup :=
  (s.ready ++ s.running).mergeSort (· ≤ ·)

theorem eq_order
    {s : SPUGroupManager}
    {groups : List ThreadGroup}
    (hSorted : groups.Pairwise (· ≤ ·))
    (hPerm : groups.Perm (s.ready ++ s.running)) :
    groups = s.order :=
  List.Perm.eq_of_pairwise' hSorted
    (List.pairwise_mergeSort' (· ≤ ·) _)
    (hPerm.trans (List.mergeSort_perm _ _).symm)

------------------------------------------------------------
-- Invariants
------------------------------------------------------------

/- The collections, in which each group has its place. -/
def places (s : SPUGroupManager) : List ThreadGroup :=
  s.initialized ++ (s.ready ++ s.running) ++ s.suspended

/- What holds before and after a dispatch. -/
structure Placed (s : SPUGroupManager) : Prop where
  placed : s.places.Perm s.live
  nodup : s.live.Nodup
  sorted : s.ready.Pairwise (· ≤ ·)
  owner :
    ∀ group ∈ s.live, ∀ th ∈ s.threads group,
      (s.thread th).group = some group
  paused :
    ∀ group ∈ s.suspended, ∀ th ∈ s.threads group,
      (s.thread th).suspended = true
  ended :
    ∀ group ∈ s.initialized, ∀ th ∈ s.threads group,
      s.causes th ≠ .stillRunning
  active :
    ∀ group ∈ s.ready ++ s.running ++ s.suspended,
      s.threads group ≠ [] →
        ∃ th ∈ s.threads group, s.causes th = .stillRunning

/- What holds after it. -/
structure Inv (s : SPUGroupManager) : Prop
    extends Placed s where
  runs : s.running = Greedy.accept s.size physicalSpus s.order
  resumed :
    ∀ group ∈ s.running, ∀ th ∈ s.threads group,
      (s.thread th).suspended = false
  waiting :
    ∀ group ∈ s.ready, ∀ th ∈ s.threads group,
      (s.thread th).suspended = true

theorem Placed.nodup_places
    {s : SPUGroupManager}
    (hPlaced : Placed s) :
    s.places.Nodup :=
  hPlaced.placed.nodup_iff.mpr hPlaced.nodup

theorem Placed.nodup_active
    {s : SPUGroupManager}
    (hPlaced : Placed s) :
    (s.ready ++ s.running).Nodup :=
  hPlaced.nodup_places.sublist
    ((List.sublist_append_right _ _).trans
      (List.sublist_append_left _ _))

theorem Placed.live_of_mem
    {s : SPUGroupManager}
    (hPlaced : Placed s)
    {group : ThreadGroup}
    (hMem : group ∈ s.places) :
    group ∈ s.live :=
  hPlaced.placed.mem_iff.mp hMem

/- A thread belongs to one group. -/
theorem Placed.same_group
    {s : SPUGroupManager}
    (hPlaced : Placed s)
    {first second : ThreadGroup}
    (hFirst : first ∈ s.places)
    (hSecond : second ∈ s.places)
    {th : Nat}
    (hThread : th ∈ s.threads first)
    (hOther : th ∈ s.threads second) :
    first = second := by
  have hOne :=
    hPlaced.owner first (hPlaced.live_of_mem hFirst) th hThread
  have hTwo :=
    hPlaced.owner second (hPlaced.live_of_mem hSecond) th hOther
  rw [hOne] at hTwo
  exact Option.some.inj hTwo

/- The groups that were started and have not ended. -/
def started (s : SPUGroupManager) : List ThreadGroup :=
  s.ready ++ s.running ++ s.suspended

theorem places_eq (s : SPUGroupManager) :
    s.places = s.initialized ++ s.started :=
  List.append_assoc _ _ _

theorem places_of_started
    {s : SPUGroupManager}
    {group : ThreadGroup}
    (hMem : group ∈ s.started) :
    group ∈ s.places := by
  rw [places_eq]
  exact List.mem_append_right _ hMem

theorem places_of_initialized
    {s : SPUGroupManager}
    {group : ThreadGroup}
    (hMem : group ∈ s.initialized) :
    group ∈ s.places := by
  rw [places_eq]
  exact List.mem_append_left _ hMem

/- An initialized group is not started. -/
theorem Placed.not_started
    {s : SPUGroupManager}
    (hPlaced : Placed s)
    {group : ThreadGroup}
    (hMem : group ∈ s.initialized) :
    group ∉ s.started := by
  have hNodup := hPlaced.nodup_places
  rw [places_eq] at hNodup
  intro hStarted
  exact
    (List.nodup_append.mp hNodup).2.2 group hMem group hStarted
      rfl

/- A thread of a group is not one of other groups. -/
theorem Placed.not_mem_flatMap
    {s : SPUGroupManager}
    (hPlaced : Placed s)
    {group : ThreadGroup}
    {others : List ThreadGroup}
    (hGroup : group ∈ s.places)
    (hOthers : ∀ other ∈ others, other ∈ s.places)
    (hNotMem : group ∉ others)
    {th : Nat}
    (hThread : th ∈ s.threads group) :
    th ∉ others.flatMap s.threads := by
  intro hMem
  rcases List.mem_flatMap.mp hMem with ⟨other, hOther, hIn⟩
  have hSame :=
    hPlaced.same_group hGroup (hOthers other hOther) hThread hIn
  rw [hSame] at hNotMem
  exact hNotMem hOther

------------------------------------------------------------
-- Dispatch
------------------------------------------------------------

/- The set that the dispatcher walks. -/
def candidates (s : SPUGroupManager) : List ThreadGroup :=
  s.running.foldl insert s.ready

theorem dispatch_running_eq (s : SPUGroupManager) :
    s.dispatch.running =
      Greedy.accept s.size physicalSpus s.candidates :=
  Greedy.foldl_accept [] physicalSpus s.candidates

theorem dispatch_ready_eq (s : SPUGroupManager) :
    s.dispatch.ready =
      s.candidates.diff s.dispatch.running :=
  (List.diff_eq_foldl _ _).symm

theorem dispatch_thread
    (s : SPUGroupManager)
    (th : Nat) :
    s.dispatch.thread th =
      if th ∈ s.dispatch.running.flatMap s.threads then
        { s.thread th with suspended := false }
      else if th ∈ s.dispatch.ready.flatMap s.threads then
        { s.thread th with suspended := true }
      else s.thread th := by
  unfold dispatch setSuspended
  dsimp only
  split
  case isTrue =>
    split
    case isTrue => rfl
    case isFalse => rfl
  case isFalse => rfl

theorem dispatch_thread_group
    (s : SPUGroupManager)
    (th : Nat) :
    (s.dispatch.thread th).group = (s.thread th).group := by
  rw [dispatch_thread]
  split
  case isTrue => rfl
  case isFalse =>
    split
    case isTrue => rfl
    case isFalse => rfl

section Dispatched

variable {s : SPUGroupManager}

section

variable (hPlaced : Placed s)

include hPlaced

theorem Placed.candidates_perm :
    s.candidates.Perm (s.ready ++ s.running) :=
  foldl_insert_perm hPlaced.nodup_active

theorem Placed.candidates_eq :
    s.candidates = s.order :=
  eq_order (foldl_insert_sorted _ hPlaced.sorted)
    hPlaced.candidates_perm

theorem Placed.dispatch_perm :
    (s.dispatch.ready ++ s.dispatch.running).Perm
      (s.ready ++ s.running) := by
  have hSublist :
      s.dispatch.running.Sublist s.candidates := by
    rw [dispatch_running_eq]
    exact Greedy.accept_sublist _ _
  have hAll :=
    List.subperm_append_diff_self_of_count_le
      (fun x _ => hSublist.count_le x)
  rw [← dispatch_ready_eq] at hAll
  exact
    List.perm_append_comm.trans
      (hAll.trans hPlaced.candidates_perm)

theorem Placed.dispatch_sorted :
    s.dispatch.ready.Pairwise (· ≤ ·) := by
  rw [dispatch_ready_eq]
  exact
    (foldl_insert_sorted _ hPlaced.sorted).sublist
      (List.diff_sublist _ _)

theorem Placed.dispatch_places :
    s.dispatch.places.Perm s.places :=
  (hPlaced.dispatch_perm.append_left _).append_right _

theorem Placed.places_of_ready
    {group : ThreadGroup}
    (hMem : group ∈ s.dispatch.ready) :
    group ∈ s.places := by
  refine hPlaced.dispatch_places.mem_iff.mp ?_
  unfold places
  simp [hMem]

theorem Placed.places_of_running
    {group : ThreadGroup}
    (hMem : group ∈ s.dispatch.running) :
    group ∈ s.places := by
  refine hPlaced.dispatch_places.mem_iff.mp ?_
  unfold places
  simp [hMem]

theorem Placed.nodup_dispatch :
    s.dispatch.places.Nodup :=
  hPlaced.dispatch_places.nodup_iff.mpr hPlaced.nodup_places

end

variable {group : ThreadGroup}

theorem dispatch_resumed
    (hMem : group ∈ s.dispatch.running)
    {th : Nat}
    (hThread : th ∈ s.threads group) :
    (s.dispatch.thread th).suspended = false := by
  rw [dispatch_thread,
    if_pos (List.mem_flatMap.mpr ⟨group, hMem, hThread⟩)]

theorem Placed.dispatch_waiting
    (hPlaced : Placed s)
    (hMem : group ∈ s.dispatch.ready)
    {th : Nat}
    (hThread : th ∈ s.threads group) :
    (s.dispatch.thread th).suspended = true := by
  have hNot : group ∉ s.dispatch.running := by
    intro hRunning
    have hNodup := hPlaced.nodup_dispatch
    unfold places at hNodup
    simp only [List.nodup_append, List.mem_append] at hNodup
    exact
      hNodup.1.2.1.2.2 group hMem group hRunning rfl
  have hOut :=
    hPlaced.not_mem_flatMap (hPlaced.places_of_ready hMem)
      (fun _ hOther => hPlaced.places_of_running hOther) hNot
      hThread
  rw [dispatch_thread, if_neg hOut,
    if_pos (List.mem_flatMap.mpr ⟨group, hMem, hThread⟩)]

theorem Placed.dispatch_suspended
    (hPlaced : Placed s)
    (hMem : group ∈ s.suspended)
    {th : Nat}
    (hThread : th ∈ s.threads group) :
    (s.dispatch.thread th).suspended =
      (s.thread th).suspended := by
  have hPlace : group ∈ s.places := by
    unfold places
    simp [hMem]
  have hNodup := hPlaced.nodup_dispatch
  unfold places at hNodup
  have hNot :
      group ∉ s.dispatch.ready ++ s.dispatch.running := by
    intro hOther
    have hApart := (List.nodup_append.mp hNodup).2.2
    exact
      hApart group (List.mem_append_right _ hOther) group hMem
        rfl
  rw [List.mem_append, not_or] at hNot
  have hRunning :=
    hPlaced.not_mem_flatMap hPlace
      (fun _ hOther => hPlaced.places_of_running hOther)
      hNot.2 hThread
  have hReady :=
    hPlaced.not_mem_flatMap hPlace
      (fun _ hOther => hPlaced.places_of_ready hOther) hNot.1
      hThread
  rw [dispatch_thread, if_neg hRunning, if_neg hReady]

/- A dispatch puts the groups in order. -/
theorem Placed.dispatch (hPlaced : Placed s) :
    Inv s.dispatch where
  placed := hPlaced.dispatch_places.trans hPlaced.placed
  nodup := hPlaced.nodup
  sorted := hPlaced.dispatch_sorted
  owner group hLive th hThread := by
    rw [dispatch_thread_group]
    exact hPlaced.owner group hLive th hThread
  paused group hMem th hThread := by
    rw [hPlaced.dispatch_suspended hMem hThread]
    exact hPlaced.paused group hMem th hThread
  ended := hPlaced.ended
  active group hMem :=
    hPlaced.active group
      ((hPlaced.dispatch_perm.append_right _).mem_iff.mp hMem)
  runs := by
    rw [dispatch_running_eq, hPlaced.candidates_eq]
    congr 1
    exact
      eq_order
        (by
          rw [← hPlaced.candidates_eq]
          exact foldl_insert_sorted _ hPlaced.sorted)
        ((List.mergeSort_perm _ _).trans
          hPlaced.dispatch_perm.symm)
  resumed _ hMem _ hThread :=
    dispatch_resumed hMem hThread
  waiting _ hMem _ hThread :=
    hPlaced.dispatch_waiting hMem hThread

end Dispatched

------------------------------------------------------------
-- Frames
------------------------------------------------------------

section Operations

variable {s t : SPUGroupManager}

/- The second state differs in groups that are not started. -/
structure Framed (s t : SPUGroupManager) : Prop where
  ready : t.ready = s.ready
  running : t.running = s.running
  suspended : t.suspended = s.suspended
  threads :
    ∀ group ∈ s.started, t.threads group = s.threads group
  thread :
    ∀ group ∈ s.started, ∀ th ∈ s.threads group,
      (t.thread th).suspended = (s.thread th).suspended
  causes :
    ∀ group ∈ s.started, ∀ th ∈ s.threads group,
      t.causes th = s.causes th

theorem Inv.frame
    (hInv : Inv s)
    (hFramed : Framed s t)
    (hPlaced : t.places.Perm t.live)
    (hNodup : t.live.Nodup)
    (hOwner :
      ∀ group ∈ t.live, ∀ th ∈ t.threads group,
        (t.thread th).group = some group)
    (hEnded :
      ∀ group ∈ t.initialized, ∀ th ∈ t.threads group,
        t.causes th ≠ .stillRunning) :
    Inv t where
  placed := hPlaced
  nodup := hNodup
  sorted := by
    rw [hFramed.ready]
    exact hInv.sorted
  owner := hOwner
  ended := hEnded
  paused group hMem th hThread := by
    rw [hFramed.suspended] at hMem
    have hStarted : group ∈ s.started :=
      List.mem_append_right _ hMem
    rw [hFramed.threads group hStarted] at hThread
    rw [hFramed.thread group hStarted th hThread]
    exact hInv.paused group hMem th hThread
  active group hMem hSome := by
    rw [hFramed.ready, hFramed.running, hFramed.suspended]
      at hMem
    rw [hFramed.threads group hMem] at hSome ⊢
    rcases hInv.active group hMem hSome with ⟨th, hIn, hCause⟩
    refine ⟨th, hIn, ?_⟩
    rw [hFramed.causes group hMem th hIn]
    exact hCause
  runs := by
    have hOrder : t.order = s.order := by
      unfold order
      rw [hFramed.ready, hFramed.running]
    rw [hFramed.running, hOrder, hInv.runs]
    refine Greedy.accept_congr ?_ _
    intro group hMem
    have hIn := List.mem_mergeSort.mp hMem
    unfold size
    rw [hFramed.threads group (List.mem_append_left _ hIn)]
  resumed group hMem th hThread := by
    rw [hFramed.running] at hMem
    have hStarted : group ∈ s.started :=
      List.mem_append_left _ (List.mem_append_right _ hMem)
    rw [hFramed.threads group hStarted] at hThread
    rw [hFramed.thread group hStarted th hThread]
    exact hInv.resumed group hMem th hThread
  waiting group hMem th hThread := by
    rw [hFramed.ready] at hMem
    have hStarted : group ∈ s.started :=
      List.mem_append_left _ (List.mem_append_left _ hMem)
    rw [hFramed.threads group hStarted] at hThread
    rw [hFramed.thread group hStarted th hThread]
    exact hInv.waiting group hMem th hThread

------------------------------------------------------------
-- Operations
------------------------------------------------------------

theorem inv_createGroup
    {group : ThreadGroup}
    (hInv : Inv s)
    (hCreate : s.createGroup group = some t) :
    Inv t := by
  unfold createGroup at hCreate
  split at hCreate
  case isFalse => cases hCreate
  case isTrue hFresh =>
    cases hCreate
    have hNew : group ∉ s.live :=
      fun hMem => hFresh group hMem rfl
    have hOther :
        ∀ other ∈ s.live,
          Function.update s.threads group [] other =
            s.threads other := by
      intro other hMem
      refine Function.update_of_ne ?_ _ _
      rintro rfl
      exact hNew hMem
    have hStarted :
        ∀ other ∈ s.started, other ∈ s.live :=
      fun other hMem =>
        hInv.live_of_mem (places_of_started hMem)
    refine
      hInv.frame ⟨rfl, rfl, rfl, ?_, fun _ _ _ _ => rfl,
        fun _ _ _ _ => rfl⟩ ?_ ?_ ?_ ?_
    · intro other hMem
      exact hOther other (hStarted other hMem)
    · have hPlaced := hInv.placed.cons group
      refine List.Perm.trans ?_ hPlaced
      rw [List.perm_iff_count]
      intro a
      unfold places add
      simp only [List.count_append, List.count_cons,
        List.count_nil]
      omega
    · exact List.nodup_cons.mpr ⟨hNew, hInv.nodup⟩
    · intro other hMem th hThread
      change th ∈ Function.update s.threads group [] other
        at hThread
      rcases List.mem_cons.mp hMem with rfl | hOld
      · rw [Function.update_self] at hThread
        cases hThread
      · rw [hOther other hOld] at hThread
        exact hInv.owner other hOld th hThread
    · intro other hMem th hThread
      change th ∈ Function.update s.threads group [] other
        at hThread
      rcases List.mem_append.mp hMem with hOld | hOwn
      · rw [hOther other
          (hInv.live_of_mem (places_of_initialized hOld))]
          at hThread
        exact hInv.ended other hOld th hThread
      · rw [List.mem_singleton.mp hOwn, Function.update_self]
          at hThread
        cases hThread

theorem inv_initializeThread
    {group : ThreadGroup}
    {th : Nat}
    (hInv : Inv s)
    (hInitialize : s.initializeThread group th = some t) :
    Inv t := by
  unfold initializeThread at hInitialize
  split at hInitialize
  case isFalse => cases hInitialize
  case isTrue hGuard =>
    cases hInitialize
    have hNew :
        ∀ other ∈ s.live, ∀ th' ∈ s.threads other,
          th' ≠ th := by
      rintro other hMem th' hThread rfl
      have hOwner := hInv.owner other hMem th' hThread
      rw [hGuard.2] at hOwner
      cases hOwner
    have hApart :
        ∀ other ∈ s.started, other ≠ group := by
      rintro other hMem rfl
      exact hInv.not_started hGuard.1 hMem
    have hLive :
        ∀ other ∈ s.started, other ∈ s.live :=
      fun other hMem =>
        hInv.live_of_mem (places_of_started hMem)
    refine
      hInv.frame ⟨rfl, rfl, rfl, ?_, ?_, ?_⟩ hInv.placed
        hInv.nodup ?_ ?_
    · intro other hMem
      exact Function.update_of_ne (hApart other hMem) _ _
    · intro other hMem th' hThread
      dsimp only
      rw [Function.update_of_ne
        (hNew other (hLive other hMem) th' hThread)]
    · intro other hMem th' hThread
      exact
        Function.update_of_ne
          (hNew other (hLive other hMem) th' hThread) _ _
    · intro other hMem th' hThread
      dsimp only at hThread ⊢
      by_cases hOther : other = group
      · rw [hOther, Function.update_self] at hThread
        rcases List.mem_append.mp hThread with hOld | hOwn
        · rw [hOther] at hMem ⊢
          rw [Function.update_of_ne (hNew group hMem th' hOld)]
          exact hInv.owner group hMem th' hOld
        · rw [List.mem_singleton.mp hOwn, Function.update_self,
            hOther]
      · rw [Function.update_of_ne hOther] at hThread
        rw [Function.update_of_ne (hNew other hMem th' hThread)]
        exact hInv.owner other hMem th' hThread
    · intro other hMem th' hThread
      dsimp only at hMem hThread ⊢
      by_cases hThis : th' = th
      · rw [hThis, Function.update_self]
        decide
      · rw [Function.update_of_ne hThis]
        refine hInv.ended other hMem th' ?_
        by_cases hOther : other = group
        · rw [hOther, Function.update_self] at hThread
          rcases List.mem_append.mp hThread with hOld | hOwn
          · rw [hOther]
            exact hOld
          · exact absurd (List.mem_singleton.mp hOwn) hThis
        · rw [Function.update_of_ne hOther] at hThread
          exact hThread

theorem inv_destroy
    {group : ThreadGroup}
    (hInv : Inv s)
    (hDestroy : s.destroy group = some t) :
    Inv t := by
  unfold destroy at hDestroy
  split at hDestroy
  case isFalse => cases hDestroy
  case isTrue hMem =>
    cases hDestroy
    refine
      hInv.frame ⟨rfl, rfl, rfl, fun _ _ => rfl,
        fun _ _ _ _ => rfl, fun _ _ _ _ => rfl⟩ ?_ ?_ ?_ ?_
    · refine List.Perm.trans ?_ (hInv.placed.erase group)
      rw [places_eq, places_eq, List.erase_append_left _ hMem]
      exact List.Perm.refl _
    · exact hInv.nodup.erase group
    · intro other hOther
      exact hInv.owner other (List.mem_of_mem_erase hOther)
    · intro other hOther
      exact hInv.ended other (List.mem_of_mem_erase hOther)

/- A group that is moved is still in one place. -/
theorem moved_perm
    {initialized ready running suspended : List ThreadGroup}
    (hCount :
      ∀ a,
        initialized.count a + ready.count a +
              running.count a + suspended.count a =
          s.initialized.count a + s.ready.count a +
            s.running.count a + s.suspended.count a) :
    (initialized ++ (ready ++ running) ++ suspended).Perm
      s.places := by
  rw [List.perm_iff_count]
  intro a
  have hSame := hCount a
  unfold places
  simp only [List.count_append]
  omega

theorem Placed.count_le
    (hPlaced : Placed s)
    (group : ThreadGroup) :
    s.initialized.count group + s.ready.count group +
        s.running.count group + s.suspended.count group ≤ 1 := by
  have hCount :=
    List.nodup_iff_count_le_one.mp hPlaced.nodup_places group
  unfold places at hCount
  simp only [List.count_append] at hCount
  omega

variable {ready : List ThreadGroup}

theorem count_insert
    {group : ThreadGroup}
    (hNew : ready.count group = 0)
    (a : ThreadGroup) :
    (insert ready group).count a =
      ready.count a + if group == a then 1 else 0 := by
  rw [(insert_perm (List.count_eq_zero.mp hNew)).count_eq a,
    List.count_cons]

theorem mem_insert
    {group other : ThreadGroup}
    (hMem : other ∈ insert ready group) :
    other = group ∨ other ∈ ready := by
  unfold insert at hMem
  split at hMem
  case isTrue => exact .inr hMem
  case isFalse => exact (List.mem_orderedInsert _).mp hMem

/- A group is started: it is ready, and all its threads run. -/
theorem inv_start
    {group : ThreadGroup}
    (hInv : Inv s)
    (hStart : s.start group = some t) :
    Inv t := by
  unfold start at hStart
  dsimp only at hStart
  split at hStart
  case isTrue => cases hStart
  case isFalse =>
    split at hStart
    case isFalse => cases hStart
    case isTrue hMem =>
      cases hStart
      have hLe := hInv.count_le group
      have hOne : 0 < s.initialized.count group :=
        List.count_pos_iff.mpr hMem
      refine
        Placed.dispatch
          ⟨?_, hInv.nodup, insert_sorted hInv.sorted, ?_, ?_,
            ?_, ?_⟩
      · refine List.Perm.trans (moved_perm ?_) hInv.placed
        intro a
        rw [List.count_erase, count_insert (by omega)]
        by_cases hSame : group = a
        · subst hSame
          simp only [beq_self_eq_true, if_true]
          omega
        · simp [hSame]
      · intro other hLive th hThread
        dsimp only
        split
        case isTrue => exact hInv.owner other hLive th hThread
        case isFalse => exact hInv.owner other hLive th hThread
      · intro other hOther th hThread
        dsimp only
        split
        case isTrue => rfl
        case isFalse => exact hInv.paused other hOther th hThread
      · intro other hOther th hThread
        dsimp only at hOther hThread ⊢
        have hOld := List.mem_of_mem_erase hOther
        have hNe : other ≠ group := by
          rintro rfl
          have hTwice := List.count_pos_iff.mpr hOther
          rw [List.count_erase_self] at hTwice
          omega
        rw [if_neg ?_]
        · exact hInv.ended other hOld th hThread
        · intro hBoth
          exact
            hNe
              (hInv.same_group (places_of_initialized hOld)
                (places_of_initialized hMem) hThread hBoth)
      · intro other hOther hSome
        dsimp only at hOther hSome ⊢
        by_cases hSame : other = group
        · rw [hSame] at hSome ⊢
          rcases List.exists_mem_of_ne_nil _ hSome with ⟨th, hIn⟩
          exact ⟨th, hIn, if_pos hIn⟩
        · have hStarted : other ∈ s.started := by
            unfold started
            simp only [List.mem_append] at hOther ⊢
            rcases hOther with (hReady | hRest) | hRest
            · rcases mem_insert hReady with rfl | hOld
              · exact absurd rfl hSame
              · exact .inl (.inl hOld)
            · exact .inl (.inr hRest)
            · exact .inr hRest
          rcases hInv.active other hStarted hSome with
            ⟨th, hIn, hCause⟩
          refine ⟨th, hIn, ?_⟩
          split
          case isTrue => rfl
          case isFalse => exact hCause

theorem setSuspended_thread
    (s : SPUGroupManager)
    (groups : List ThreadGroup)
    (value : Bool)
    (th : Nat) :
    (s.setSuspended groups value).thread th =
      if th ∈ groups.flatMap s.threads then
        { s.thread th with suspended := value }
      else s.thread th :=
  rfl

theorem setSuspended_group
    (s : SPUGroupManager)
    (groups : List ThreadGroup)
    (value : Bool)
    (th : Nat) :
    ((s.setSuspended groups value).thread th).group =
      (s.thread th).group := by
  rw [setSuspended_thread]
  split
  case isTrue => rfl
  case isFalse => rfl

/- The threads of a suspended group are all suspended. -/
theorem inv_suspend
    (hInv : Inv s)
    (group : ThreadGroup) :
    Inv (s.suspend group).1 := by
  unfold suspend
  split
  case isTrue => exact hInv
  case isFalse hNew =>
    split
    case isTrue => exact hInv
    case isFalse hKnown =>
      split
      case isTrue => exact hInv
      case isFalse =>
        have hLe := hInv.count_le group
        dsimp only
        split
        case isTrue hRunning =>
          have hOne : 0 < s.running.count group :=
            List.count_pos_iff.mpr hRunning
          refine
            Placed.dispatch
              ⟨?_, hInv.nodup, hInv.sorted, ?_, ?_, hInv.ended,
                ?_⟩
          · refine List.Perm.trans (moved_perm ?_) hInv.placed
            intro a
            rw [List.count_erase, List.count_append,
              List.count_singleton]
            change
              s.initialized.count a + s.ready.count a + _ +
                  (s.suspended.count a + _) =
                _
            by_cases hSame : group = a
            · subst hSame
              simp only [beq_self_eq_true, if_true]
              omega
            · simp [hSame]
          · intro other hLive th hThread
            exact
              (setSuspended_group s [group] true th).trans
                (hInv.owner other hLive th hThread)
          · intro other hOther th hThread
            change
              ((s.setSuspended [group] true).thread
                th).suspended = true
            rw [setSuspended_thread]
            split
            case isTrue => rfl
            case isFalse hOut =>
              rcases List.mem_append.mp hOther with hOld | hOwn
              · exact hInv.paused other hOld th hThread
              · exact
                  absurd
                    (List.mem_flatMap.mpr
                      ⟨other, hOwn, hThread⟩)
                    hOut
          · intro other hOther
            refine hInv.active other ?_
            change
              other ∈
                s.ready ++ s.running.erase group ++
                  (s.suspended ++ [group]) at hOther
            simp only [List.mem_append, List.mem_singleton]
              at hOther ⊢
            rcases hOther with (hReady | hRest) | hOld | rfl
            · exact .inl (.inl hReady)
            · exact .inl (.inr (List.mem_of_mem_erase hRest))
            · exact .inr hOld
            · exact .inl (.inr hRunning)
        case isFalse hNotRunning =>
          have hReady : group ∈ s.ready := by
            by_contra hNot
            exact hKnown ⟨hNot, hNotRunning⟩
          have hOne : 0 < s.ready.count group :=
            List.count_pos_iff.mpr hReady
          refine
            Placed.dispatch
              ⟨?_, hInv.nodup, hInv.sorted.erase group,
                hInv.owner, ?_, hInv.ended, ?_⟩
          · refine List.Perm.trans (moved_perm ?_) hInv.placed
            intro a
            rw [List.count_erase, List.count_append,
              List.count_singleton]
            by_cases hSame : group = a
            · subst hSame
              simp only [beq_self_eq_true, if_true]
              omega
            · simp [hSame]
          · intro other hOther th hThread
            rcases List.mem_append.mp hOther with hOld | hOwn
            · exact hInv.paused other hOld th hThread
            · rw [List.mem_singleton.mp hOwn] at hThread
              exact hInv.waiting group hReady th hThread
          · intro other hOther
            refine hInv.active other ?_
            dsimp only at hOther
            simp only [List.mem_append, List.mem_singleton]
              at hOther ⊢
            rcases hOther with (hRest | hRun) | hOld | rfl
            · exact .inl (.inl (List.mem_of_mem_erase hRest))
            · exact .inl (.inr hRun)
            · exact .inr hOld
            · exact .inl (.inl hReady)

theorem inv_resume
    (hInv : Inv s)
    (group : ThreadGroup) :
    Inv (s.resume group).1 := by
  unfold resume
  split
  case isFalse => exact hInv
  case isTrue hMem =>
    have hLe := hInv.count_le group
    have hOne : 0 < s.suspended.count group :=
      List.count_pos_iff.mpr hMem
    refine
      Placed.dispatch
        ⟨?_, hInv.nodup, insert_sorted hInv.sorted, hInv.owner,
          ?_, hInv.ended, ?_⟩
    · refine List.Perm.trans (moved_perm ?_) hInv.placed
      intro a
      rw [List.count_erase, count_insert (by omega)]
      by_cases hSame : group = a
      · subst hSame
        simp only [beq_self_eq_true, if_true]
        omega
      · simp [hSame]
    · intro other hOther
      exact hInv.paused other (List.mem_of_mem_erase hOther)
    · intro other hOther
      refine hInv.active other ?_
      dsimp only at hOther
      simp only [List.mem_append] at hOther ⊢
      rcases hOther with (hReady | hRest) | hRest
      · rcases mem_insert hReady with rfl | hOld
        · exact .inr hMem
        · exact .inl (.inl hOld)
      · exact .inl (.inr hRest)
      · exact .inr (List.mem_of_mem_erase hRest)

theorem inv_join
    {group : ThreadGroup}
    {result : BitVec 32 × BitVec 32}
    (hInv : Inv s)
    (hJoin : s.join group = some (t, result)) :
    Inv t := by
  unfold join at hJoin
  dsimp only at hJoin
  split at hJoin
  case isFalse => cases hJoin
  case isTrue =>
    cases hJoin
    refine
      hInv.frame ⟨rfl, rfl, rfl, fun _ _ => rfl, ?_,
        fun _ _ _ _ => rfl⟩ hInv.placed hInv.nodup ?_ hInv.ended
    · intro other _ th _
      dsimp only
      split
      case isTrue => rfl
      case isFalse => rfl
    · intro other hLive th hThread
      dsimp only
      split
      case isTrue => exact hInv.owner other hLive th hThread
      case isFalse => exact hInv.owner other hLive th hThread

theorem inv_record
    (hInv : Inv s)
    (th : Nat)
    (info : SPUThreadExitInfo) :
    Inv (s.record th info) := by
  have hSame :
      ∀ other,
        ((s.record th info).thread other).suspended =
            (s.thread other).suspended ∧
          ((s.record th info).thread other).group =
            (s.thread other).group := by
    intro other
    unfold record
    dsimp only
    by_cases hOther : other = th
    · rw [hOther, Function.update_self]
      exact ⟨rfl, rfl⟩
    · rw [Function.update_of_ne hOther]
      exact ⟨rfl, rfl⟩
  refine
    hInv.frame ⟨rfl, rfl, rfl, fun _ _ => rfl,
      fun _ _ other _ => (hSame other).1, fun _ _ _ _ => rfl⟩
      hInv.placed hInv.nodup ?_ hInv.ended
  intro group hLive other hThread
  rw [(hSame other).2]
  exact hInv.owner group hLive other hThread

section Notify

variable {th : Nat} {cause : SPUThreadExitCause} {group : ThreadGroup}

/- The cause of a thread of another group stays as it is. -/
theorem cause_of_other
    (hInv : Inv s)
    (hGroup : (s.thread th).group = some group) :
    ∀ other ∈ s.places, other ≠ group →
      ∀ th' ∈ s.threads other,
        Function.update s.causes th cause th' =
          s.causes th' := by
  intro other hPlace hNe th' hThread
  refine Function.update_of_ne ?_ _ _
  rintro rfl
  have hOwner :=
    hInv.owner other (hInv.live_of_mem hPlace) th' hThread
  rw [hGroup] at hOwner
  exact hNe (Option.some.inj hOwner).symm

theorem ended_of_cause
    (hInv : Inv s)
    (hCause : cause ≠ .stillRunning) :
    ∀ other ∈ s.initialized, ∀ th' ∈ s.threads other,
      Function.update s.causes th cause th' ≠
        .stillRunning := by
  intro other hMem th' hThread
  by_cases hThis : th' = th
  · rw [hThis, Function.update_self]
    exact hCause
  · rw [Function.update_of_ne hThis]
    exact hInv.ended other hMem th' hThread

theorem active_of_other
    (hInv : Inv s)
    (hGroup : (s.thread th).group = some group) :
    ∀ other ∈ s.started, other ≠ group →
      s.threads other ≠ [] →
        ∃ th' ∈ s.threads other,
          Function.update s.causes th cause th' =
            .stillRunning := by
  intro other hMem hNe hSome
  rcases hInv.active other hMem hSome with
    ⟨th', hIn, hRuns⟩
  refine ⟨th', hIn, ?_⟩
  rw [cause_of_other hInv hGroup other
    (places_of_started hMem) hNe th' hIn]
  exact hRuns

/- A group of which no thread runs is not started any more. -/
theorem inv_endGroup
    (hInv : Inv s)
    (hCause : cause ≠ .stillRunning)
    (hGroup : (s.thread th).group = some group)
    (hNone :
      ∀ th' ∈ s.threads group,
        Function.update s.causes th cause th' ≠
          .stillRunning)
    (hStarted : group ∈ s.started) :
    Inv
      { s with
        causes := Function.update s.causes th cause
        running := s.running.erase group
        suspended := s.suspended.erase group
        ready := s.ready.erase group
        initialized := s.initialized ++ [group] }.dispatch := by
  have hLe := hInv.count_le group
  have hOne :
      0 < s.ready.count group + s.running.count group +
        s.suspended.count group := by
    have hCount := List.count_pos_iff.mpr hStarted
    unfold started at hCount
    simp only [List.count_append] at hCount
    exact hCount
  refine
    Placed.dispatch
      ⟨?_, hInv.nodup, hInv.sorted.erase group, hInv.owner, ?_,
        ?_, ?_⟩
  · refine List.Perm.trans (moved_perm ?_) hInv.placed
    intro a
    rw [List.count_append, List.count_singleton,
      List.count_erase, List.count_erase, List.count_erase]
    by_cases hSame : group = a
    · subst hSame
      simp only [beq_self_eq_true, if_true]
      omega
    · simp [hSame]
  · intro other hOtherMem
    exact hInv.paused other (List.mem_of_mem_erase hOtherMem)
  · intro other hMem th' hThread
    rcases List.mem_append.mp hMem with hOld | hOwn
    · exact ended_of_cause hInv hCause other hOld th' hThread
    · rw [List.mem_singleton.mp hOwn] at hThread
      exact hNone th' hThread
  · intro other hMem hSome
    refine active_of_other hInv hGroup other ?_ ?_ hSome
    · unfold started
      dsimp only at hMem
      simp only [List.mem_append] at hMem ⊢
      rcases hMem with (hReady | hRunning) | hSuspended
      · exact .inl (.inl (List.mem_of_mem_erase hReady))
      · exact .inl (.inr (List.mem_of_mem_erase hRunning))
      · exact .inr (List.mem_of_mem_erase hSuspended)
    · rintro rfl
      have hTwice := List.count_pos_iff.mpr hMem
      simp only [List.count_append,
        List.count_erase_self] at hTwice
      omega

end Notify

/- A group is initialized when its last thread has stopped. -/
theorem inv_notifyThreadStopped
    {th : Nat}
    {cause : SPUThreadExitCause}
    (hInv : Inv s)
    (hCause : cause ≠ .stillRunning)
    (hNotify : s.notifyThreadStopped th cause = some t) :
    Inv t := by
  unfold notifyThreadStopped at hNotify
  split at hNotify
  case h_1 =>
    cases hNotify
    exact hInv
  case h_2 group hGroup =>
    dsimp only at hNotify
    split at hNotify
    case isTrue hAny =>
      cases hNotify
      refine
        { hInv with
          ended := ended_of_cause hInv hCause
          active := ?_ }
      intro other hMem hSome
      by_cases hSame : other = group
      · rw [hSame]
        rcases List.any_eq_true.mp hAny with ⟨th', hIn, hRuns⟩
        exact ⟨th', hIn, beq_iff_eq.mp hRuns⟩
      · exact active_of_other hInv hGroup other hMem hSame hSome
    case isFalse hNone =>
      split at hNotify
      case isFalse => cases hNotify
      case isTrue hKnown =>
        cases hNotify
        apply inv_endGroup hInv hCause hGroup
        · intro th' hThread hRuns
          exact
            hNone
              (List.any_eq_true.mpr
                ⟨th', hThread, beq_iff_eq.mpr hRuns⟩)
        · unfold started
          simp only [List.mem_append]
          tauto

theorem inv_of_step
    {e : Event}
    (hInv : Inv s)
    (hStep : Step s e t) :
    Inv t := by
  cases hStep with
  | create hCreate => exact inv_createGroup hInv hCreate
  | addThread hInitialize =>
      exact inv_initializeThread hInv hInitialize
  | destroy hDestroy => exact inv_destroy hInv hDestroy
  | start hStart => exact inv_start hInv hStart
  | suspend group => exact inv_suspend hInv group
  | resume group => exact inv_resume hInv group
  | join hJoin => exact inv_join hInv hJoin
  | notify hCause hNotify =>
      exact inv_notifyThreadStopped hInv hCause hNotify
  | record th info => exact inv_record hInv th info

end Operations

theorem inv_start_state : Inv {} where
  placed := .nil
  nodup := List.nodup_nil
  sorted := .nil
  owner _ hMem := by cases hMem
  paused _ hMem := by cases hMem
  ended _ hMem := by cases hMem
  active _ hMem := by cases hMem
  runs := by
    unfold order
    simp [Greedy.accept]
  resumed _ hMem := by cases hMem
  waiting _ hMem := by cases hMem

theorem inv_of_run
    {events : List Event}
    {t : SPUGroupManager}
    (hRun : Run Step {} events t) :
    Inv t :=
  hRun.invariant Inv
    (fun _ _ _ hInv hStep => inv_of_step hInv hStep)
    inv_start_state

/-
  Each group is in one place, the running groups fit, and the
  threads of a started group run if the group does.
-/
theorem state_of_run
    (events : List Event)
    (t : SPUGroupManager)
    (hRun : Run Step {} events t) :
    (∀ group ∈ t.live,
      (t.initialized ++ (t.ready ++ t.running) ++
        t.suspended).count group = 1) ∧
      Greedy.load t.size t.running ≤ physicalSpus ∧
      ∀ group ∈ t.live,
        (∃ th ∈ t.threads group,
          t.causes th = .stillRunning) →
          ∀ th ∈ t.threads group,
            (t.thread th).suspended = false ↔
              group ∈ t.running := by
  have hInv := inv_of_run hRun
  refine ⟨?_, ?_, ?_⟩
  · intro group hLive
    exact
      List.count_eq_one_of_mem hInv.nodup_places
        (hInv.placed.mem_iff.mpr hLive)
  · rw [hInv.runs]
    exact Greedy.load_accept_le _ _
  · rintro group hLive ⟨active, hActive, hRuns⟩ th hThread
    have hStarted : group ∈ t.started := by
      have hPlace := hInv.placed.mem_iff.mpr hLive
      rw [places_eq] at hPlace
      rcases List.mem_append.mp hPlace with hIdle | hStarted
      · exact absurd hRuns (hInv.ended group hIdle _ hActive)
      · exact hStarted
    constructor
    · intro hResumed
      unfold started at hStarted
      simp only [List.mem_append] at hStarted
      rcases hStarted with (hReady | hRunning) | hSuspended
      · rw [hInv.waiting group hReady th hThread] at hResumed
        cases hResumed
      · exact hRunning
      · rw [hInv.paused group hSuspended th hThread] at hResumed
        cases hResumed
    · intro hRunning
      exact hInv.resumed group hRunning th hThread

/- A group of one thread is started. -/
theorem state_of_run_start :
    ∃ t : SPUGroupManager,
      t.running = [⟨16, 1⟩] ∧
        (t.initialized ++ (t.ready ++ t.running) ++
          t.suspended).count ⟨16, 1⟩ = 1 :=
  ⟨_, rfl,
    (state_of_run
      [.create ⟨16, 1⟩, .addThread ⟨16, 1⟩ 1,
        .start ⟨16, 1⟩]
      _
      (.snoc
        (.snoc (.snoc .nil (.create rfl)) (.addThread rfl))
        (.start rfl))).1 _ (by decide)⟩

end SPUGroupManager

end Ps3emu
