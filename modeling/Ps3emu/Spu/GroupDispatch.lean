import Ps3emu.Spu.GroupState

/-
  The choice of the group scheduler: in every state those
  groups run that a walk in the order of priority and id
  accepts, and a group is preempted only for one before it.

  Key theorems include:
    * `SPUGroupManager.Inv.misfit`
    * `SPUGroupManager.preempted_of_step`
    * `SPUGroupManager.dispatch_of_run`
-/

------------------------------------------------------------
-- Waiting Groups and Preemption
------------------------------------------------------------

namespace Ps3emu

namespace SPUGroupManager

open Transition

variable {s t : SPUGroupManager}

theorem Inv.order_sorted (hInv : Inv s) :
    s.order.Pairwise (· < ·) :=
  pairwise_lt (List.pairwise_mergeSort' (· ≤ ·) _)
    ((List.mergeSort_perm _ _).nodup_iff.mpr
      hInv.nodup_active)

theorem Inv.load_running (hInv : Inv s) :
    Greedy.load s.size s.running ≤ physicalSpus := by
  rw [hInv.runs]
  exact Greedy.load_accept_le _ _

variable {group : ThreadGroup}

/- A ready group does not fit beside those before it. -/
theorem Inv.misfit
    (hInv : Inv s)
    (hReady : group ∈ s.ready) :
    physicalSpus <
      Greedy.load s.size (s.running.filter (· < group)) +
        s.size group := by
  have hMem : group ∈ s.order :=
    List.mem_mergeSort.mpr (List.mem_append_left _ hReady)
  have hNot : group ∉ s.running := by
    intro hRunning
    exact
      (List.nodup_append.mp hInv.nodup_active).2.2 group hReady
        group hRunning rfl
  have hIff :
      group ∈ Greedy.accept s.size physicalSpus s.order ↔
        Greedy.load s.size
              ((Greedy.accept s.size physicalSpus
                s.order).filter (· < group)) +
            s.size group ≤
          physicalSpus :=
    Greedy.mem_accept_iff hInv.order_sorted hMem
  rw [← hInv.runs] at hIff
  by_contra hFits
  exact hNot (hIff.mpr (Nat.le_of_not_lt hFits))

/- A step does not change the threads of a started group. -/
theorem threads_of_step
    {e : Event}
    (hInv : Inv s)
    (hStep : Step s e t)
    (hStarted : group ∈ s.started) :
    t.threads group = s.threads group := by
  cases hStep with
  | @create new t hCreate =>
      unfold createGroup at hCreate
      split at hCreate
      case isFalse => cases hCreate
      case isTrue hFresh =>
        cases hCreate
        refine Function.update_of_ne ?_ _ _
        rintro rfl
        exact
          hFresh group
            (hInv.live_of_mem (places_of_started hStarted)) rfl
  | @addThread other th t hAdd =>
      unfold initializeThread at hAdd
      split at hAdd
      case isFalse => cases hAdd
      case isTrue hGuard =>
        cases hAdd
        refine Function.update_of_ne ?_ _ _
        rintro rfl
        exact hInv.not_started hGuard.1 hStarted
  | destroy hDestroy =>
      unfold destroy at hDestroy
      split at hDestroy
      case isFalse => cases hDestroy
      case isTrue =>
        cases hDestroy
        rfl
  | start hStart =>
      unfold start at hStart
      dsimp only at hStart
      split at hStart
      case isTrue => cases hStart
      case isFalse =>
        split at hStart
        case isFalse => cases hStart
        case isTrue =>
          cases hStart
          rfl
  | suspend other =>
      unfold suspend
      split
      case isTrue => rfl
      case isFalse =>
        split
        case isTrue => rfl
        case isFalse =>
          split
          case isTrue => rfl
          case isFalse =>
            dsimp only
            split
            case isTrue => rfl
            case isFalse => rfl
  | resume other =>
      unfold resume
      split
      case isTrue => rfl
      case isFalse => rfl
  | join hJoin =>
      unfold join at hJoin
      dsimp only at hJoin
      split at hJoin
      case isFalse => cases hJoin
      case isTrue =>
        cases hJoin
        rfl
  | notify _ hNotify =>
      unfold notifyThreadStopped at hNotify
      split at hNotify
      case h_1 =>
        cases hNotify
        rfl
      case h_2 =>
        dsimp only at hNotify
        split at hNotify
        case isTrue =>
          cases hNotify
          rfl
        case isFalse =>
          split at hNotify
          case isFalse => cases hNotify
          case isTrue =>
            cases hNotify
            rfl
  | record th info => rfl

/- A group is preempted for one before it that did not run. -/
theorem preempted_of_step
    {e : Event}
    (hInv : Inv s)
    (hStep : Step s e t)
    (hRunning : group ∈ s.running)
    (hReady : group ∈ t.ready) :
    ∃ other ∈ t.running, other < group ∧ other ∉ s.running := by
  have hNext := inv_of_step hInv hStep
  by_contra hNone
  have hSubset :
      t.running.filter (· < group) ⊆ s.running.erase group := by
    intro other hMem
    rcases List.mem_filter.mp hMem with ⟨hIn, hLess⟩
    have hLess' : other < group := of_decide_eq_true hLess
    refine (List.mem_erase_of_ne (ne_of_lt hLess')).mpr ?_
    by_contra hNew
    exact hNone ⟨other, hIn, hLess', hNew⟩
  have hNodup : (t.running.filter (· < group)).Nodup :=
    (List.nodup_append.mp hNext.nodup_active).2.1.filter _
  have hSame :
      ∀ other ∈ s.running, t.size other = s.size other := by
    intro other hMem
    unfold size
    rw [threads_of_step hInv hStep
      (List.mem_append_left _ (List.mem_append_right _ hMem))]
  have hMisfit := hNext.misfit hReady
  have hLoad := hInv.load_running
  have hLe :
      Greedy.load t.size (t.running.filter (· < group)) ≤
        Greedy.load t.size (s.running.erase group) :=
    Greedy.load_subset hNodup hSubset
  have hErase :
      Greedy.load t.size (s.running.erase group) =
        Greedy.load s.size (s.running.erase group) :=
    Greedy.load_congr
      (fun other hMem =>
        hSame other (List.mem_of_mem_erase hMem))
  have hAll :
      Greedy.load s.size s.running =
        Greedy.load s.size (group :: s.running.erase group) :=
    Greedy.load_perm (List.perm_cons_erase hRunning)
  rw [Greedy.load_cons] at hAll
  rw [hSame group hRunning] at hMisfit
  omega

------------------------------------------------------------
-- Runs
------------------------------------------------------------

/-
  The running groups are those that the walk accepts, no ready
  group would fit beside those before it, and a group is
  preempted only in favour of one before it.
-/
theorem dispatch_of_run
    (events : List Event)
    (s : SPUGroupManager)
    (hRun : Run Step {} events s) :
    s.running =
        Greedy.accept s.size physicalSpus
          ((s.ready ++ s.running).mergeSort (· ≤ ·)) ∧
      (∀ group ∈ s.ready,
        physicalSpus <
          Greedy.load s.size (s.running.filter (· < group)) +
            s.size group) ∧
      ∀ e t, Step s e t →
        ∀ group ∈ s.running, group ∈ t.ready →
          ∃ other ∈ t.running,
            other < group ∧ other ∉ s.running := by
  have hInv := inv_of_run hRun
  refine ⟨hInv.runs, ?_, ?_⟩
  · intro group hReady
    exact hInv.misfit hReady
  · intro e t hStep group hRunning hReady
    exact preempted_of_step hInv hStep hRunning hReady

/- A group of one thread waits for one of six threads. -/
def preemption : List Event :=
  [.create ⟨16, 1⟩, .addThread ⟨16, 1⟩ 1, .start ⟨16, 1⟩,
    .create ⟨8, 2⟩, .addThread ⟨8, 2⟩ 2,
    .addThread ⟨8, 2⟩ 3, .addThread ⟨8, 2⟩ 4,
    .addThread ⟨8, 2⟩ 5, .addThread ⟨8, 2⟩ 6,
    .addThread ⟨8, 2⟩ 7, .start ⟨8, 2⟩]

theorem dispatch_of_run_preemption :
    ∃ s : SPUGroupManager,
      s.ready = [⟨16, 1⟩] ∧
        physicalSpus <
          Greedy.load s.size
              (s.running.filter (· < (⟨16, 1⟩ : ThreadGroup))) +
            s.size ⟨16, 1⟩ :=
  ⟨_, rfl,
    (dispatch_of_run preemption _
      (.snoc
        (.snoc
          (.snoc
            (.snoc
              (.snoc
                (.snoc
                  (.snoc
                    (.snoc
                      (.snoc
                        (.snoc
                          (.snoc .nil (.create rfl))
                          (.addThread rfl))
                        (.start rfl))
                      (.create rfl))
                    (.addThread rfl))
                  (.addThread rfl))
                (.addThread rfl))
              (.addThread rfl))
            (.addThread rfl))
          (.addThread rfl))
        (.start rfl))).2.1 _ List.mem_cons_self⟩

end SPUGroupManager

end Ps3emu
