import Mathlib.Data.List.Nodup
import Mathlib.Logic.Function.Basic
import Ps3emu.Library.Transition

/-
  A condition variable of `cond.cpp`: the list of waiting
  threads, the list of threads that a signal has selected,
  and the host condition variable on which they sleep.

  The mutex of the caller orders none of these steps: a
  signal may be sent without it.

  Key definitions include:
    * `Cond`, `Cond.exec`
    * `Ideal`, `Ideal.after`
    * `Cond.NoWakeUpLost`

  Key theorems include:
    * `Cond.inv_step`
    * `Cond.noWakeUpLost_iff`
-/

------------------------------------------------------------
-- Condition Variables
------------------------------------------------------------

namespace Ps3emu

/-
  Where a thread is in `sys_cond_wait`.  It is registered
  once it is in the list of waiters, and until it has taken
  the lock of the lists again.  A thread that sleeps may have
  been notified.
-/
inductive CondPhase where
  | outside
  | registered (timed : Bool)
  | asleep (timed notified : Bool)
deriving DecidableEq

/- The host condition variable wakes a sleeper. -/
def CondPhase.notify : CondPhase → CondPhase
  | .asleep timed _ => .asleep timed true
  | phase => phase

structure Cond (T : Type) where
  waiters : List T := []
  next : List T := []
  phase : T → CondPhase := fun _ => .outside

/- `CELL_OK`, `CELL_ETIMEDOUT` and `CELL_EPERM`. -/
inductive CondResult where
  | ok
  | timedOut
  | perm
deriving DecidableEq

/-
  The sections under the lock of the lists.  A thread that
  sleeps wakes up after a notification or without a reason;
  the time of a timed wait expires at any moment.
-/
inductive CondOp (T : Type) where
  | wait (thread : T) (timeout : Nat)
  | enter (thread : T)
  | wakeup (thread : T)
  | expire (thread : T)
  | signal
  | signalAll
  | signalTo (thread : T)
deriving DecidableEq

/- A section, and what is returned after it, if anything is. -/
structure CondEvent (T : Type) where
  op : CondOp T
  result : Option CondResult
deriving DecidableEq

namespace Cond

variable {T : Type} [DecidableEq T]

def setPhase
    (s : Cond T)
    (thread : T)
    (phase : CondPhase) : Cond T :=
  { s with phase := Function.update s.phase thread phase }

/- `info->cv.notify_all()`. -/
def notifyAll (s : Cond T) : Cond T :=
  { s with phase := fun thread => (s.phase thread).notify }

/-
  The lambda `check`: a thread that has been selected
  returns, another one goes to sleep.
-/
def check
    (s : Cond T)
    (thread : T)
    (timed : Bool) : Cond T × Option CondResult :=
  if thread ∈ s.next then
    (setPhase { s with next := s.next.erase thread } thread
      .outside, some .ok)
  else (s.setPhase thread (.asleep timed false), none)

/-
  A wait without a time-out checks before it sleeps; one with
  a time-out sleeps first, and returns when the time is over.
-/
def exec
    (s : Cond T) :
    CondOp T → Option (Cond T × Option CondResult)
  | .wait thread timeout =>
      match s.phase thread with
      | .outside =>
          some
            (setPhase
              { s with waiters := s.waiters ++ [thread] }
              thread (.registered (timeout != 0)), none)
      | _ => none
  | .enter thread =>
      match s.phase thread with
      | .registered false => some (s.check thread false)
      | .registered true =>
          some (s.setPhase thread (.asleep true false), none)
      | _ => none
  | .wakeup thread =>
      match s.phase thread with
      | .asleep timed _ => some (s.check thread timed)
      | _ => none
  | .expire thread =>
      match s.phase thread with
      | .asleep true _ =>
          some (s.setPhase thread .outside, some .timedOut)
      | _ => none
  | .signal =>
      match s.waiters with
      | [] => some (s, some .ok)
      | thread :: rest =>
          some
            (notifyAll
              { s with
                waiters := rest
                next := s.next ++ [thread] }, some .ok)
  | .signalAll =>
      some
        (notifyAll
          { s with
            waiters := []
            next := s.next ++ s.waiters }, some .ok)
  | .signalTo thread =>
      if thread ∈ s.waiters then
        some
          (notifyAll
            { s with
              waiters := s.waiters.erase thread
              next := s.next ++ [thread] }, some .ok)
      else some (s, some .perm)

def Step
    (s : Cond T)
    (e : CondEvent T)
    (t : Cond T) : Prop :=
  s.exec e.op = some (t, e.result)

end Cond

------------------------------------------------------------
-- Specification
------------------------------------------------------------

/-
  The threads that are blocked, in the order in which they
  began to wait, and those that a signal has woken and that
  have not returned yet.
-/
structure Ideal (T : Type) where
  blocked : List T := []
  selected : List T := []
deriving DecidableEq

namespace Ideal

variable {T : Type} [DecidableEq T]

/-
  A signal wakes the thread that has been blocked for
  longest, and a thread that has timed out is not blocked.
-/
def step (i : Ideal T) (e : CondEvent T) : Ideal T :=
  match e.op, e.result with
  | .wait thread _, _ =>
      { i with blocked := i.blocked ++ [thread] }
  | .enter thread, some .ok | .wakeup thread, some .ok =>
      { i with selected := i.selected.erase thread }
  | .expire thread, _ =>
      { i with blocked := i.blocked.erase thread }
  | .signal, _ =>
      { blocked := i.blocked.drop 1
        selected := i.selected ++ i.blocked.take 1 }
  | .signalAll, _ =>
      { blocked := []
        selected := i.selected ++ i.blocked }
  | .signalTo thread, _ =>
      if thread ∈ i.blocked then
        { blocked := i.blocked.erase thread
          selected := i.selected ++ [thread] }
      else i
  | _, _ => i

def after (events : List (CondEvent T)) : Ideal T :=
  events.foldl step {}

/-
  What a wait or a signal returns: a wait is successful if a
  signal has woken it, and times out if none has.
-/
def Answers (i : Ideal T) (e : CondEvent T) : Prop :=
  match e.op, e.result with
  | .enter thread, some r | .wakeup thread, some r =>
      r = .ok ∧ thread ∈ i.selected
  | .expire thread, r =>
      r = some .timedOut ∧ thread ∈ i.blocked
  | .signalTo thread, r =>
      r = some (if thread ∈ i.blocked then .ok else .perm)
  | _, _ => True

end Ideal

namespace Cond

variable {T : Type} [DecidableEq T]

/- A thread that is not asleep, and returns from its next step. -/
def Returns (s : Cond T) (thread : T) : Prop :=
  match s.phase thread with
  | .outside => False
  | .registered _ =>
      ∃ t, s.exec (.enter thread) = some (t, some .ok)
  | .asleep _ notified =>
      notified = true ∧
        ∃ t, s.exec (.wakeup thread) = some (t, some .ok)

/-
  The threads that are counted as waiting are those that are
  blocked, and every thread that has been woken returns.
-/
structure Sound (i : Ideal T) (s : Cond T) : Prop where
  waiters : s.waiters = i.blocked
  returns : ∀ thread ∈ i.selected, s.Returns thread

open Transition

/- In a run every answer is right, and every state sound. -/
def NoWakeUpLost (events : List (CondEvent T)) : Prop :=
  (∀ before after s,
    events = before ++ after →
      Run Step ({} : Cond T) before s →
        Sound (Ideal.after before) s) ∧
  ∀ before e after,
    events = before ++ e :: after →
      (Ideal.after before).Answers e

/- A waiter that has a time-out and does not sleep yet. -/
def Unsettled (s : Cond T) (thread : T) : Prop :=
  s.phase thread = .registered true

/- No time expires, and no signal selects too early. -/
def Settled (s : Cond T) : CondOp T → Prop
  | .expire _ => False
  | .signal =>
      ∀ thread, s.waiters.head? = some thread →
        ¬ s.Unsettled thread
  | .signalAll =>
      ∀ thread ∈ s.waiters, ¬ s.Unsettled thread
  | .signalTo thread =>
      thread ∈ s.waiters → ¬ s.Unsettled thread
  | _ => True

def AlwaysSettled (events : List (CondEvent T)) : Prop :=
  ∀ before e after s,
    events = before ++ e :: after →
      Run Step ({} : Cond T) before s → s.Settled e.op

------------------------------------------------------------
-- Invariant
------------------------------------------------------------

/-
  The lists are those of the specification.  A thread that
  waits is in one of them, once, and a thread that has been
  selected is on its way to the check.
-/
structure Inv (i : Ideal T) (s : Cond T) : Prop where
  waiters : s.waiters = i.blocked
  next : s.next = i.selected
  nodup : (s.waiters ++ s.next).Nodup
  inside : ∀ thread,
    thread ∈ s.waiters ++ s.next ↔ s.phase thread ≠ .outside
  awake : ∀ thread ∈ s.next,
    s.phase thread = .registered false ∨
      ∃ timed, s.phase thread = .asleep timed true

omit [DecidableEq T] in
theorem inv_start : Inv {} ({} : Cond T) where
  waiters := rfl
  next := rfl
  nodup := List.nodup_nil
  inside thread := by
    constructor
    · intro hMem
      cases hMem
    · intro hPhase
      exact absurd rfl hPhase
  awake thread hMem := by cases hMem

variable {s : Cond T} {thread : T}

theorem check_of_mem
    (hMem : thread ∈ s.next)
    (timed : Bool) :
    s.check thread timed =
      (setPhase { s with next := s.next.erase thread } thread
        .outside, some .ok) :=
  if_pos hMem

theorem check_of_not_mem
    (hMem : thread ∉ s.next)
    (timed : Bool) :
    s.check thread timed =
      (s.setPhase thread (.asleep timed false), none) :=
  if_neg hMem

variable {i : Ideal T}

theorem Inv.sound
    (hInv : Inv i s) :
    Sound i s where
  waiters := hInv.waiters
  returns := by
    intro thread hSelected
    rw [← hInv.next] at hSelected
    unfold Returns
    rcases hInv.awake thread hSelected with
      hPhase | ⟨timed, hPhase⟩
    · simp only [hPhase, exec]
      rw [check_of_mem hSelected]
      exact ⟨_, rfl⟩
    · simp only [hPhase, exec]
      rw [check_of_mem hSelected]
      exact ⟨trivial, _, rfl⟩

/- A thread that has not been selected stays inside. -/
theorem Inv.setPhase
    (hInv : Inv i s)
    {phase : CondPhase}
    (hNext : thread ∉ s.next)
    (hOld : s.phase thread ≠ .outside)
    (hNew : phase ≠ .outside) :
    Inv i (s.setPhase thread phase) where
  waiters := hInv.waiters
  next := hInv.next
  nodup := hInv.nodup
  inside other := by
    unfold Cond.setPhase
    dsimp only
    by_cases hSame : other = thread
    · rw [hSame, Function.update_self]
      exact iff_of_true ((hInv.inside thread).mpr hOld) hNew
    · rw [Function.update_of_ne hSame]
      exact hInv.inside other
  awake other hOther := by
    have hSame : other ≠ thread := by
      intro hSame
      rw [hSame] at hOther
      exact hNext hOther
    unfold Cond.setPhase
    dsimp only
    rw [Function.update_of_ne hSame]
    exact hInv.awake other hOther

/- A thread that leaves is taken out of one list. -/
theorem Inv.leave
    (hInv : Inv i s)
    (hNext : thread ∈ s.next) :
    Inv { i with selected := i.selected.erase thread }
      (Cond.setPhase { s with next := s.next.erase thread }
        thread .outside) := by
  have hNodup := List.nodup_append'.mp hInv.nodup
  rcases hNodup with ⟨hWaiters, hSelected, hApart⟩
  have hGone : thread ∉ s.next.erase thread :=
    hSelected.not_mem_erase
  refine
    { waiters := hInv.waiters
      next := congrArg (List.erase · thread) hInv.next
      nodup := ?_
      inside := ?_
      awake := ?_ }
  · apply List.Nodup.sublist _ hInv.nodup
    exact List.Sublist.append_left List.erase_sublist _
  · intro other
    unfold Cond.setPhase
    dsimp only
    by_cases hSame : other = thread
    · rw [hSame, Function.update_self, List.mem_append]
      refine iff_of_false ?_ (not_not.mpr rfl)
      rintro (hWaits | hMem)
      · exact hApart hWaits hNext
      · exact hGone hMem
    · rw [Function.update_of_ne hSame, List.mem_append,
        List.mem_erase_of_ne hSame, ← List.mem_append]
      exact hInv.inside other
  · intro other hOther
    have hSame : other ≠ thread := by
      intro hSame
      rw [hSame] at hOther
      exact hGone hOther
    unfold Cond.setPhase
    dsimp only
    rw [Function.update_of_ne hSame]
    exact hInv.awake other (List.mem_of_mem_erase hOther)

theorem notify_eq_outside (phase : CondPhase) :
    phase.notify = .outside ↔ phase = .outside := by
  cases phase with
  | outside | registered timed => exact Iff.rfl
  | asleep timed notified =>
      exact iff_of_false (by nofun) (by nofun)

/-
  A signal moves settled waiters, and wakes every sleeper.
-/
omit [DecidableEq T] in
theorem Inv.select
    (hInv : Inv i s)
    {woken rest : List T}
    (hPerm : (woken ++ rest).Perm s.waiters)
    (hSettled :
      ∀ thread ∈ woken, ¬ s.Unsettled thread) :
    Inv ⟨rest, i.selected ++ woken⟩
      (notifyAll
        { s with
          waiters := rest
          next := s.next ++ woken }) := by
  have hLists :
      (rest ++ (s.next ++ woken)).Perm
        (s.waiters ++ s.next) := by
    refine List.Perm.trans ?_ (hPerm.append_right s.next)
    rw [List.append_assoc]
    refine List.perm_append_comm.trans ?_
    rw [List.append_assoc]
    exact
      (List.perm_append_comm).trans
        (by rw [List.append_assoc])
  refine
    { waiters := rfl
      next := congrArg (· ++ woken) hInv.next
      nodup := hLists.nodup_iff.mpr hInv.nodup
      inside := ?_
      awake := ?_ }
  · intro thread
    unfold notifyAll
    dsimp only
    rw [hLists.mem_iff, hInv.inside, ne_eq, ne_eq,
      notify_eq_outside]
  · intro thread hMem
    unfold notifyAll
    dsimp only
    rcases List.mem_append.mp hMem with hOld | hNew
    · rcases hInv.awake thread hOld with
        hPhase | ⟨timed, hPhase⟩
      · rw [hPhase]
        exact .inl rfl
      · rw [hPhase]
        exact .inr ⟨timed, rfl⟩
    · have hWaits : thread ∈ s.waiters :=
        hPerm.mem_iff.mp (List.mem_append_left rest hNew)
      have hInside :=
        (hInv.inside thread).mp
          (List.mem_append_left s.next hWaits)
      have hNot := hSettled thread hNew
      unfold Unsettled at hNot
      cases hPhase : s.phase thread with
      | outside => exact absurd hPhase hInside
      | registered timed =>
          cases timed with
          | false => exact .inl rfl
          | true => exact absurd hPhase hNot
      | asleep timed notified => exact .inr ⟨timed, rfl⟩

/- A thread that checks returns if it has been selected. -/
theorem Inv.check
    {s t : Cond T}
    (hInv : Inv i s)
    {timed : Bool}
    {result : Option CondResult}
    (hOld : s.phase thread ≠ .outside)
    (hCheck : s.check thread timed = (t, result)) :
    (result = some .ok ∧ thread ∈ i.selected ∧
        Inv { i with selected := i.selected.erase thread } t) ∨
      (result = none ∧ Inv i t) := by
  by_cases hMem : thread ∈ s.next
  · rw [check_of_mem hMem] at hCheck
    cases hCheck
    refine .inl ⟨rfl, ?_, hInv.leave hMem⟩
    rw [← hInv.next]
    exact hMem
  · rw [check_of_not_mem hMem] at hCheck
    cases hCheck
    exact .inr ⟨rfl, hInv.setPhase hMem hOld (by nofun)⟩

/- A thread that begins to wait is the last of the waiters. -/
theorem Inv.register
    (hInv : Inv i s)
    {timed : Bool}
    (hOutside : s.phase thread = .outside) :
    Inv { i with blocked := i.blocked ++ [thread] }
      (Cond.setPhase
        { s with waiters := s.waiters ++ [thread] } thread
        (.registered timed)) := by
  have hNew : thread ∉ s.waiters ++ s.next := by
    rw [hInv.inside, not_not]
    exact hOutside
  have hLists :
      (s.waiters ++ [thread] ++ s.next).Perm
        (thread :: (s.waiters ++ s.next)) := by
    rw [List.append_assoc]
    exact List.perm_middle
  refine
    { waiters := congrArg (· ++ [thread]) hInv.waiters
      next := hInv.next
      nodup := ?_
      inside := ?_
      awake := ?_ }
  · exact
      hLists.nodup_iff.mpr
        (List.nodup_cons.mpr ⟨hNew, hInv.nodup⟩)
  · intro other
    unfold Cond.setPhase
    dsimp only
    rw [hLists.mem_iff, List.mem_cons]
    by_cases hSame : other = thread
    · rw [hSame, Function.update_self]
      exact iff_of_true (.inl rfl) (by nofun)
    · rw [Function.update_of_ne hSame, hInv.inside,
        or_iff_right hSame]
  · intro other hOther
    have hSame : other ≠ thread := by
      intro hSame
      rw [hSame] at hOther
      exact hNew (List.mem_append_right _ hOther)
    unfold Cond.setPhase
    dsimp only
    rw [Function.update_of_ne hSame]
    exact hInv.awake other hOther

/- One step, under the condition, does what is specified. -/
theorem Inv.step
    {s t : Cond T}
    {e : CondEvent T}
    (hInv : Inv i s)
    (hStep : Step s e t)
    (hSettled : s.Settled e.op) :
    i.Answers e ∧ Inv (i.step e) t := by
  rcases e with ⟨op, result⟩
  unfold Step exec at hStep
  cases op with
  | wait thread timeout =>
      dsimp only at hStep
      split at hStep
      case h_1 hPhase =>
        cases hStep
        exact ⟨trivial, hInv.register hPhase⟩
      case h_2 => cases hStep
  | enter thread =>
      dsimp only at hStep
      split at hStep
      case h_1 hPhase =>
        rcases hInv.check (by rw [hPhase]; nofun)
            (Option.some.inj hStep) with
          ⟨rfl, hMem, hNext⟩ | ⟨rfl, hNext⟩
        · exact ⟨⟨rfl, hMem⟩, hNext⟩
        · exact ⟨trivial, hNext⟩
      case h_2 hPhase =>
        cases hStep
        refine ⟨trivial, ?_⟩
        refine hInv.setPhase ?_ (by rw [hPhase]; nofun) (by nofun)
        intro hMem
        rcases hInv.awake thread hMem with
          hOther | ⟨timed, hOther⟩
        · rw [hPhase] at hOther
          cases hOther
        · rw [hPhase] at hOther
          cases hOther
      case h_3 => cases hStep
  | wakeup thread =>
      dsimp only at hStep
      split at hStep
      case h_1 timed notified hPhase =>
        rcases hInv.check (by rw [hPhase]; nofun)
            (Option.some.inj hStep) with
          ⟨rfl, hMem, hNext⟩ | ⟨rfl, hNext⟩
        · exact ⟨⟨rfl, hMem⟩, hNext⟩
        · exact ⟨trivial, hNext⟩
      case h_2 => cases hStep
  | expire thread => exact hSettled.elim
  | signal =>
      dsimp only at hStep
      split at hStep
      case h_1 hWaiters =>
        cases hStep
        refine ⟨trivial, ?_⟩
        have hBlocked : i.blocked = [] :=
          hInv.waiters.symm.trans hWaiters
        have hSame : i.step ⟨.signal, some .ok⟩ = i := by
          rcases i with ⟨blocked, selected⟩
          cases hBlocked
          simp [Ideal.step]
        rw [hSame]
        exact hInv
      case h_2 thread rest hWaiters =>
        cases hStep
        refine ⟨trivial, ?_⟩
        unfold Ideal.step
        dsimp only
        rw [← hInv.waiters, hWaiters]
        refine hInv.select (by rw [hWaiters]; rfl) ?_
        intro other hOther
        rw [List.mem_singleton.mp hOther]
        exact hSettled thread (by rw [hWaiters]; rfl)
  | signalAll =>
      cases hStep
      refine ⟨trivial, ?_⟩
      unfold Ideal.step
      dsimp only
      rw [← hInv.waiters]
      exact hInv.select (by rw [List.append_nil]) hSettled
  | signalTo thread =>
      dsimp only at hStep
      unfold Ideal.Answers Ideal.step
      dsimp only
      rw [← hInv.waiters]
      split at hStep
      case isTrue hMem =>
        cases hStep
        rw [if_pos hMem, if_pos hMem]
        refine ⟨rfl, ?_⟩
        refine
          hInv.select (List.perm_cons_erase hMem).symm ?_
        intro other hOther
        rw [List.mem_singleton.mp hOther]
        exact hSettled hMem
      case isFalse hMem =>
        cases hStep
        rw [if_neg hMem, if_neg hMem]
        exact ⟨rfl, hInv⟩

------------------------------------------------------------
-- Runs
------------------------------------------------------------

theorem after_snoc
    (events : List (CondEvent T))
    (e : CondEvent T) :
    Ideal.after (events ++ [e]) =
      (Ideal.after events).step e := by
  unfold Ideal.after
  rw [List.foldl_append]
  rfl

theorem step_unique
    (s : Cond T)
    (e : CondEvent T)
    (t u : Cond T)
    (hFirst : Step s e t)
    (hSecond : Step s e u) :
    t = u := by
  unfold Step at hFirst hSecond
  rw [hFirst] at hSecond
  cases hSecond
  rfl

theorem inv_of_run
    {events : List (CondEvent T)}
    (hSettled : AlwaysSettled events)
    {before rest : List (CondEvent T)}
    (hEvents : events = before ++ rest)
    (hRun : Run Step {} before s) :
    Inv (Ideal.after before) s := by
  induction hRun generalizing rest with
  | nil => exact inv_start
  | snoc hBefore hLast ih =>
      rw [List.append_assoc] at hEvents
      rw [after_snoc]
      exact
        ((ih hEvents).step hLast
          (hSettled _ _ _ _ hEvents hBefore)).2

/-
  A step that is not settled leaves a thread that has timed
  out among the waiters, or wakes one that goes to sleep.
-/
theorem settled_of_sound
    {s t : Cond T}
    {e : CondEvent T}
    (hSound : Sound i s)
    (hStep : Step s e t)
    (hAnswers : i.Answers e)
    (hNext : Sound (i.step e) t) :
    s.Settled e.op := by
  rcases e with ⟨op, result⟩
  have hWoken :
      ∀ thread ∈ (i.step ⟨op, result⟩).selected,
        t.phase thread = .registered true → False := by
    intro thread hMem hPhase
    have hReturns := hNext.returns thread hMem
    unfold Returns exec at hReturns
    simp only [hPhase] at hReturns
    rcases hReturns with ⟨u, hNone⟩
    cases hNone
  unfold Step exec at hStep
  cases op with
  | wait thread timeout | enter thread | wakeup thread =>
      exact trivial
  | expire thread =>
      dsimp only at hStep
      split at hStep
      case h_2 => cases hStep
      case h_1 hPhase =>
        cases hStep
        have hMem : thread ∈ i.blocked := hAnswers.2
        have hErase : s.waiters = i.blocked.erase thread :=
          hNext.waiters
        have hLength :=
          List.length_erase_add_one hMem
        rw [← hErase, hSound.waiters] at hLength
        omega
  | signal =>
      intro thread hHead hUnsettled
      dsimp only at hStep
      split at hStep
      case h_1 hWaiters =>
        rw [hWaiters] at hHead
        cases hHead
      case h_2 first rest hWaiters =>
        cases hStep
        rw [hWaiters] at hHead
        cases hHead
        refine hWoken thread ?_ ?_
        · unfold Ideal.step
          dsimp only
          rw [← hSound.waiters, hWaiters]
          exact
            List.mem_append_right _ List.mem_cons_self
        · unfold notifyAll
          dsimp only
          rw [hUnsettled]
          rfl
  | signalAll =>
      intro thread hMem hUnsettled
      cases hStep
      refine hWoken thread ?_ ?_
      · unfold Ideal.step
        dsimp only
        rw [← hSound.waiters]
        exact List.mem_append_right _ hMem
      · unfold notifyAll
        dsimp only
        rw [hUnsettled]
        rfl
  | signalTo thread =>
      intro hMem hUnsettled
      dsimp only at hStep
      rw [if_pos hMem] at hStep
      cases hStep
      refine hWoken thread ?_ ?_
      · unfold Ideal.step
        dsimp only
        rw [← hSound.waiters, if_pos hMem]
        exact List.mem_append_right _ List.mem_cons_self
      · unfold notifyAll
        dsimp only
        rw [hUnsettled]
        rfl

/-
  No wake-up is lost in a run exactly if no time expires in
  it, and no signal selects a timed waiter that is not asleep
  yet.
-/
theorem noWakeUpLost_iff
    (events : List (CondEvent T))
    (finish : Cond T)
    (hRun : Run Step {} events finish) :
    NoWakeUpLost events ↔ AlwaysSettled events := by
  constructor
  · rintro ⟨hSound, hAnswers⟩ before e rest s hEvents hBefore
    rw [hEvents] at hRun
    rcases hRun.step_of_mem with ⟨s', t, hBefore', hStep⟩
    cases hBefore.unique step_unique hBefore'
    have hNext :=
      hSound (before ++ [e]) rest t (by simp [hEvents])
        (.snoc hBefore hStep)
    rw [after_snoc] at hNext
    exact
      settled_of_sound (hSound before _ s hEvents hBefore) hStep
        (hAnswers before e rest hEvents) hNext
  · intro hSettled
    refine ⟨?_, ?_⟩
    · intro before rest s hEvents hBefore
      exact (inv_of_run hSettled hEvents hBefore).sound
    · intro before e rest hEvents
      rw [hEvents] at hRun
      rcases hRun.step_of_mem with ⟨s, t, hBefore, hStep⟩
      exact
        ((inv_of_run hSettled hEvents hBefore).step hStep
          (hSettled _ _ _ _ hEvents hBefore)).1

/- A thread waits, sleeps, is woken and returns. -/
theorem noWakeUpLost_iff_signal :
    NoWakeUpLost (T := Nat)
        [⟨.wait 1 0, none⟩, ⟨.enter 1, none⟩,
          ⟨.signal, some .ok⟩, ⟨.wakeup 1, some .ok⟩] ↔
      AlwaysSettled (T := Nat)
        [⟨.wait 1 0, none⟩, ⟨.enter 1, none⟩,
          ⟨.signal, some .ok⟩, ⟨.wakeup 1, some .ok⟩] :=
  noWakeUpLost_iff _ _
    (.snoc
      (.snoc
        (.snoc (.snoc .nil (by exact rfl)) (by exact rfl))
        (by exact rfl))
      (by exact rfl))

/-
  A thread times out, another one waits, and the signal that
  is sent then selects the first: the second sleeps on.
-/
def expiredWaiter : List (CondEvent Nat) :=
  [⟨.wait 1 10, none⟩, ⟨.enter 1, none⟩,
    ⟨.expire 1, some .timedOut⟩, ⟨.wait 2 0, none⟩,
    ⟨.enter 2, none⟩, ⟨.signal, some .ok⟩]

theorem expiredWaiter_loses :
    ¬ ∀ (events : List (CondEvent Nat))
        (finish : Cond Nat),
        Run Step {} events finish → NoWakeUpLost events := by
  intro hAll
  have hRun :
      ∃ s, Run Step {} expiredWaiter s ∧ s.waiters = [2] :=
    ⟨_,
      .snoc
        (.snoc
          (.snoc
            (.snoc
              (.snoc (.snoc .nil (by exact rfl)) (by exact rfl))
              (by exact rfl))
            (by exact rfl))
          (by exact rfl))
        (by exact rfl),
      rfl⟩
  rcases hRun with ⟨s, hRun, hWaiters⟩
  have hSound :=
    (hAll _ s hRun).1 _ [] s (List.append_nil _).symm hRun
  have hBlocked := hSound.waiters
  rw [hWaiters] at hBlocked
  revert hBlocked
  decide

end Cond

end Ps3emu
