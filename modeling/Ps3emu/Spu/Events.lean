import Mathlib.Logic.Function.Basic
import Ps3emu.Library.Transition

/-
  The event facility of an SPU: the pending events, their
  mask, and the threads that wait for an enabled event.

  Key definitions include:
    * `SpuEvent`
    * `Facility`, `Facility.exec`
    * `Facility.Sound`

  Key theorems include:
    * `pending_kept`
    * `sound_iff`
-/

------------------------------------------------------------
-- Events
------------------------------------------------------------

namespace Ps3emu

structure SpuEvent where
  pending : BitVec 32 := 0
  mask : BitVec 32 := 0
  count : BitVec 32 := 0
deriving DecidableEq

namespace SpuEvent

/- The pending events that the mask lets through. -/
def enabled (e : SpuEvent) : BitVec 32 :=
  e.pending &&& e.mask

def updateCount (e : SpuEvent) : SpuEvent :=
  { e with
    count := if e.pending &&& e.mask ≠ 0 then 1 else 0 }

def setOr
    (flags : BitVec 32)
    (e : SpuEvent) : SpuEvent :=
  updateCount { e with pending := e.pending ||| flags }

/- The count is cleared whatever is still pending. -/
def acknowledge
    (mask : BitVec 32)
    (e : SpuEvent) : SpuEvent :=
  { e with
    pending := e.pending &&& ~~~mask
    count := 0 }

def setMask
    (mask : BitVec 32)
    (e : SpuEvent) : SpuEvent :=
  updateCount { e with mask := mask }

theorem enabled_acknowledge
    (mask : BitVec 32)
    (e : SpuEvent) :
    (e.acknowledge mask).enabled =
      e.enabled &&& ~~~mask := by
  unfold acknowledge enabled
  rw [BitVec.and_assoc, BitVec.and_comm (~~~mask),
    ← BitVec.and_assoc]

end SpuEvent

------------------------------------------------------------
-- Waiting Threads
------------------------------------------------------------

/-
  A thread in `wait` sleeps on the condition variable once
  it has seen a count of zero, until it is woken.
-/
inductive Reader where
  | running
  | asleep
deriving DecidableEq

structure Facility (T : Type) where
  event : SpuEvent := {}
  reader : T → Reader := fun _ => .running

/- The critical sections, and wakeups without a reason. -/
inductive EventOp (T : Type) where
  | setOr (flags : BitVec 32)
  | setMask (mask : BitVec 32)
  | acknowledge (mask : BitVec 32)
  | count
  | mask
  | wait (thread : T)
  | wakeup (thread : T)
deriving DecidableEq

namespace Facility

variable {T : Type}

/- `_cv.notify_all()`. -/
def notifyAll (s : Facility T) : Facility T :=
  { s with reader := fun _ => .running }

variable [DecidableEq T]

def setReader
    (thread : T)
    (state : Reader)
    (s : Facility T) : Facility T :=
  { s with reader := Function.update s.reader thread state }

/-
  One operation, and the value that it returns.  A `wait`
  checks the count once; it has no value if it blocks.
-/
def exec
    (s : Facility T) :
    EventOp T → Option (Facility T × Option (BitVec 32))
  | .setOr flags =>
      some
        (notifyAll { s with event := s.event.setOr flags },
          none)
  | .setMask mask =>
      some
        (notifyAll { s with event := s.event.setMask mask },
          none)
  | .acknowledge mask =>
      some
        ({ s with event := s.event.acknowledge mask }, none)
  | .count => some (s, some s.event.count)
  | .mask => some (s, some s.event.mask)
  | .wait thread =>
      if s.reader thread = .asleep then none
      else if s.event.count ≠ 0 then
        some (s, some (s.event.pending &&& s.event.mask))
      else some (s.setReader thread .asleep, none)
  | .wakeup thread =>
      some (s.setReader thread .running, none)

def Step
    (s : Facility T)
    (op : EventOp T)
    (t : Facility T) : Prop :=
  ∃ value, s.exec op = some (t, value)

/-
  The count is one exactly for an enabled event, and then no
  thread that reads the status blocks.
-/
structure Sound (s : Facility T) : Prop where
  count : s.event.count = 1 ↔ s.event.enabled ≠ 0
  reads : s.event.enabled ≠ 0 → ∀ thread,
    s.exec (.wait thread) = some (s, some s.event.enabled)

/- No other enabled event is pending. -/
def AcknowledgesAll
    (s : Facility T)
    (mask : BitVec 32) : Prop :=
  s.event.enabled &&& ~~~mask = 0

------------------------------------------------------------
-- Invariant
------------------------------------------------------------

/- The count follows the events, and sleepers have seen it. -/
structure Inv (s : Facility T) : Prop where
  count : s.event.count =
    if s.event.enabled ≠ 0 then 1 else 0
  asleep : s.event.enabled ≠ 0 → ∀ thread,
    s.reader thread = .running

omit [DecidableEq T] in
theorem inv_start : Inv ({} : Facility T) where
  count := (if_neg (not_not.mpr BitVec.and_self)).symm
  asleep _ _ := rfl

/- An update of the count wakes all threads. -/
omit [DecidableEq T] in
private theorem inv_updateCount
    (e : SpuEvent)
    (s : Facility T) :
    Inv (notifyAll { s with event := e.updateCount }) where
  count := rfl
  asleep _ _ := rfl

variable {s : Facility T}

theorem Inv.sound
    (hInv : Inv s) :
    Sound s where
  count := by
    rw [hInv.count]
    by_cases hZero : s.event.enabled = 0
    · simp [hZero]
    · rw [if_pos hZero]
      exact iff_of_true rfl hZero
  reads := by
    intro hNe thread
    have hCount : s.event.count ≠ 0 := by
      rw [hInv.count, if_pos hNe]
      decide
    have hReader : s.reader thread ≠ .asleep := by
      rw [hInv.asleep hNe thread]
      decide
    unfold exec
    dsimp only
    rw [if_neg hReader, if_pos hCount]
    rfl

/- A thread that changes its state sees no enabled event. -/
private theorem inv_setReader
    (hInv : Inv s)
    (thread : T)
    (state : Reader)
    (hAsleep : state = .asleep → s.event.count = 0) :
    Inv (s.setReader thread state) where
  count := hInv.count
  asleep := by
    intro hNe other
    have hCount : s.event.count = 1 :=
      hInv.count.trans (if_pos hNe)
    unfold setReader
    by_cases hSame : other = thread
    · subst hSame
      cases state with
      | running => exact Function.update_self _ _ _
      | asleep =>
          rw [hAsleep rfl] at hCount
          exact absurd hCount (by decide)
    · exact
        (Function.update_of_ne hSame _ _).trans
          (hInv.asleep hNe other)

theorem inv_step
    {s t : Facility T}
    {op : EventOp T}
    (hInv : Inv s)
    (hStep : Step s op t)
    (hAll : ∀ mask, op = .acknowledge mask →
      s.AcknowledgesAll mask) :
    Inv t := by
  rcases hStep with ⟨value, hExec⟩
  cases op with
  | setOr flags =>
      cases hExec
      exact inv_updateCount _ s
  | setMask mask =>
      cases hExec
      exact inv_updateCount _ s
  | acknowledge mask =>
      cases hExec
      have hNone :
          (s.event.acknowledge mask).enabled = 0 := by
        rw [SpuEvent.enabled_acknowledge]
        exact hAll mask rfl
      exact
        { count := by
            rw [if_neg (not_not.mpr hNone)]
            rfl
          asleep := fun hNe => absurd hNone hNe }
  | count =>
      cases hExec
      exact hInv
  | mask =>
      cases hExec
      exact hInv
  | wait thread =>
      unfold exec at hExec
      dsimp only at hExec
      split at hExec
      · cases hExec
      split at hExec
      · cases hExec
        exact hInv
      · rename_i hZero
        cases hExec
        exact inv_setReader hInv thread .asleep
          (fun _ => not_not.mp hZero)
  | wakeup thread =>
      cases hExec
      exact inv_setReader hInv thread .running nofun

------------------------------------------------------------
-- Runs
------------------------------------------------------------

open Transition

/- Every acknowledgement of a run clears all that is enabled. -/
def AllAcknowledged
    (ops : List (EventOp T)) : Prop :=
  ∀ before mask after s,
    ops = before ++ .acknowledge mask :: after →
      Run Step ({} : Facility T) before s →
        s.AcknowledgesAll mask

/- The event facility is sound in every state of a run. -/
def AlwaysSound
    (ops : List (EventOp T)) : Prop :=
  ∀ before after s,
    ops = before ++ after →
      Run Step ({} : Facility T) before s → Sound s

/- An event of a run stays until it is acknowledged. -/
def NeverLost
    (ops : List (EventOp T))
    (finish : Facility T) : Prop :=
  ∀ before flags after j,
    ops = before ++ .setOr flags :: after →
      flags.getLsbD j = true →
        (∀ mask, .acknowledge mask ∈ after →
          mask.getLsbD j = false) →
            finish.event.pending.getLsbD j = true

/- A pending event, under an operation that spares it. -/
theorem pending_step
    {s t : Facility T}
    {op : EventOp T}
    {j : Nat}
    (hStep : Step s op t)
    (hPending : s.event.pending.getLsbD j = true)
    (hSpared : ∀ mask, op = .acknowledge mask →
      mask.getLsbD j = false) :
    t.event.pending.getLsbD j = true := by
  rcases hStep with ⟨value, hExec⟩
  cases op with
  | setOr flags =>
      cases hExec
      have hOr :
          (s.event.pending ||| flags).getLsbD j = true := by
        rw [BitVec.getLsbD_or, hPending, Bool.true_or]
      exact hOr
  | acknowledge mask =>
      cases hExec
      have hAnd :
          (s.event.pending &&& ~~~mask).getLsbD j = true := by
        have hLt := BitVec.lt_of_getLsbD hPending
        rw [BitVec.getLsbD_and, BitVec.getLsbD_not, hPending,
          hSpared mask rfl, decide_eq_true hLt]
        rfl
      exact hAnd
  | wait thread =>
      unfold exec at hExec
      dsimp only at hExec
      split at hExec
      · cases hExec
      split at hExec
      · cases hExec
        exact hPending
      · cases hExec
        exact hPending
  | setMask mask | count | mask | wakeup thread =>
      cases hExec
      exact hPending

theorem neverLost_of_run
    {ops : List (EventOp T)}
    {finish : Facility T}
    (hRun : Run Step {} ops finish) :
    NeverLost ops finish := by
  induction hRun with
  | nil =>
      intro before flags after j hOps
      simp at hOps
  | @snoc events middle finish op hBefore hLast ih =>
      intro before flags after j hOps hFlag hSpared
      rcases snoc_eq_split hOps with
        ⟨-, hOp, -⟩ | ⟨front, rfl, hOld⟩
      · -- The last operation is the one that raises it.
        rw [← hOp] at hLast
        rcases hLast with ⟨value, hExec⟩
        cases hExec
        have hOr :
            (middle.event.pending ||| flags).getLsbD j =
              true := by
          rw [BitVec.getLsbD_or, hFlag, Bool.or_true]
        exact hOr
      · refine pending_step hLast ?_ ?_
        · refine ih before flags front j hOld hFlag ?_
          intro mask hMem
          apply hSpared
          simp [hMem]
        · rintro mask rfl
          apply hSpared
          simp

theorem inv_of_run
    {ops : List (EventOp T)}
    (hAll : AllAcknowledged ops)
    {before after : List (EventOp T)}
    (hOps : ops = before ++ after)
    (hRun : Run Step {} before s) :
    Inv s := by
  induction hRun generalizing after with
  | nil => exact inv_start
  | @snoc events middle finish op hBefore hLast ih =>
      rw [List.append_assoc] at hOps
      refine inv_step (ih hOps) hLast ?_
      rintro mask rfl
      exact hAll _ _ _ _ hOps hBefore

/-
  Events are never lost; the count follows them exactly if
  every acknowledgement clears all that is enabled.
-/
theorem sound_iff
    (ops : List (EventOp T))
    (finish : Facility T)
    (hRun : Run Step {} ops finish) :
    NeverLost ops finish ∧
      (AlwaysSound ops ↔ AllAcknowledged ops) := by
  refine ⟨neverLost_of_run hRun, ?_, ?_⟩
  · intro hSound before mask after s hOps hBefore
    -- The state that the acknowledgement leaves is sound.
    have hNext :=
      hSound (before ++ [.acknowledge mask]) after
        { s with event := s.event.acknowledge mask }
        (by simpa using hOps)
        (.snoc hBefore ⟨none, rfl⟩)
    by_contra hSome
    have hCount := hNext.count.mpr (by
      rw [SpuEvent.enabled_acknowledge]
      exact hSome)
    have hZero : (0 : BitVec 32) = 1 := hCount
    exact absurd hZero (by decide)
  · intro hAll before after s hOps hBefore
    exact (inv_of_run hAll hOps hBefore).sound

/- One event that is raised and read. -/
theorem sound_iff_one_event :
    NeverLost (T := Unit)
        [.setMask 1, .setOr 1, .wait ()]
        { event := { pending := 1, mask := 1, count := 1 } } ∧
      (AlwaysSound (T := Unit)
          [.setMask 1, .setOr 1, .wait ()] ↔
        AllAcknowledged (T := Unit)
          [.setMask 1, .setOr 1, .wait ()]) :=
  sound_iff _ _
    (.snoc (.snoc (.snoc .nil ⟨_, rfl⟩) ⟨_, rfl⟩) ⟨_, rfl⟩)

/-
  Two events are pending and one is acknowledged: the other
  is enabled, but the count says that there is none.
-/
theorem acknowledge_not_sound :
    ¬ ∀ (ops : List (EventOp Unit))
        (finish : Facility Unit),
        Run Step {} ops finish → Sound finish := by
  intro hAll
  have hSound :=
    hAll [.setMask 3, .setOr 3, .acknowledge 1]
      { event := { pending := 2, mask := 3, count := 0 } }
      (.snoc (.snoc (.snoc .nil ⟨_, rfl⟩) ⟨_, rfl⟩)
        ⟨_, rfl⟩)
  have hCount := hSound.count
  revert hCount
  decide

end Facility

end Ps3emu
