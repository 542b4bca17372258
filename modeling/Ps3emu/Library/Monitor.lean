import Mathlib.Logic.Function.Basic
import Ps3emu.Library.Transition

/-
  Monitors: a state under one lock, operations that wait on
  one condition variable until a predicate holds, and
  notifications of all threads that wait.

  Key definitions include:
    * `Monitor`
    * `Monitor.exec`, `Monitor.Step`
    * `Monitor.Effect`
    * `Monitor.Keeps`, `Monitor.Notifying`

  Key theorems include:
    * `Monitor.effect_of_step`
    * `Monitor.Keeps.run`
    * `Monitor.Notifying.run`
-/

------------------------------------------------------------
-- Monitors
------------------------------------------------------------

namespace Ps3emu

/-
  The operations `O` of threads `T` on a state `S`.  An
  operation first enters, waits while it cannot act, and then
  acts and returns a value; it may notify all threads that
  wait.
-/
structure Monitor (T S O V : Type) where
  enter : T → O → S → S
  act : T → O → S → Option (S × V)
  notifies : O → V → Bool

namespace Monitor

variable {T S O V : Type}

inductive Phase (O : Type) where
  | outside
  | blocked (op : O) (notified : Bool)
deriving DecidableEq

def Phase.notify : Phase O → Phase O
  | .outside => .outside
  | .blocked op _ => .blocked op true

structure State (T S O : Type) where
  shared : S
  phase : T → Phase O

def start (shared : S) : State T S O where
  shared := shared
  phase _ := .outside

/- A thread calls an operation, or wakes up inside it. -/
inductive Move where
  | call
  | wakeup
deriving DecidableEq

/- A section of a thread, with the value that it returns. -/
structure Event (T O V : Type) where
  thread : T
  op : O
  move : Move
  value : Option V
deriving DecidableEq

variable [DecidableEq T]

/- A thread with the lock acts if it can, and sleeps if not. -/
def attempt
    (m : Monitor T S O V)
    (s : State T S O)
    (thread : T)
    (op : O) : State T S O × Option V :=
  match m.act thread op s.shared with
  | some (shared, value) =>
      let phase :=
        if m.notifies op value then
          fun other => (s.phase other).notify
        else s.phase
      ({ shared
         phase := Function.update phase thread .outside },
        some value)
  | none =>
      ({ s with
        phase :=
          Function.update s.phase thread (.blocked op false) },
        none)

variable [DecidableEq O]

/- A thread wakes up when notified, or without a reason. -/
def exec
    (m : Monitor T S O V)
    (s : State T S O)
    (thread : T)
    (op : O)
    (move : Move) : Option (State T S O × Option V) :=
  match move, s.phase thread with
  | .call, .outside =>
      some
        (m.attempt
          { s with shared := m.enter thread op s.shared }
          thread op)
  | .wakeup, .blocked op' _ =>
      if op' = op then some (m.attempt s thread op) else none
  | _, _ => none

def Step
    (m : Monitor T S O V)
    (s : State T S O)
    (e : Event T O V)
    (t : State T S O) : Prop :=
  m.exec s e.thread e.op e.move = some (t, e.value)

theorem step_unique
    (m : Monitor T S O V)
    (s : State T S O)
    (e : Event T O V)
    (t u : State T S O)
    (hFirst : m.Step s e t)
    (hSecond : m.Step s e u) :
    t = u := by
  unfold Step at hFirst hSecond
  rw [hFirst] at hSecond
  cases hSecond
  rfl

------------------------------------------------------------
-- Effects and Invariants
------------------------------------------------------------

/- The state in which a thread tries to act. -/
inductive Begins
    (m : Monitor T S O V)
    (s : State T S O)
    (e : Event T O V) : S → Prop where
  | call :
      e.move = .call →
      s.phase e.thread = .outside →
      Begins m s e (m.enter e.thread e.op s.shared)
  | wakeup {notified : Bool} :
      e.move = .wakeup →
      s.phase e.thread = .blocked e.op notified →
      Begins m s e s.shared

/- What a step does: its thread acts, or it sleeps. -/
inductive Effect
    (m : Monitor T S O V)
    (s : State T S O)
    (e : Event T O V)
    (t : State T S O) : Prop where
  | acts {shared : S} {value : V} :
      Begins m s e shared →
      m.act e.thread e.op shared = some (t.shared, value) →
      e.value = some value →
      t.phase e.thread = .outside →
      (∀ other, other ≠ e.thread →
        t.phase other =
          if m.notifies e.op value then
            (s.phase other).notify
          else s.phase other) →
      Effect m s e t
  | sleeps :
      Begins m s e t.shared →
      m.act e.thread e.op t.shared = none →
      e.value = none →
      t.phase e.thread = .blocked e.op false →
      (∀ other, other ≠ e.thread →
        t.phase other = s.phase other) →
      Effect m s e t

variable {m : Monitor T S O V} {e : Event T O V} {shared : S}

omit [DecidableEq O] in
theorem effect_of_attempt
    {s t : State T S O}
    (hBegins : Begins m s e shared)
    (hAttempt :
      m.attempt { s with shared := shared } e.thread e.op =
        (t, e.value)) :
    Effect m s e t := by
  unfold attempt at hAttempt
  split at hAttempt
  case h_1 after value hAct =>
    rcases Prod.mk.inj hAttempt with ⟨rfl, hValue⟩
    refine
      .acts hBegins hAct hValue.symm
        (Function.update_self _ _ _) ?_
    intro other hOther
    dsimp only
    rw [Function.update_of_ne hOther]
    split
    case isTrue => rfl
    case isFalse => rfl
  case h_2 hAct =>
    rcases Prod.mk.inj hAttempt with ⟨rfl, hValue⟩
    exact
      .sleeps hBegins hAct hValue.symm
        (Function.update_self _ _ _)
        (fun other hOther => Function.update_of_ne hOther _ _)

theorem effect_of_step
    {s t : State T S O}
    (hStep : m.Step s e t) :
    Effect m s e t := by
  unfold Step exec at hStep
  split at hStep
  case h_1 hMove hPhase =>
    exact
      effect_of_attempt (.call hMove hPhase)
        (Option.some.inj hStep)
  case h_2 op notified hMove hPhase =>
    split at hStep
    case isTrue hOp =>
      rw [hOp] at hPhase
      exact
        effect_of_attempt (.wakeup hMove hPhase)
          (Option.some.inj hStep)
    case isFalse => cases hStep
  case h_3 => cases hStep

/- A property that is kept when threads enter and act. -/
structure Keeps
    (m : Monitor T S O V)
    (J : S → Prop) : Prop where
  enter : ∀ thread op s, J s → J (m.enter thread op s)
  act :
    ∀ thread op s t value, J s →
      m.act thread op s = some (t, value) → J t

variable {J : S → Prop}

omit [DecidableEq T] [DecidableEq O] in
theorem Keeps.begins
    (hKeeps : m.Keeps J)
    {s : State T S O}
    (hJ : J s.shared)
    (hBegins : Begins m s e shared) :
    J shared := by
  cases hBegins with
  | call => exact hKeeps.enter _ _ _ hJ
  | wakeup => exact hJ

theorem Keeps.step
    (hKeeps : m.Keeps J)
    {s t : State T S O}
    (hJ : J s.shared)
    (hStep : m.Step s e t) :
    J t.shared := by
  cases effect_of_step hStep with
  | acts hBegins hAct =>
      exact
        hKeeps.act _ _ _ _ _ (hKeeps.begins hJ hBegins) hAct
  | sleeps hBegins => exact hKeeps.begins hJ hBegins

theorem Keeps.run
    (hKeeps : m.Keeps J)
    {s t : State T S O}
    {events : List (Event T O V)}
    (hJ : J s.shared)
    (hRun : Transition.Run m.Step s events t) :
    J t.shared :=
  hRun.invariant (fun s => J s.shared)
    (fun _ _ _ hJ hStep => hKeeps.step hJ hStep) hJ

------------------------------------------------------------
-- Notifications
------------------------------------------------------------

/-
  Whatever enables another thread notifies it, in states with
  the property `J`.
-/
structure Notifying
    (m : Monitor T S O V)
    (J : S → Prop) : Prop where
  enter :
    ∀ thread op other op' s, J s → other ≠ thread →
      m.act other op' s = none →
        m.act other op' (m.enter thread op s) = none
  act :
    ∀ thread op other op' s t value, J s → other ≠ thread →
      m.act thread op s = some (t, value) →
        m.notifies op value = false →
          m.act other op' s = none →
            m.act other op' t = none

/- No thread sleeps while it could act. -/
def Awake
    (m : Monitor T S O V)
    (s : State T S O) : Prop :=
  ∀ thread op,
    s.phase thread = .blocked op false →
      m.act thread op s.shared = none

omit [DecidableEq T] [DecidableEq O] in
theorem Notifying.begins
    (hNotifying : m.Notifying J)
    {s : State T S O}
    (hJ : J s.shared)
    (hAwake : m.Awake s)
    (hBegins : Begins m s e shared)
    {other : T}
    (hOther : other ≠ e.thread)
    {op : O}
    (hPhase : s.phase other = .blocked op false) :
    m.act other op shared = none := by
  cases hBegins with
  | call =>
      exact
        hNotifying.enter _ _ _ _ _ hJ hOther
          (hAwake other op hPhase)
  | wakeup => exact hAwake other op hPhase

theorem Notifying.step
    (hNotifying : m.Notifying J)
    (hKeeps : m.Keeps J)
    {s t : State T S O}
    (hJ : J s.shared)
    (hAwake : m.Awake s)
    (hStep : m.Step s e t) :
    m.Awake t := by
  intro other op hPhase
  cases effect_of_step hStep with
  | @acts shared value hBegins hAct hValue hOutside hRest =>
      by_cases hOther : other = e.thread
      · rw [hOther, hOutside] at hPhase
        cases hPhase
      · rw [hRest other hOther] at hPhase
        split at hPhase
        case isTrue =>
          cases hOld : s.phase other with
          | outside =>
              rw [hOld] at hPhase
              cases hPhase
          | blocked op' notified =>
              rw [hOld] at hPhase
              cases hPhase
        case isFalse hQuiet =>
          exact
            hNotifying.act _ _ _ _ _ _ _
              (hKeeps.begins hJ hBegins) hOther hAct
              (Bool.eq_false_iff.mpr hQuiet)
              (hNotifying.begins hJ hAwake hBegins hOther
                hPhase)
  | sleeps hBegins hNone hValue hBlocked hRest =>
      by_cases hOther : other = e.thread
      · rw [hOther, hBlocked] at hPhase
        cases hPhase
        rw [hOther]
        exact hNone
      · rw [hRest other hOther] at hPhase
        exact
          hNotifying.begins hJ hAwake hBegins hOther hPhase

variable {t : State T S O}

/- No run of a notifying monitor loses a wake-up. -/
theorem Notifying.run
    (hNotifying : m.Notifying J)
    (hKeeps : m.Keeps J)
    (hJ : J shared)
    {events : List (Event T O V)}
    (hRun : Transition.Run m.Step (start shared) events t) :
    m.Awake t := by
  have hBoth :=
    hRun.invariant (fun s => J s.shared ∧ m.Awake s)
      (fun _ _ _ hOld hStep =>
        ⟨hKeeps.step hOld.1 hStep,
          hNotifying.step hKeeps hOld.1 hOld.2 hStep⟩)
      ⟨hJ, fun _ _ hPhase => by cases hPhase⟩
  exact hBoth.2

end Monitor

end Ps3emu
