import Ps3emu.Library.Transition
import Ps3emu.Spu.Channels
import Ps3emu.Spu.Loop

/-
  Requests to suspend an SPU thread, the guards that disable
  its suspension, and the calls that open them.

  Key definitions include:
    * `Suspension`
    * `Suspension.Step`
    * `Suspension.Guarded`, `Suspension.Orderly`
    * `GuardAction.flat`
    * `Guards.handler`

  Key theorems include:
    * `Suspension.guarded_iff`
    * `Suspension.guarded_iff_flat`
    * `GuardAction.flat_scope`, `GuardAction.flat_flatten_iff`
    * `Guards.flat_handler_iff`, `Guards.guarded_iff_calls`
-/

------------------------------------------------------------
-- Suspension
------------------------------------------------------------

namespace Ps3emu

/- The thread's own host thread, or another one. -/
inductive HostThread where
  | spu
  | other (id : Nat)
deriving DecidableEq

theorem HostThread.spu_ne_other
    (id : Nat) :
    HostThread.spu ≠ .other id := by
  intro hEq
  cases hEq

/- Where a host thread is in `waitSuspended`. -/
inductive WaitPhase where
  | outside
  | entered
  | enabled
  | parked
deriving DecidableEq

/-
  `waitSuspended` first reads `_suspendEnabled`, then
  `_suspended`, and in its loop `_suspended` again.
-/
def WaitPhase.next
    (suspendEnabled suspended : Bool) : WaitPhase → WaitPhase
  | .outside => .outside
  | .entered => if suspendEnabled then .enabled else .outside
  | .enabled => if suspended then .parked else .outside
  | .parked => if suspended then .parked else .outside

namespace WaitPhase

/- The flag is tested on entry only. -/
theorem of_next_enabled
    {suspendEnabled suspended : Bool}
    {phase : WaitPhase}
    (hNext :
      phase.next suspendEnabled suspended = .enabled) :
    phase = .entered ∧ suspendEnabled = true := by
  cases phase with
  | outside => cases hNext
  | entered =>
      cases suspendEnabled with
      | true => exact ⟨rfl, rfl⟩
      | false => cases hNext
  | enabled =>
      cases suspended with
      | true => cases hNext
      | false => cases hNext
  | parked =>
      cases suspended with
      | true => cases hNext
      | false => cases hNext

theorem of_next_parked
    {suspendEnabled suspended : Bool}
    {phase : WaitPhase}
    (hNext :
      phase.next suspendEnabled suspended = .parked) :
    (phase = .enabled ∨ phase = .parked) ∧
      suspended = true := by
  cases phase with
  | outside => cases hNext
  | entered =>
      cases suspendEnabled with
      | true => cases hNext
      | false => cases hNext
  | enabled =>
      cases suspended with
      | true => exact ⟨.inl rfl, rfl⟩
      | false => cases hNext
  | parked =>
      cases suspended with
      | true => exact ⟨.inr rfl, rfl⟩
      | false => cases hNext

end WaitPhase

/-
  The suspension of one SPU thread.  `guards` lists the live
  guards that each host thread has constructed for it, the
  innermost first, by whether they detach.
-/
structure Suspension where
  suspendEnabled : Bool := true
  suspended : Bool := false
  guards : HostThread → List Bool := fun _ => []
  phase : HostThread → WaitPhase := fun _ => .outside

namespace Suspension

open Transition

/- A call of `run` also sets `_suspended`. -/
inductive Event where
  | run (suspended : Bool)
  | suspend
  | resume
  | construct (h : HostThread) (detach : Bool)
  | destroy (h : HostThread)
  | waitSuspended
  | read (h : HostThread)
deriving DecidableEq

def suspend (s : Suspension) : Suspension :=
  if s.suspended then s else { s with suspended := true }

def resume (s : Suspension) : Suspension :=
  { s with suspended := false }

def disableSuspend (s : Suspension) : Suspension :=
  { s with suspendEnabled := false }

def enableSuspend (s : Suspension) : Suspension :=
  { s with suspendEnabled := true }

def goto
    (s : Suspension)
    (h : HostThread)
    (phase : WaitPhase) : Suspension :=
  { s with phase := Function.update s.phase h phase }

def withGuards
    (s : Suspension)
    (h : HostThread)
    (guards : List Bool) : Suspension :=
  { s with guards := Function.update s.guards h guards }

/- The constructor of `DisableSuspend`. -/
def construct
    (s : Suspension)
    (h : HostThread)
    (detach : Bool) : Suspension :=
  (s.withGuards h (detach :: s.guards h)).disableSuspend

/- Its destructor, up to the reads of `waitSuspended`. -/
def destroy
    (s : Suspension)
    (h : HostThread)
    (detach : Bool)
    (outer : List Bool) : Suspension :=
  if detach then s.withGuards h outer
  else ((s.withGuards h outer).enableSuspend).goto h .entered

theorem guards_construct
    (s : Suspension)
    (h : HostThread)
    (detach : Bool) :
    (s.construct h detach).guards =
      Function.update s.guards h (detach :: s.guards h) :=
  rfl

theorem guards_destroy
    (s : Suspension)
    (h : HostThread)
    (detach : Bool)
    (outer : List Bool) :
    (s.destroy h detach outer).guards =
      Function.update s.guards h outer := by
  unfold destroy
  split
  case isTrue => rfl
  case isFalse => rfl

inductive Step
    (s : Suspension) : Event → Suspension → Prop where
  | run {suspended : Bool} :
      Step s (.run suspended) { s with suspended }
  | suspend : Step s .suspend s.suspend
  | resume : Step s .resume s.resume
  | construct {h : HostThread} {detach : Bool} :
      s.phase h = .outside →
      Step s (.construct h detach) (s.construct h detach)
  | destroy
      {h : HostThread}
      {detach : Bool}
      {outer : List Bool} :
      s.phase h = .outside →
      s.guards h = detach :: outer →
      Step s (.destroy h) (s.destroy h detach outer)
  | waitSuspended :
      s.phase .spu = .outside →
      Step s .waitSuspended (s.goto .spu .entered)
  | read {h : HostThread} :
      s.phase h ≠ .outside →
      Step s (.read h)
        (s.goto h
          ((s.phase h).next s.suspendEnabled s.suspended))

theorem step_unique
    (s : Suspension)
    (e : Event)
    (t u : Suspension)
    (hStep : Step s e t)
    (hOther : Step s e u) :
    t = u := by
  cases hStep with
  | run => cases hOther; rfl
  | suspend => cases hOther; rfl
  | resume => cases hOther; rfl
  | construct _ => cases hOther; rfl
  | waitSuspended _ => cases hOther; rfl
  | read _ => cases hOther; rfl
  | destroy _ hGuards =>
      cases hOther with
      | destroy _ hOther =>
          rw [hGuards] at hOther
          cases hOther
          rfl

------------------------------------------------------------
-- Properties and Steps
------------------------------------------------------------

/- Some guard of the thread is live. -/
def Live (s : Suspension) : Prop :=
  ∃ h, s.guards h ≠ []

/-
  While a guard is live, the thread is not parked, and its
  suspension stays disabled.
-/
structure Guarded (events : List Event) : Prop where
  running :
    ∀ before after t,
      events = before ++ after →
        Run Step {} before t →
          t.Live → t.phase .spu ≠ .parked
  disabled :
    ∀ before after t,
      events = before ++ after →
        Run Step {} before t →
          t.Live → t.suspendEnabled = false

/-
  A guard that does not detach is destroyed when no other is
  live; other threads construct none while the thread is
  parked, and have none when it reads, after its test of the
  flag, that it is suspended.
-/
def Undisturbed (s : Suspension) : Event → Prop
  | .construct (.other _) _ => s.phase .spu ≠ .parked
  | .destroy h =>
      ∀ outer, s.guards h = false :: outer →
        outer = [] ∧ ∀ k, k ≠ h → s.guards k = []
  | .read .spu =>
      s.phase .spu = .enabled → s.suspended = true →
        ∀ id, s.guards (.other id) = []
  | _ => True

/- Each step of a run is undisturbed. -/
def Orderly (events : List Event) : Prop :=
  ∀ before e after s,
    events = before ++ e :: after →
      Run Step {} before s → Undisturbed s e

variable {h : HostThread} {detach : Bool} {s : Suspension}

theorem live_of_cons
    {outer : List Bool}
    (hGuards : s.guards h = detach :: outer) :
    s.Live :=
  ⟨h, by rw [hGuards]; exact List.cons_ne_nil _ _⟩

theorem live_construct
    (s : Suspension)
    (h : HostThread)
    (detach : Bool) :
    (s.construct h detach).Live :=
  live_of_cons (Function.update_self _ _ _)

theorem not_live_iff
    (s : Suspension) :
    ¬ s.Live ↔ ∀ h, s.guards h = [] := by
  unfold Live
  push Not
  rfl

/- The last guard of the thread is destroyed. -/
theorem not_live_withGuards
    (hAlone : ∀ k, k ≠ h → s.guards k = []) :
    ¬ (s.withGuards h []).Live := by
  rw [not_live_iff]
  intro k
  unfold withGuards
  dsimp only
  by_cases hSame : k = h
  · rw [hSame]
    exact Function.update_self _ _ _
  · rw [Function.update_of_ne hSame]
    exact hAlone k hSame

/-
  While a guard is live the flag is clear; the thread passes
  its test of the flag only outside its own guards, and parks
  only when no guard is live.
-/
structure Inv (s : Suspension) : Prop where
  disabled : s.Live → s.suspendEnabled = false
  own : s.phase .spu = .enabled → s.guards .spu = []
  parked : s.phase .spu = .parked → ¬ s.Live

theorem inv_construct
    (hInv : s.Inv)
    (hOutside : s.phase h = .outside)
    (hQuiet : Undisturbed s (.construct h detach)) :
    (s.construct h detach).Inv := by
  refine ⟨fun _ => rfl, ?_, ?_⟩
  · intro hEnabled
    change s.phase .spu = .enabled at hEnabled
    have hOther : HostThread.spu ≠ h := by
      rintro rfl
      rw [hOutside] at hEnabled
      cases hEnabled
    exact
      (Function.update_of_ne hOther _ _).trans
        (hInv.own hEnabled)
  · intro hParked
    change s.phase .spu = .parked at hParked
    cases h with
    | spu =>
        rw [hOutside] at hParked
        cases hParked
    | other id => exact absurd hParked hQuiet

theorem inv_destroy
    {outer : List Bool}
    (hInv : s.Inv)
    (hOutside : s.phase h = .outside)
    (hGuards : s.guards h = detach :: outer)
    (hQuiet : Undisturbed s (.destroy h)) :
    (s.destroy h detach outer).Inv := by
  have hLive := live_of_cons hGuards
  cases detach with
  | true =>
      unfold destroy
      rw [if_pos rfl]
      refine ⟨fun _ => hInv.disabled hLive, ?_, ?_⟩
      · intro hEnabled
        change s.phase .spu = .enabled at hEnabled
        have hOther : HostThread.spu ≠ h := by
          rintro rfl
          rw [hOutside] at hEnabled
          cases hEnabled
        exact
          (Function.update_of_ne hOther _ _).trans
            (hInv.own hEnabled)
      · intro hParked
        exact absurd hLive (hInv.parked hParked)
  | false =>
      rcases hQuiet outer hGuards with ⟨rfl, hAlone⟩
      have hNone : ¬ (s.destroy h false []).Live :=
        not_live_withGuards hAlone
      refine
        ⟨fun hStill => absurd hStill hNone, ?_, fun _ => hNone⟩
      intro _
      exact (not_live_iff _).mp hNone .spu

theorem inv_read
    (hInv : s.Inv)
    (hQuiet : Undisturbed s (.read h)) :
    (s.goto h
      ((s.phase h).next s.suspendEnabled s.suspended)).Inv := by
  refine ⟨hInv.disabled, ?_, ?_⟩
  · intro hEnabled
    unfold goto at hEnabled ⊢
    dsimp only at hEnabled ⊢
    cases h with
    | other id =>
        rw [Function.update_of_ne (HostThread.spu_ne_other id)]
          at hEnabled
        exact hInv.own hEnabled
    | spu =>
        rw [Function.update_self] at hEnabled
        have hFlag := (WaitPhase.of_next_enabled hEnabled).2
        have hNone : ¬ s.Live := by
          intro hLive
          rw [hInv.disabled hLive] at hFlag
          cases hFlag
        exact (not_live_iff _).mp hNone .spu
  · intro hParked
    unfold goto at hParked
    dsimp only at hParked
    cases h with
    | other id =>
        rw [Function.update_of_ne (HostThread.spu_ne_other id)]
          at hParked
        exact hInv.parked hParked
    | spu =>
        rw [Function.update_self] at hParked
        rcases WaitPhase.of_next_parked hParked with
          ⟨hPhase | hPhase, hSuspended⟩
        -- Its own guards are gone, and those of others.
        · have hOthers := hQuiet hPhase hSuspended
          refine (not_live_iff _).mpr ?_
          intro k
          cases k with
          | spu => exact hInv.own hPhase
          | other id => exact hOthers id
        · exact hInv.parked hPhase

variable {e : Event}

theorem inv_of_step
    {s t : Suspension}
    (hInv : s.Inv)
    (hQuiet : Undisturbed s e)
    (hStep : Step s e t) :
    t.Inv := by
  cases hStep with
  | run => exact ⟨hInv.disabled, hInv.own, hInv.parked⟩
  | suspend =>
      unfold suspend
      split
      case isTrue => exact hInv
      case isFalse =>
        exact ⟨hInv.disabled, hInv.own, hInv.parked⟩
  | resume => exact ⟨hInv.disabled, hInv.own, hInv.parked⟩
  | construct hOutside => exact inv_construct hInv hOutside hQuiet
  | destroy hOutside hGuards =>
      exact inv_destroy hInv hOutside hGuards hQuiet
  | waitSuspended _ =>
      refine ⟨hInv.disabled, ?_, ?_⟩
      · intro hEnabled
        unfold goto at hEnabled
        dsimp only at hEnabled
        rw [Function.update_self] at hEnabled
        cases hEnabled
      · intro hParked
        unfold goto at hParked
        dsimp only at hParked
        rw [Function.update_self] at hParked
        cases hParked
  | read _ => exact inv_read hInv hQuiet

------------------------------------------------------------
-- Runs
------------------------------------------------------------

theorem orderly_of_append
    {before after : List Event}
    (hOrderly : Orderly (before ++ after)) :
    Orderly before := by
  intro first e rest s hEvents
  refine hOrderly first e (rest ++ after) s ?_
  rw [hEvents, List.append_assoc, List.cons_append]

/- The last event of a run meets the state it ends in. -/
theorem orderly_snoc_iff
    {events : List Event}
    (hRun : Run Step {} events s) :
    Orderly (events ++ [e]) ↔
      Orderly events ∧ Undisturbed s e := by
  constructor
  · intro hOrderly
    exact
      ⟨orderly_of_append hOrderly,
        hOrderly events e [] s rfl hRun⟩
  · rintro ⟨hOrderly, hLast⟩ before d after u hEvents hBefore
    rcases snoc_eq_split hEvents with
      ⟨rfl, rfl, -⟩ | ⟨rest, -, hOld⟩
    · cases hBefore.unique step_unique hRun
      exact hLast
    · exact hOrderly before d rest u hOld hBefore

variable {t : Suspension}

theorem inv_of_run
    {events : List Event}
    (hRun : Run Step {} events t)
    (hOrderly : Orderly events) :
    t.Inv := by
  induction hRun with
  | nil =>
      exact
        ⟨fun hLive => absurd rfl hLive.choose_spec,
          fun _ => rfl, fun hParked => by cases hParked⟩
  | snoc hBefore hLast ih =>
      have hBoth := (orderly_snoc_iff hBefore).mp hOrderly
      exact inv_of_step (ih hBoth.1) hBoth.2 hLast

/- A disturbed step parks the thread or enables suspension. -/
theorem undisturbed_of_guarded
    {s t : Suspension}
    (hStep : Step s e t)
    (hRunning : t.Live → t.phase .spu ≠ .parked)
    (hDisabled : t.Live → t.suspendEnabled = false) :
    Undisturbed s e := by
  cases hStep with
  | run => exact trivial
  | suspend => exact trivial
  | resume => exact trivial
  | waitSuspended _ => exact trivial
  | @construct h detach _ =>
      cases h with
      | spu => exact trivial
      | other id => exact hRunning (live_construct s _ detach)
  | @destroy h detach outer hOutside hGuards =>
      intro inner hInner
      rw [hGuards] at hInner
      cases hInner
      have hNone : ¬ (s.withGuards h outer).Live :=
        fun hLive => Bool.noConfusion (hDisabled hLive)
      have hGone := (not_live_iff _).mp hNone
      refine ⟨?_, ?_⟩
      · rw [← hGone h]
        exact (Function.update_self h outer s.guards).symm
      · intro k hOther
        rw [← hGone k]
        exact
          (Function.update_of_ne hOther outer s.guards).symm
  | @read h hInside =>
      cases h with
      | other id => exact trivial
      | spu =>
          intro hPhase hSuspended id
          by_contra hLive
          refine hRunning ⟨.other id, hLive⟩ ?_
          unfold goto
          dsimp only
          rw [Function.update_self, hPhase, hSuspended]
          rfl

/-
  The guards of a thread keep it from being parked exactly
  where each of its steps is undisturbed.
-/
theorem guarded_iff
    (events : List Event)
    (t : Suspension)
    (hRun : Run Step {} events t) :
    Guarded events ↔ Orderly events := by
  constructor
  · intro hGuarded before e after s hEvents hBefore
    rw [hEvents] at hRun
    rcases hRun.step_of_mem with ⟨s', u, hBefore', hStep⟩
    cases hBefore.unique step_unique hBefore'
    have hSplit : events = (before ++ [e]) ++ after := by
      rw [hEvents, List.append_assoc, List.singleton_append]
    have hFirst := hBefore.snoc hStep
    exact
      undisturbed_of_guarded hStep
        (hGuarded.running _ after u hSplit hFirst)
        (hGuarded.disabled _ after u hSplit hFirst)
  · intro hOrderly
    have hInv :
        ∀ before after u,
          events = before ++ after →
            Run Step {} before u → u.Inv := by
      intro before after u hEvents hBefore
      rw [hEvents] at hOrderly
      exact inv_of_run hBefore (orderly_of_append hOrderly)
    refine ⟨?_, ?_⟩
    · intro before after u hEvents hBefore hLive hParked
      exact
        (hInv before after u hEvents hBefore).parked hParked
          hLive
    · intro before after u hEvents hBefore hLive
      exact
        (hInv before after u hEvents hBefore).disabled hLive

/- A request during an access parks the thread after it. -/
theorem guarded_iff_access :
    Guarded
        [.construct .spu false, .suspend, .destroy .spu,
          .read .spu, .read .spu] ↔
      Orderly
        [.construct .spu false, .suspend, .destroy .spu,
          .read .spu, .read .spu] :=
  guarded_iff _ _
    (.snoc
      (.snoc
        (.snoc
          (.snoc (.snoc .nil (.construct rfl)) .suspend)
          (.destroy rfl rfl))
        (.read (by decide)))
      (.read (by decide)))

/- The handler of a group exit reads the outbound mailbox. -/
def groupExit : List Event :=
  [.suspend, .construct .spu true, .construct .spu false,
    .destroy .spu, .read .spu, .read .spu]

theorem groupExit_unguarded :
    ¬ ∀ (events : List Event) (t : Suspension),
        Run Step {} events t → Guarded events := by
  intro hAll
  have hRun :
      ∃ t, Run Step {} groupExit t ∧ t.Live ∧
        t.phase .spu = .parked :=
    ⟨_,
      .snoc
        (.snoc
          (.snoc
            (.snoc
              (.snoc (.snoc .nil .suspend) (.construct rfl))
              (.construct rfl))
            (.destroy rfl rfl))
          (.read (by decide)))
        (.read (by decide)),
      ⟨.spu, by decide⟩, rfl⟩
  rcases hRun with ⟨t, hRun, hLive, hParked⟩
  exact
    (hAll groupExit t hRun).running groupExit [] t rfl hRun
      hLive hParked

end Suspension

------------------------------------------------------------
-- Scopes
------------------------------------------------------------

/- What a thread does with its own guards. -/
inductive GuardAction where
  | construct (detach : Bool)
  | destroy
deriving DecidableEq

namespace GuardAction

/-
  A guard around the calls in its scope, which it leaves by a
  return or an exception.
-/
def scope
    (detach : Bool)
    (body : List GuardAction) : List GuardAction :=
  .construct detach :: (body ++ [.destroy])

def apply (guards : List Bool) : GuardAction → List Bool
  | .construct detach => detach :: guards
  | .destroy => guards.tail

/- A guard that does not detach is destroyed as the last. -/
def alone (guards : List Bool) : GuardAction → Bool
  | .construct _ => true
  | .destroy => guards.head? ≠ some false ∨ guards.tail = []

def flat
    (guards : List Bool) : List GuardAction → Bool
  | [] => true
  | a :: rest => alone guards a && flat (apply guards a) rest

theorem flat_append
    (p q : List GuardAction)
    (guards : List Bool) :
    flat guards (p ++ q) =
      (flat guards p && flat (p.foldl apply guards) q) := by
  induction p generalizing guards with
  | nil => simp [flat]
  | cons a rest ih => simp [flat, ih, Bool.and_assoc]

/- Calls that open and leave scopes. -/
inductive Calls : List GuardAction → Prop where
  | nil : Calls []
  | scope
      {detach : Bool}
      {body : List GuardAction} :
      Calls body → Calls (scope detach body)
  | append
      {p q : List GuardAction} :
      Calls p → Calls q → Calls (p ++ q)

variable {p : List GuardAction}

/- Calls leave the guards as they find them. -/
theorem foldl_of_calls
    (hCalls : Calls p)
    (guards : List Bool) :
    p.foldl apply guards = guards := by
  induction hCalls generalizing guards with
  | nil => rfl
  | @scope detach body _ ih =>
      rw [GuardAction.scope, List.foldl_cons,
        List.foldl_append, ih]
      rfl
  | append _ _ ihLeft ihRight =>
      rw [List.foldl_append, ihLeft, ihRight]

theorem not_mem_scope_iff
    (detach : Bool)
    (body : List GuardAction) :
    .construct false ∉ scope detach body ↔
      detach = true ∧ .construct false ∉ body := by
  unfold scope
  cases detach with
  | true => simp
  | false => simp

/- Inside a guard, all the guards of calls must detach. -/
theorem flat_inside_iff
    (hCalls : Calls p)
    {guards : List Bool}
    (hLive : guards ≠ []) :
    flat guards p = true ↔ .construct false ∉ p := by
  induction hCalls generalizing guards with
  | nil => simp [flat]
  | @scope detach body hBody ih =>
      rw [not_mem_scope_iff,
        ← ih (List.cons_ne_nil detach guards)]
      unfold scope
      rw [flat, flat_append, apply, foldl_of_calls hBody]
      cases detach with
      | true => simp [flat, alone]
      | false => simp [flat, alone, hLive]
  | @append p q hLeft hRight ihLeft ihRight =>
      rw [flat_append, foldl_of_calls hLeft, Bool.and_eq_true,
        ihLeft hLive, ihRight hLive, List.mem_append, not_or]

/- An outermost guard is unharmed by guards that detach. -/
theorem flat_scope
    {detach : Bool}
    {body : List GuardAction}
    (hBody : Calls body) :
    flat [] (scope detach body) = true ↔
      .construct false ∉ body := by
  rw [← flat_inside_iff hBody (List.cons_ne_nil detach [])]
  unfold scope
  rw [flat, flat_append, apply, foldl_of_calls hBody]
  simp [flat, alone]

/- Calls one after another are judged one by one. -/
theorem flat_calls
    {p q : List GuardAction}
    (hCalls : Calls p) :
    flat [] (p ++ q) = (flat [] p && flat [] q) := by
  rw [flat_append, foldl_of_calls hCalls]

theorem flat_flatten_iff
    {calls : List (List GuardAction)}
    (hCalls : ∀ p ∈ calls, Calls p) :
    flat [] calls.flatten = true ↔
      ∀ p ∈ calls, flat [] p = true := by
  induction calls with
  | nil => simp [flat]
  | cons p rest ih =>
      rw [List.flatten_cons,
        flat_calls (hCalls p List.mem_cons_self),
        Bool.and_eq_true,
        ih (fun q hq => hCalls q (List.mem_cons_of_mem _ hq)),
        List.forall_mem_cons]

end GuardAction

------------------------------------------------------------
-- Runs of One Thread
------------------------------------------------------------

namespace Suspension

open Transition

def Event.action : Event → Option GuardAction
  | .construct .spu detach => some (.construct detach)
  | .destroy .spu => some .destroy
  | _ => none

/- No other thread constructs a guard. -/
def Own (events : List Event) : Prop :=
  ∀ id detach, .construct (.other id) detach ∉ events

variable {e : Event}

theorem guards_of_step
    {s t : Suspension}
    (hStep : Step s e t) :
    t.guards .spu =
      e.action.toList.foldl GuardAction.apply
        (s.guards .spu) := by
  cases hStep with
  | run => rfl
  | suspend =>
      unfold suspend
      split
      case isTrue => rfl
      case isFalse => rfl
  | resume => rfl
  | waitSuspended _ => rfl
  | read _ => rfl
  | @construct h detach _ =>
      rw [guards_construct]
      cases h with
      | spu =>
          rw [Function.update_self]
          rfl
      | other id =>
          rw [Function.update_of_ne (HostThread.spu_ne_other id)]
          rfl
  | @destroy h detach outer _ hGuards =>
      rw [guards_destroy]
      cases h with
      | spu =>
          rw [Function.update_self]
          change outer = (s.guards .spu).tail
          rw [hGuards]
          rfl
      | other id =>
          rw [Function.update_of_ne (HostThread.spu_ne_other id)]
          rfl

theorem others_of_step
    {s t : Suspension}
    (hOthers : ∀ id, s.guards (.other id) = [])
    (hOwn : ∀ id detach, e ≠ .construct (.other id) detach)
    (hStep : Step s e t)
    (id : Nat) :
    t.guards (.other id) = [] := by
  cases hStep with
  | run => exact hOthers id
  | suspend =>
      unfold suspend
      split
      case isTrue => exact hOthers id
      case isFalse => exact hOthers id
  | resume => exact hOthers id
  | waitSuspended _ => exact hOthers id
  | read _ => exact hOthers id
  | @construct h detach _ =>
      rw [guards_construct]
      cases h with
      | other k => exact absurd rfl (hOwn k detach)
      | spu =>
          rw [Function.update_of_ne
            (HostThread.spu_ne_other id).symm]
          exact hOthers id
  | @destroy h detach outer _ hGuards =>
      rw [guards_destroy]
      cases h with
      | other k =>
          rw [hOthers k] at hGuards
          cases hGuards
      | spu =>
          rw [Function.update_of_ne
            (HostThread.spu_ne_other id).symm]
          exact hOthers id

/- Without the guards of others, only destruction can disturb. -/
theorem undisturbed_iff
    {s t : Suspension}
    (hOthers : ∀ id, s.guards (.other id) = [])
    (hOwn : ∀ id detach, e ≠ .construct (.other id) detach)
    (hStep : Step s e t) :
    Undisturbed s e ↔
      GuardAction.flat (s.guards .spu) e.action.toList =
        true := by
  cases hStep with
  | run => exact ⟨fun _ => rfl, fun _ => trivial⟩
  | suspend => exact ⟨fun _ => rfl, fun _ => trivial⟩
  | resume => exact ⟨fun _ => rfl, fun _ => trivial⟩
  | waitSuspended _ => exact ⟨fun _ => rfl, fun _ => trivial⟩
  | @read h _ =>
      refine ⟨fun _ => rfl, fun _ => ?_⟩
      cases h with
      | other id => exact trivial
      | spu => exact fun _ _ => hOthers
  | @construct h detach _ =>
      cases h with
      | spu => exact ⟨fun _ => rfl, fun _ => trivial⟩
      | other k => exact absurd rfl (hOwn k detach)
  | @destroy h detach outer _ hGuards =>
      cases h with
      | other k =>
          rw [hOthers k] at hGuards
          cases hGuards
      | spu =>
          have hNone :
              ∀ k, k ≠ .spu → s.guards k = [] := by
            intro k hOther
            cases k with
            | spu => exact absurd rfl hOther
            | other id => exact hOthers id
          change
            (∀ inner, s.guards .spu = false :: inner →
                inner = [] ∧
                  ∀ k, k ≠ .spu → s.guards k = []) ↔
              GuardAction.flat (s.guards .spu) [.destroy] =
                true
          rw [hGuards]
          cases detach with
          | true => simp [GuardAction.flat, GuardAction.alone]
          | false =>
              constructor
              · intro hAlone
                rw [(hAlone outer rfl).1]
                rfl
              · rintro hFlat inner ⟨⟩
                exact
                  ⟨by simpa [GuardAction.flat,
                      GuardAction.alone] using hFlat,
                    hNone⟩

variable {t : Suspension}

theorem flat_of_run
    {events : List Event}
    (hRun : Run Step {} events t)
    (hOwn : Own events) :
    (t.guards .spu =
        (events.filterMap Event.action).foldl
          GuardAction.apply [] ∧
      ∀ id, t.guards (.other id) = []) ∧
      (Orderly events ↔
        GuardAction.flat [] (events.filterMap Event.action) =
          true) := by
  induction hRun with
  | nil =>
      refine ⟨⟨rfl, fun _ => rfl⟩, fun _ => rfl, ?_⟩
      intro _ before e after s hEvents
      simp at hEvents
  | @snoc events s t e hBefore hLast ih =>
      have hOld : Own events :=
        fun id detach hMem =>
          hOwn id detach (List.mem_append_left _ hMem)
      have hNew :
          ∀ id detach, e ≠ .construct (.other id) detach := by
        rintro id detach rfl
        exact hOwn id detach (by simp)
      rcases ih hOld with ⟨⟨hGuards, hOthers⟩, hFlat⟩
      have hLastAction :
          [e].filterMap Event.action = e.action.toList := by
        cases hAction : e.action with
        | none => simp [hAction]
        | some a => simp [hAction]
      rw [List.filterMap_append, hLastAction]
      refine
        ⟨⟨?_, others_of_step hOthers hNew hLast⟩, ?_⟩
      · rw [guards_of_step hLast, List.foldl_append, hGuards]
      · rw [orderly_snoc_iff hBefore, hFlat,
          undisturbed_iff hOthers hNew hLast,
          GuardAction.flat_append, Bool.and_eq_true, hGuards]

/- Then the guards hold for the scopes that do not nest. -/
theorem guarded_iff_flat
    {events : List Event}
    (hRun : Run Step {} events t)
    (hOwn : Own events) :
    Guarded events ↔
      GuardAction.flat [] (events.filterMap Event.action) =
        true :=
  (guarded_iff events t hRun).trans (flat_of_run hRun hOwn).2

end Suspension

------------------------------------------------------------
-- Calls of the Source
------------------------------------------------------------

/- The guards of the functions that the thread calls. -/
namespace Guards

open GuardAction

def MFC_Cmd : Nat := 21

def command : List GuardAction := scope false []

def readCount : List GuardAction := scope false []

def read : List GuardAction := scope false []

def write (ch : Nat) : List GuardAction :=
  scope false (if ch = MFC_Cmd then command else [])

def mmioReadCount : List GuardAction := scope false []

def mmioWrite (reg : TagClassId) : List GuardAction :=
  scope false (if reg = .mfcClassCmd then command else [])

def mmioRead (reg : TagClassId) : List GuardAction :=
  scope false
    (if reg = .spuMBoxStatus then
      mmioReadCount ++ mmioReadCount ++ mmioReadCount
    else [])

def silentlyWriteInterruptMbox : List GuardAction :=
  scope false []

def SpuInterruptOperation_SendEvent : BitVec 32 := 0
def SpuInterruptOperation_WriteInterruptMbox : BitVec 32 := 2

def handleInterrupt
    (interruptValue : BitVec 32) : List GuardAction :=
  let op := (interruptValue >>> 24 &&& 0xff) >>> 6
  if op = SpuInterruptOperation_WriteInterruptMbox then
    silentlyWriteInterruptMbox
  else
    mmioRead .spuOutMBox ++
      (if op = SpuInterruptOperation_SendEvent then
        mmioWrite .spuInMBox
      else [])

def handleReceiveEvent : List GuardAction :=
  mmioRead .spuOutMBox ++
    (mmioWrite .spuInMBox ++ (mmioWrite .spuInMBox ++
      (mmioWrite .spuInMBox ++ mmioWrite .spuInMBox)))

/-
  The handlers of the run loop; `established` says that the
  interrupt has a handler of its own.
-/
def handler
    (established : Bool) : Iteration → List GuardAction
  | .finished _ _ => scope true []
  | .stopSignal type _ =>
      scope true
        (if type = SYS_SPU_THREAD_STOP_RECEIVE_EVENT then
          handleReceiveEvent
        else if type = SYS_SPU_THREAD_STOP_GROUP_EXIT ∨
            type = SYS_SPU_THREAD_STOP_THREAD_EXIT then
          mmioRead .spuOutMBox
        else [])
  | .interrupt imboxValue =>
      scope false
        (if established then silentlyWriteInterruptMbox
        else handleInterrupt imboxValue)
  | .infiniteLoop => scope true []
  | .instruction => []
  | .breakpoint => []
  | .illegalInstruction => []
  | .failure => []

/- Each access opens a guard of its own. -/
theorem mem_mmioRead
    (reg : TagClassId) :
    .construct false ∈ mmioRead reg := by
  simp [mmioRead, scope]

theorem calls_scope_nil
    (detach : Bool) :
    Calls (scope detach []) :=
  .scope .nil

theorem calls_command : Calls command :=
  calls_scope_nil false

theorem calls_mmioReadCount : Calls mmioReadCount :=
  calls_scope_nil false

theorem calls_silentlyWriteInterruptMbox :
    Calls silentlyWriteInterruptMbox :=
  calls_scope_nil false

theorem calls_mmioRead
    (reg : TagClassId) :
    Calls (mmioRead reg) := by
  unfold mmioRead
  split
  case isTrue =>
    exact
      .scope
        (.append
          (.append calls_mmioReadCount calls_mmioReadCount)
          calls_mmioReadCount)
  case isFalse => exact calls_scope_nil _

theorem calls_mmioWrite
    (reg : TagClassId) :
    Calls (mmioWrite reg) := by
  unfold mmioWrite
  split
  case isTrue => exact .scope calls_command
  case isFalse => exact calls_scope_nil _

theorem flat_write_iff
    (ch : Nat) :
    flat [] (write ch) = true ↔ ch ≠ MFC_Cmd := by
  unfold write
  split
  case isTrue hCmd =>
    rw [flat_scope calls_command]
    simp [hCmd, command, scope]
  case isFalse hCmd =>
    rw [flat_scope .nil]
    simp [hCmd]

theorem calls_handleReceiveEvent : Calls handleReceiveEvent :=
  .append (calls_mmioRead _)
    (.append (calls_mmioWrite _)
      (.append (calls_mmioWrite _)
        (.append (calls_mmioWrite _) (calls_mmioWrite _))))

theorem calls_handleInterrupt
    (interruptValue : BitVec 32) :
    Calls (handleInterrupt interruptValue) := by
  unfold handleInterrupt
  dsimp only
  split
  case isTrue => exact calls_scope_nil _
  case isFalse =>
    split
    case isTrue =>
      exact .append (calls_mmioRead _) (calls_mmioWrite _)
    case isFalse => exact .append (calls_mmioRead _) .nil

theorem mem_handleInterrupt
    (interruptValue : BitVec 32) :
    .construct false ∈ handleInterrupt interruptValue := by
  unfold handleInterrupt
  dsimp only
  split
  case isTrue => simp [silentlyWriteInterruptMbox, scope]
  case isFalse =>
    exact List.mem_append_left _ (mem_mmioRead _)

/- Handlers that access a channel inside their own guard. -/
theorem flat_handler_iff
    (established : Bool)
    (it : Iteration) :
    flat [] (handler established it) = true ↔
      (∀ imboxValue, it ≠ .interrupt imboxValue) ∧
        ∀ type mail, it = .stopSignal type mail →
          type ≠ SYS_SPU_THREAD_STOP_RECEIVE_EVENT ∧
            type ≠ SYS_SPU_THREAD_STOP_GROUP_EXIT ∧
              type ≠ SYS_SPU_THREAD_STOP_THREAD_EXIT := by
  cases it with
  | instruction => simp [handler, flat]
  | breakpoint => simp [handler, flat]
  | illegalInstruction => simp [handler, flat]
  | failure => simp [handler, flat]
  | finished errorCode cause =>
      simp [handler, flat_scope Calls.nil]
  | infiniteLoop => simp [handler, flat_scope Calls.nil]
  | interrupt imboxValue =>
      have hNested : ¬ flat [] (handler established
          (.interrupt imboxValue)) = true := by
        unfold handler
        dsimp only
        split
        case isTrue =>
          rw [flat_scope calls_silentlyWriteInterruptMbox]
          simp [silentlyWriteInterruptMbox, scope]
        case isFalse =>
          rw [flat_scope (calls_handleInterrupt imboxValue)]
          exact fun hNot => hNot (mem_handleInterrupt _)
      refine iff_of_false hNested ?_
      exact fun hNone => hNone.1 imboxValue rfl
  | stopSignal type mail =>
      have hCases :
          flat [] (handler established
              (.stopSignal type mail)) = true ↔
            type ≠ SYS_SPU_THREAD_STOP_RECEIVE_EVENT ∧
              type ≠ SYS_SPU_THREAD_STOP_GROUP_EXIT ∧
                type ≠ SYS_SPU_THREAD_STOP_THREAD_EXIT := by
        unfold handler
        dsimp only
        split
        case isTrue hReceive =>
          rw [flat_scope calls_handleReceiveEvent]
          refine iff_of_false ?_ (fun hNot => hNot.1 hReceive)
          exact
            fun hNot =>
              hNot (List.mem_append_left _ (mem_mmioRead _))
        case isFalse hReceive =>
          split
          case isTrue hExit =>
            rw [flat_scope (calls_mmioRead _)]
            refine
              iff_of_false (fun hNot => hNot (mem_mmioRead _)) ?_
            rintro ⟨-, hGroup, hThread⟩
            exact hExit.elim hGroup hThread
          case isFalse hExit =>
            rw [flat_scope .nil]
            rw [not_or] at hExit
            exact
              iff_of_true List.not_mem_nil
                ⟨hReceive, hExit.1, hExit.2⟩
      rw [hCases]
      constructor
      · intro hNone
        refine ⟨fun _ hEq => Iteration.noConfusion hEq, ?_⟩
        rintro _ _ ⟨⟩
        exact hNone
      · intro hNone
        exact hNone.2 type mail rfl

theorem calls_handler
    (established : Bool)
    (it : Iteration) :
    Calls (handler established it) := by
  cases it with
  | instruction => exact .nil
  | breakpoint => exact .nil
  | illegalInstruction => exact .nil
  | failure => exact .nil
  | finished _ _ => exact .scope .nil
  | infiniteLoop => exact .scope .nil
  | interrupt imboxValue =>
      refine .scope ?_
      cases established with
      | true => exact calls_silentlyWriteInterruptMbox
      | false => exact calls_handleInterrupt imboxValue
  | stopSignal type _ =>
      refine .scope ?_
      split
      case isTrue => exact calls_handleReceiveEvent
      case isFalse =>
        split
        case isTrue => exact calls_mmioRead _
        case isFalse => exact .nil

/-
  What a thread calls in its loop: channel accesses of its
  instructions, and handlers.
-/
inductive Call where
  | readCount
  | read
  | write (ch : Nat)
  | handler (established : Bool) (it : Iteration)

def Call.actions : Call → List GuardAction
  | .readCount => Guards.readCount
  | .read => Guards.read
  | .write ch => Guards.write ch
  | .handler established it => Guards.handler established it

/- A guard of the call is opened inside another one. -/
def Call.Nests : Call → Prop
  | .readCount => False
  | .read => False
  | .write ch => ch = MFC_Cmd
  | .handler _ it =>
      (∃ imboxValue, it = .interrupt imboxValue) ∨
        ∃ type mail,
          it = .stopSignal type mail ∧
            (type = SYS_SPU_THREAD_STOP_RECEIVE_EVENT ∨
              type = SYS_SPU_THREAD_STOP_GROUP_EXIT ∨
                type = SYS_SPU_THREAD_STOP_THREAD_EXIT)

theorem flat_actions_iff
    (c : Call) :
    flat [] c.actions = true ↔ ¬ c.Nests := by
  cases c with
  | readCount => exact iff_of_true rfl id
  | read => exact iff_of_true rfl id
  | write ch => exact flat_write_iff ch
  | handler established it =>
      rw [Call.actions, flat_handler_iff, Call.Nests]
      push Not
      rfl

theorem calls_actions
    (c : Call) :
    Calls c.actions := by
  cases c with
  | readCount => exact calls_scope_nil false
  | read => exact calls_scope_nil false
  | write ch =>
      refine .scope ?_
      split
      case isTrue => exact calls_command
      case isFalse => exact .nil
  | handler established it => exact calls_handler established it

open Suspension in
/-
  If no other thread constructs a guard, suspension is as it
  should be exactly when no call of the thread nests guards.
-/
theorem guarded_iff_calls
    (events : List Event)
    (t : Suspension)
    (calls : List Call)
    (hRun : Transition.Run Step {} events t)
    (hOwn : Own events)
    (hCalls :
      events.filterMap Event.action =
        (calls.map Call.actions).flatten) :
    Guarded events ↔ ∀ c ∈ calls, ¬ c.Nests := by
  rw [guarded_iff_flat hRun hOwn, hCalls, flat_flatten_iff]
  · simp only [List.forall_mem_map, flat_actions_iff]
  · simp only [List.forall_mem_map, calls_actions, implies_true]

/- A request during a write to a mailbox. -/
theorem guarded_iff_calls_write :
    Suspension.Guarded
        [.construct .spu false, .suspend, .destroy .spu] ↔
      ∀ c ∈ [Call.write 28], ¬ c.Nests :=
  guarded_iff_calls _ _ [.write 28]
    (.snoc (.snoc (.snoc .nil (.construct rfl)) .suspend)
      (.destroy rfl rfl))
    (by simp [Suspension.Own]) rfl

end Guards

end Ps3emu
