import Mathlib.Data.List.Induction
import Mathlib.Tactic.Common

/-
  Labelled transition systems, their finite runs, and the
  rules by which one-step facts become facts about runs.

  Key definitions include:
    * `Transition.Run`
    * `Transition.restrict`
    * `Transition.exec`, `Transition.produce`
    * `Transition.EveryState`, `Transition.EveryStep`
    * `Transition.Since`

  Key theorems include:
    * `Transition.snoc_eq_split`
    * `Transition.Run.invariant`
    * `Transition.Run.established`
    * `Transition.Run.unique`
    * `Transition.Run.conserved`, `Transition.Run.bounded`
    * `Transition.Run.split`
    * `Transition.exec_everywhere_iff`
    * `Transition.foldl_eq_of_mem_iff`
    * `Transition.produce_of_simulation`
    * `Transition.EveryStep.everyState`
    * `Transition.Run.since`
-/

------------------------------------------------------------
-- Runs
------------------------------------------------------------

namespace Ps3emu

namespace Transition

variable {S E : Type}

/-
  A finite run of `step`, labelled by its events in the
  order in which they happen.
-/
inductive Run
    (step : S → E → S → Prop)
    (start : S) : List E → S → Prop where
  | nil : Run step start [] start
  | snoc
      {events : List E}
      {middle finish : S}
      {event : E} :
      Run step start events middle →
      step middle event finish →
      Run step start (events ++ [event]) finish

/- An event of a longer sequence is its last or comes before. -/
theorem snoc_eq_split
    {events before after : List E}
    {e d : E}
    (hEvents : events ++ [e] = before ++ d :: after) :
    (before = events ∧ d = e ∧ after = []) ∨
      ∃ init, after = init ++ [e] ∧
        events = before ++ d :: init := by
  rcases List.eq_nil_or_concat after with
    rfl | ⟨init, last, rfl⟩
  · have hBoth := List.append_inj' hEvents rfl
    exact
      .inl
        ⟨hBoth.1.symm, (List.singleton_inj.mp hBoth.2).symm,
          rfl⟩
  · rw [List.concat_eq_append, ← List.cons_append,
      ← List.append_assoc] at hEvents
    have hBoth := List.append_inj' hEvents rfl
    refine .inr ⟨init, ?_, hBoth.1⟩
    rw [List.concat_eq_append, hBoth.2]

/- The steps of `step` that also satisfy `allowed`. -/
def restrict
    (step allowed : S → E → S → Prop) :
    S → E → S → Prop :=
  fun s e t => step s e t ∧ allowed s e t

namespace Run

variable {step : S → E → S → Prop} {start finish : S} {events : List E}

/- A property kept by every step holds at the end of a run. -/
theorem invariant
    (I : S → Prop)
    (hStep : ∀ s e t, I s → step s e t → I t)
    (hRun : Run step start events finish)
    (hStart : I start) :
    I finish := by
  induction hRun with
  | nil => exact hStart
  | snoc _ hLast ih => exact hStep _ _ _ ih hLast

/-
  What an event's own step makes true, and every step keeps,
  is true of every event at the end.
-/
theorem established
    (Q : E → S → Prop)
    (hOwn : ∀ s e t, step s e t → Q e t)
    (hKeep : ∀ s e t, step s e t → ∀ d, Q d s → Q d t)
    (hRun : Run step start events finish) :
    ∀ e ∈ events, Q e finish := by
  induction hRun with
  | nil =>
      intro e he
      cases he
  | @snoc events middle finish event _ hLast ih =>
      intro e he
      rcases List.mem_append.mp he with hOld | hNew
      · exact hKeep _ _ _ hLast e (ih e hOld)
      · rw [List.mem_singleton.mp hNew]
        exact hOwn _ _ _ hLast

/- A run of a smaller relation is a run of a larger one. -/
theorem mono
    {step' : S → E → S → Prop}
    (hSubset : ∀ s e t, step s e t → step' s e t)
    (hRun : Run step start events finish) :
    Run step' start events finish := by
  induction hRun with
  | nil => exact .nil
  | snoc _ hLast ih => exact .snoc ih (hSubset _ _ _ hLast)

/- Runs compose. -/
theorem append
    {middle : S}
    {more : List E}
    (hFirst : Run step start events middle)
    (hSecond : Run step middle more finish) :
    Run step start (events ++ more) finish := by
  induction hSecond with
  | nil => simpa using hFirst
  | snoc _ hLast ih =>
      rw [← List.append_assoc]
      exact .snoc ih hLast

variable {event : E}

/- Prepend one step to a run. -/
theorem cons
    {s : S}
    (hFirst : step s event start)
    (hRun : Run step start events finish) :
    Run step s (event :: events) finish := by
  change Run step s ([event] ++ events) finish
  exact append (.snoc .nil hFirst) hRun

/- The last step of a run. -/
theorem of_snoc
    (hRun : Run step start (events ++ [event]) finish) :
    ∃ middle, Run step start events middle ∧
      step middle event finish := by
  generalize hEvents : events ++ [event] = all at hRun
  cases hRun with
  | nil => simp at hEvents
  | @snoc before middle _ last hBefore hLast =>
      have hBoth := List.append_inj' hEvents rfl
      rw [hBoth.1, List.singleton_inj.mp hBoth.2]
      exact ⟨middle, hBefore, hLast⟩

/- The events of a deterministic system determine the end. -/
theorem unique
    (hStep :
      ∀ s e t u, step s e t → step s e u → t = u)
    {other : S}
    (hRun : Run step start events finish)
    (hOther : Run step start events other) :
    finish = other := by
  induction hRun generalizing other with
  | nil =>
      generalize hEvents : ([] : List E) = all at hOther
      cases hOther with
      | nil => rfl
      | snoc _ _ => simp at hEvents
  | snoc _ hLast ih =>
      rcases of_snoc hOther with ⟨middle, hBefore, hFinal⟩
      cases ih hBefore
      exact hStep _ _ _ _ hLast hFinal

/-
  If every step takes from the front of some contents what it
  delivers, and puts at the end what it accepts, then so does
  every run.
-/
theorem conserved
    {A : Type}
    (contents : S → List A)
    (accepted delivered : E → List A)
    (hStep :
      ∀ s e t, step s e t →
        contents s ++ accepted e =
          delivered e ++ contents t)
    (hRun : Run step start events finish) :
    contents start ++ events.flatMap accepted =
      events.flatMap delivered ++ contents finish := by
  induction hRun with
  | nil => simp
  | snoc _ hLast ih =>
      rw [List.flatMap_append, ← List.append_assoc, ih,
        List.flatMap_append, List.append_assoc,
        List.append_assoc, List.flatMap_singleton,
        List.flatMap_singleton, hStep _ _ _ hLast]

/-
  If a step takes something only out of what there is or what
  it puts there, a run takes no more than it found or put.
-/
theorem bounded
    (amount : S → Nat)
    (put taken : E → Bool)
    (hStep :
      ∀ s e t, step s e t →
        (taken e).toNat + amount t ≤ (put e).toNat + amount s)
    (hRun : Run step start events finish) :
    events.countP taken + amount finish ≤
      events.countP put + amount start := by
  have hCount :
      ∀ (p : E → Bool) (e : E),
        [e].countP p = (p e).toNat := by
    intro p e
    cases hp : p e with
    | false => simp [hp]
    | true => simp [hp]
  induction hRun with
  | nil => simp
  | snoc _ hLast ih =>
      have hNew := hStep _ _ _ hLast
      rw [List.countP_append, List.countP_append, hCount,
        hCount]
      omega

/- A run passes through a state between its events. -/
theorem split
    {before after : List E}
    (hRun : Run step start (before ++ after) finish) :
    ∃ middle, Run step start before middle ∧
      Run step middle after finish := by
  induction after generalizing before with
  | nil =>
      rw [List.append_nil] at hRun
      exact ⟨finish, hRun, .nil⟩
  | cons event rest ih =>
      rw [← List.singleton_append, ← List.append_assoc]
        at hRun
      rcases ih hRun with ⟨t, hInit, hRest⟩
      rcases of_snoc hInit with ⟨s, hBefore, hStep⟩
      exact ⟨s, hBefore, cons hStep hRest⟩

theorem of_nil
    (hRun : Run step start [] finish) :
    finish = start := by
  generalize hEvents : ([] : List E) = all at hRun
  cases hRun with
  | nil => rfl
  | snoc _ _ => simp at hEvents

/- The first step of a run. -/
theorem of_cons
    (hRun : Run step start (event :: events) finish) :
    ∃ middle, step start event middle ∧
      Run step middle events finish := by
  change Run step start ([event] ++ events) finish at hRun
  rcases split hRun with ⟨middle, hFirst, hRest⟩
  change Run step start ([] ++ [event]) middle at hFirst
  rcases of_snoc hFirst with ⟨s, hNil, hStep⟩
  rw [of_nil hNil] at hStep
  exact ⟨middle, hStep, hRest⟩

/- The step of an event inside a run. -/
theorem step_of_mem
    {before after : List E}
    (hRun : Run step start (before ++ event :: after)
      finish) :
    ∃ s t, Run step start before s ∧ step s event t := by
  rw [← List.singleton_append, ← List.append_assoc] at hRun
  rcases split hRun with ⟨t, hInit, -⟩
  rcases of_snoc hInit with ⟨s, hBefore, hStep⟩
  exact ⟨s, t, hBefore, hStep⟩

end Run

------------------------------------------------------------
-- Deterministic Systems
------------------------------------------------------------

/- Take the steps of a list of events, if all are possible. -/
def exec
    (step : S → E → Option S)
    (s : S) : List E → Option S
  | [] => some s
  | e :: rest => (step s e).bind (fun t => exec step t rest)

theorem run_of_exec
    {step : S → E → Option S}
    {s t : S}
    {events : List E}
    (hExec : exec step s events = some t) :
    Run (fun s e t => step s e = some t) s events t := by
  induction events generalizing s with
  | nil =>
      obtain rfl := Option.some.inj hExec
      exact .nil
  | cons e rest ih =>
      rcases Option.bind_eq_some_iff.mp hExec with
        ⟨u, hFirst, hRest⟩
      exact (ih hRest).cons hFirst

theorem exec_append
    {step : S → E → Option S}
    {s : S}
    (events more : List E) :
    exec step s (events ++ more) =
      (exec step s events).bind (fun t =>
        exec step t more) := by
  induction events generalizing s with
  | nil => rfl
  | cons e rest ih =>
      rw [List.cons_append, exec, exec, Option.bind_assoc]
      congr 1
      funext t
      exact ih

/- The last step of a list of events. -/
theorem exec_snoc
    {step : S → E → Option S}
    {s t : S}
    {events : List E}
    (hExec : exec step s events = some t)
    (e : E) :
    exec step s (events ++ [e]) = step t e := by
  rw [exec_append, hExec, Option.bind_some, exec]
  exact Option.bind_fun_some _

/-
  Where the steps that keep a property are those with a
  condition on the state before, the property holds after
  every event exactly if every event meets the condition.
-/
theorem exec_everywhere_iff
    {step : S → E → Option S}
    {I : List E → S → Prop}
    {P : S → E → Prop}
    {start : S}
    {events : List E}
    (hStart : I [] start)
    (hKeep :
      ∀ before s e, I before s → P s e →
        ∃ t, step s e = some t ∧ I (before ++ [e]) t)
    (hOnly :
      ∀ before s e t, I before s → step s e = some t →
        I (before ++ [e]) t → P s e) :
    (∀ before rest, events = before ++ rest →
        ∃ s, exec step start before = some s ∧ I before s) ↔
      ∀ before e rest, events = before ++ e :: rest →
        ∀ s, exec step start before = some s → P s e := by
  constructor
  · intro hAll before e rest hEvents s hExec
    rcases hAll before _ hEvents with ⟨s', hExec', hBefore⟩
    obtain rfl :=
      Option.some.inj (hExec.symm.trans hExec')
    rw [List.append_cons] at hEvents
    rcases hAll _ rest hEvents with ⟨t, hLast, hAfter⟩
    rw [exec_snoc hExec] at hLast
    exact hOnly before s e t hBefore hLast hAfter
  · intro hEvery before
    induction before using List.reverseRecOn with
    | nil =>
        intro rest hEvents
        exact ⟨start, rfl, hStart⟩
    | append_singleton before e ih =>
        intro rest hEvents
        rw [← List.append_cons] at hEvents
        rcases ih _ hEvents with ⟨s, hExec, hBefore⟩
        rcases hKeep before s e hBefore
          (hEvery before e rest hEvents s hExec) with
          ⟨t, hStep, hAfter⟩
        refine ⟨t, ?_, hAfter⟩
        rw [exec_snoc hExec, hStep]

/- The same, with what each of the steps has put out. -/
def produce
    {O : Type}
    (step : S → E → Option (S × O))
    (s : S) : List E → Option (S × List O)
  | [] => some (s, [])
  | e :: rest =>
      (step s e).bind (fun (t, o) =>
        (produce step t rest).map (fun (u, os) =>
          (u, o :: os)))

/-
  If every step of a specification is matched by a step that
  puts out the same, then so is every run.
-/
theorem produce_of_simulation
    {A O : Type}
    {spec : A → E → Option (A × O)}
    {step : S → E → Option (S × O)}
    (R : A → S → Prop)
    (hStep :
      ∀ a s e b o, R a s → spec a e = some (b, o) →
        ∃ t, step s e = some (t, o) ∧ R b t)
    {a b : A}
    {s : S}
    {events : List E}
    {os : List O}
    (hStart : R a s)
    (hSpec : produce spec a events = some (b, os)) :
    ∃ t, produce step s events = some (t, os) ∧ R b t := by
  induction events generalizing a s os with
  | nil =>
      cases hSpec
      exact ⟨s, rfl, hStart⟩
  | cons e rest ih =>
      rcases Option.bind_eq_some_iff.mp hSpec with
        ⟨⟨a', o⟩, hFirst, hMap⟩
      rcases Option.map_eq_some_iff.mp hMap with
        ⟨⟨b', os'⟩, hRest, hEq⟩
      cases hEq
      rcases hStep _ _ _ _ _ hStart hFirst with
        ⟨s', hFirst', hR⟩
      rcases ih hR hRest with ⟨t, hRest', hEnd⟩
      refine ⟨t, ?_, hEnd⟩
      simp [produce, hFirst', hRest']

------------------------------------------------------------
-- Steps That Commute
------------------------------------------------------------

section

variable {step : S → E → S}

variable (hComm : ∀ s a b, step (step s a) b = step (step s b) a)

include hComm

theorem step_foldl
    (events : List E)
    (s : S)
    (e : E) :
    step (events.foldl step s) e =
      events.foldl step (step s e) := by
  induction events generalizing s with
  | nil => rfl
  | cons a rest ih =>
      rw [List.foldl_cons, List.foldl_cons, ih, hComm]

theorem foldl_comm
    (events more : List E)
    (s : S) :
    more.foldl step (events.foldl step s) =
      events.foldl step (more.foldl step s) := by
  induction more generalizing s with
  | nil => rfl
  | cons e rest ih =>
      rw [List.foldl_cons, List.foldl_cons,
        step_foldl hComm, ih]

/- Events that come again change nothing. -/
theorem foldl_absorbs
    (hIdem : ∀ s a, step (step s a) a = step s a)
    {events more : List E}
    (hMore : ∀ e ∈ more, e ∈ events)
    (s : S) :
    events.foldl step (more.foldl step s) =
      events.foldl step s := by
  induction more generalizing s with
  | nil => rfl
  | cons e rest ih =>
      rcases List.forall_mem_cons.mp hMore with ⟨hE, hRest⟩
      rcases List.append_of_mem hE with ⟨before, after, rfl⟩
      rw [List.foldl_cons, ih hRest, List.foldl_append,
        List.foldl_append, ← step_foldl hComm,
        List.foldl_cons, List.foldl_cons, hIdem]

/-
  If steps commute and are idempotent, the end is determined
  by which events there are.
-/
theorem foldl_eq_of_mem_iff
    (hIdem : ∀ s a, step (step s a) a = step s a)
    {events others : List E}
    (hSame : ∀ e, e ∈ others ↔ e ∈ events)
    (s : S) :
    others.foldl step s = events.foldl step s := by
  rw [← foldl_absorbs hComm hIdem
      (fun e he => (hSame e).mpr he) s,
    foldl_comm hComm,
    foldl_absorbs hComm hIdem (fun e he => (hSame e).mp he)]

end

------------------------------------------------------------
-- Everywhere in a Run
------------------------------------------------------------

/-
  Every state that the events lead to, together with the
  events before it, has the property `I`.
-/
def EveryState
    (step : S → E → S → Prop)
    (I : List E → S → Prop)
    (start : S)
    (events : List E) : Prop :=
  ∀ before after s,
    events = before ++ after →
      Run step start before s → I before s

/- Every step that the events take has the property `P`. -/
def EveryStep
    (step P : S → E → S → Prop)
    (start : S)
    (events : List E) : Prop :=
  ∀ before e after s t,
    events = before ++ e :: after →
      Run step start before s → step s e t → P s e t

section

variable {step P Q : S → E → S → Prop} {I : List E → S → Prop}
variable {start : S}
variable {events : List E}

/- What steps with the property `P` keep holds everywhere. -/
theorem EveryStep.everyState
    (hStep :
      ∀ before s e t,
        I before s → P s e t → step s e t →
          I (before ++ [e]) t)
    (hSteps : EveryStep step P start events)
    (hStart : I [] start) :
    EveryState step I start events := by
  intro before after s hEvents hRun
  induction hRun generalizing after with
  | nil => exact hStart
  | @snoc before middle finish event hRun hLast ih =>
      rw [List.append_assoc, List.singleton_append] at hEvents
      exact
        hStep _ _ _ _ (ih _ hEvents)
          (hSteps _ _ _ _ _ hEvents hRun hLast) hLast

/- The first step, and the steps after it. -/
theorem EveryStep.cons
    {s : S}
    {e : E}
    (hSteps :
      ∀ t, step s e t →
        P s e t ∧ EveryStep step P t events) :
    EveryStep step P s (e :: events) := by
  intro before d after u v hEvents hRun hLast
  cases before with
  | nil =>
      rw [hRun.of_nil] at hLast ⊢
      rcases List.cons.inj hEvents with ⟨rfl, -⟩
      exact (hSteps v hLast).1
  | cons c before =>
      rcases List.cons.inj hEvents with ⟨rfl, hRest⟩
      rcases hRun.of_cons with ⟨t, hFirst, hSecond⟩
      exact (hSteps t hFirst).2 _ _ _ _ _ hRest hSecond hLast

theorem EveryStep.nil
    (s : S) :
    EveryStep step P s [] := by
  intro before e after u v hEvents
  simp at hEvents

/- Properties that agree on steps agree on their runs. -/
theorem EveryStep.congr
    (hIff : ∀ s e t, step s e t → (P s e t ↔ Q s e t)) :
    EveryStep step P start events ↔
      EveryStep step Q start events := by
  constructor
  · intro hSteps before e after s t hEvents hRun hLast
    exact
      (hIff s e t hLast).mp
        (hSteps _ _ _ _ _ hEvents hRun hLast)
  · intro hSteps before e after s t hEvents hRun hLast
    exact
      (hIff s e t hLast).mpr
        (hSteps _ _ _ _ _ hEvents hRun hLast)

end

------------------------------------------------------------
-- Last Occurrence
------------------------------------------------------------

/-
  `Since step P Q start events finish` says that the run has
  a step satisfying `P` after which every step satisfies `Q`.
-/
def Since
    (step P Q : S → E → S → Prop)
    (start : S)
    (events : List E)
    (finish : S) : Prop :=
  ∃ before s e t after,
    events = before ++ e :: after ∧
      Run step start before s ∧
      step s e t ∧
      P s e t ∧
      Run (restrict step Q) t after finish

namespace Run

variable {step P Q : S → E → S → Prop} {start finish : S}
variable {events : List E}

/-
  A state property `I` that is false at the start, and that
  a step can make true only by `P` and carry over only by
  `Q`, holds at the end of a run only since a `P` step.
  The side invariant `J` may be used at every step.
-/
theorem since
    (J I : S → Prop)
    (hSide : ∀ s e t, J s → step s e t → J t)
    (hStep :
      ∀ s e t, J s → step s e t → I t →
        P s e t ∨ (I s ∧ Q s e t))
    (hRun : Run step start events finish)
    (hJ : J start)
    (hStart : ¬ I start)
    (hFinish : I finish) :
    Since step P Q start events finish := by
  induction hRun with
  | nil => exact absurd hFinish hStart
  | @snoc events middle finish event hRun hLast ih =>
      have hMiddle : J middle := hRun.invariant J hSide hJ
      rcases hStep _ _ _ hMiddle hLast hFinish with
        hNew | ⟨hOld, hKeep⟩
      · exact
          ⟨events, middle, event, finish, [], rfl, hRun,
            hLast, hNew, .nil⟩
      · rcases ih hOld with
          ⟨before, s, e, t, after, hEvents, hBefore,
            hFirst, hP, hAfter⟩
        refine
          ⟨before, s, e, t, after ++ [event], ?_, hBefore,
            hFirst, hP, .snoc hAfter ⟨hLast, hKeep⟩⟩
        simp [hEvents]

end Run

end Transition

end Ps3emu
