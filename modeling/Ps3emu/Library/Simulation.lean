import Mathlib.Tactic.Common

/-
  Deterministic processes that show some of their steps, and a
  rule that compares two of them: one step of the first is
  matched by one or more steps of the second that show the
  same.

  Key definitions include:
    * `Process.Steps`
    * `Process.Shows`, `Process.Finishes`
    * `Process.Simulates`

  Key theorems include:
    * `Process.Steps.split`
    * `Process.Steps.shows_iff`, `Process.Steps.finishes_iff`
    * `Process.Simulates.shows_iff`
    * `Process.Simulates.finishes_iff`
-/

------------------------------------------------------------
-- Machines and Their Runs
------------------------------------------------------------

namespace Ps3emu

/-
  One step of a process, with what it shows; there is none
  where the process has stopped.
-/
abbrev Process (C L : Type) : Type :=
  C → Option (Option L × C)

namespace Process

variable {C D L V : Type}

/- The process goes from one state to another in `n` steps. -/
inductive Steps
    (step : Process C L) : Nat → C → List L → C → Prop where
  | zero (c : C) : Steps step 0 c [] c
  | succ
      {n : Nat} {c next final : C}
      {label : Option L} {trace : List L} :
      step c = some (label, next) →
      Steps step n next trace final →
      Steps step (n + 1) c (label.toList ++ trace) final

/- Some run from the state shows the trace so far. -/
def Shows (step : Process C L) (c : C) (trace : List L) :
    Prop :=
  ∃ n final, Steps step n c trace final

/-
  The process stops after it has shown the trace, with the
  given result.
-/
def Finishes
    (step : Process C L)
    (result : C → V)
    (c : C)
    (trace : List L)
    (value : V) :
    Prop :=
  ∃ n final,
    Steps step n c trace final ∧
      step final = none ∧ result final = value

namespace Steps

variable {step : Process C L} {c middle final : C} {n m : Nat}
variable {first second : List L}

theorem trans
    (hFirst : Steps step n c first middle)
    (hSecond : Steps step m middle second final) :
    Steps step (n + m) c (first ++ second) final := by
  induction hFirst with
  | zero => simpa using hSecond
  | succ hStep _ ih =>
      have hAll := Steps.succ hStep (ih hSecond)
      rw [← List.append_assoc] at hAll
      simpa [Nat.add_right_comm] using hAll

/- One silent step. -/
theorem silent
    {next : C}
    (hStep : step c = some (none, next)) :
    Steps step 1 c [] next :=
  .succ hStep (.zero next)

/- The longer of two runs from a state goes on from the shorter. -/
theorem split
    (hShort : Steps step n c first middle)
    (hLong : Steps step m c second final)
    (hLe : n ≤ m) :
    ∃ rest, second = first ++ rest ∧
      Steps step (m - n) middle rest final := by
  induction hShort generalizing m second with
  | zero => exact ⟨second, rfl, hLong⟩
  | @succ n c next middle label trace hStep _ ih =>
      cases hLong with
      | zero => omega
      | @succ m _ next' _ label' trace' hStep' hRest =>
          obtain ⟨rfl, rfl⟩ : label = label' ∧ next = next' := by
            simpa [hStep] using hStep'
          obtain ⟨rest, rfl, hSteps⟩ := ih hRest (by omega)
          refine ⟨rest, by rw [List.append_assoc], ?_⟩
          rwa [Nat.add_sub_add_right]

/- No step leaves a state in which the process has stopped. -/
theorem of_stopped
    (hStop : step c = none)
    (hSteps : Steps step n c first final) :
    n = 0 ∧ first = [] ∧ final = c := by
  cases hSteps with
  | zero => exact ⟨rfl, rfl, rfl⟩
  | succ hStep _ => simp [hStop] at hStep

/- Silent steps change nothing in what is shown. -/
theorem shows_iff
    (hSilent : Steps step n c [] middle)
    (trace : List L) :
    Shows step c trace ↔ Shows step middle trace := by
  constructor
  · rintro ⟨m, final, hSteps⟩
    rcases Nat.le_total n m with hLe | hLe
    · obtain ⟨rest, rfl, hRest⟩ := hSilent.split hSteps hLe
      exact ⟨_, _, hRest⟩
    · obtain ⟨rest, hNil, -⟩ := hSteps.split hSilent hLe
      obtain ⟨rfl, -⟩ := List.append_eq_nil_iff.mp hNil.symm
      exact ⟨0, middle, .zero middle⟩
  · rintro ⟨m, final, hSteps⟩
    exact ⟨_, _, hSilent.trans hSteps⟩

/- Nor in how a run ends. -/
theorem finishes_iff
    {result : C → V}
    (hSilent : Steps step n c [] middle)
    (trace : List L)
    (value : V) :
    Finishes step result c trace value ↔
      Finishes step result middle trace value := by
  constructor
  · rintro ⟨m, final, hSteps, hStop, hValue⟩
    rcases Nat.le_total n m with hLe | hLe
    · obtain ⟨rest, rfl, hRest⟩ := hSilent.split hSteps hLe
      exact ⟨_, _, hRest, hStop, hValue⟩
    · obtain ⟨rest, hNil, hRest⟩ := hSteps.split hSilent hLe
      obtain ⟨rfl, -⟩ := List.append_eq_nil_iff.mp hNil.symm
      obtain ⟨-, -, rfl⟩ := hRest.of_stopped hStop
      exact ⟨0, middle, .zero middle, hStop, hValue⟩
  · rintro ⟨m, final, hSteps, hStop, hValue⟩
    exact ⟨_, _, hSilent.trans hSteps, hStop, hValue⟩

end Steps

------------------------------------------------------------
-- Simulation
------------------------------------------------------------

variable {C D L V : Type}

/-
  The second process does what the first does: each step of
  the first is one or more steps of the second that show the
  same, and where the first stops the second stops with the
  same result, after silent steps at most.
-/
structure Simulates
    (stepC : Process C L)
    (stepD : Process D L)
    (resultC : C → V)
    (resultD : D → V)
    (rel : C → D → Prop) :
    Prop where
  step :
    ∀ c d label c', rel c d → stepC c = some (label, c') →
      ∃ n d', Steps stepD (n + 1) d label.toList d' ∧ rel c' d'
  stop :
    ∀ c d, rel c d → stepC c = none →
      ∃ n d', Steps stepD n d [] d' ∧ stepD d' = none ∧
        resultD d' = resultC c

namespace Simulates

variable {stepC : Process C L} {stepD : Process D L}
variable {resultC : C → V} {resultD : D → V}
variable {rel : C → D → Prop} {c : C} {d : D}

variable (hSim : Simulates stepC stepD resultC resultD rel)

include hSim

/- A run of the first process is a run of the second. -/
theorem forward
    {n : Nat} {trace : List L} {c' : C}
    (hSteps : Steps stepC n c trace c')
    (hRel : rel c d) :
    ∃ m d', Steps stepD m d trace d' ∧ rel c' d' := by
  induction hSteps generalizing d with
  | zero => exact ⟨0, d, .zero d, hRel⟩
  | succ hStep _ ih =>
      obtain ⟨k, e, hFirst, hRel'⟩ :=
        hSim.step _ _ _ _ hRel hStep
      obtain ⟨m, d', hRest, hFinal⟩ := ih hRel'
      exact ⟨_, d', hFirst.trans hRest, hFinal⟩

/-
  The induction is on the number of steps of the second
  process.  A run that ends inside the match of one step has
  shown what that step shows, or nothing yet.
-/
theorem shows_of_shows
    {n : Nat} {trace : List L} {d' : D}
    (hSteps : Steps stepD n d trace d')
    (hRel : rel c d) :
    Shows stepC c trace := by
  induction n using Nat.strongRecOn
    generalizing c d trace with
  | ind n ih =>
      cases hNext : stepC c with
      | none =>
          obtain ⟨m, e, hSilent, hStop, -⟩ :=
            hSim.stop c d hRel hNext
          have hShown :=
            (hSilent.shows_iff trace).mp ⟨n, d', hSteps⟩
          obtain ⟨k, final, hFrom⟩ := hShown
          obtain ⟨-, rfl, -⟩ := hFrom.of_stopped hStop
          exact ⟨0, c, .zero c⟩
      | some next =>
          obtain ⟨label, c'⟩ := next
          obtain ⟨m, e, hFirst, hRel'⟩ :=
            hSim.step c d label c' hRel hNext
          have hOne : Steps stepC 1 c label.toList c' := by
            simpa using Steps.succ hNext (.zero c')
          rcases Nat.le_total (m + 1) n with hLe | hLe
          · obtain ⟨rest, rfl, hRest⟩ :=
              hFirst.split hSteps hLe
            obtain ⟨k, final, hMore⟩ :=
              ih (n - (m + 1)) (by omega) hRest hRel'
            exact ⟨_, final, hOne.trans hMore⟩
          · obtain ⟨rest, hTrace, -⟩ := hSteps.split hFirst hLe
            rcases trace with _ | ⟨shown, trace⟩
            · exact ⟨0, c, .zero c⟩
            · cases label with
              | none => cases hTrace
              | some label =>
                  obtain ⟨rfl, hNil⟩ := List.cons.inj hTrace
                  obtain ⟨rfl, -⟩ :=
                    List.append_eq_nil_iff.mp hNil.symm
                  exact ⟨1, c', hOne⟩

/- The two processes show the same traces. -/
theorem shows_iff
    (hRel : rel c d)
    (trace : List L) :
    Shows stepC c trace ↔ Shows stepD d trace := by
  constructor
  · rintro ⟨n, c', hSteps⟩
    obtain ⟨m, d', hRun, -⟩ := hSim.forward hSteps hRel
    exact ⟨m, d', hRun⟩
  · rintro ⟨n, d', hSteps⟩
    exact hSim.shows_of_shows hSteps hRel

/- Where the second process stops, the first one has stopped. -/
theorem finishes_of_finishes
    {n : Nat} {trace : List L} {d' : D}
    (hSteps : Steps stepD n d trace d')
    (hStop : stepD d' = none)
    (hRel : rel c d) :
    Finishes stepC resultC c trace (resultD d') := by
  induction n using Nat.strongRecOn
    generalizing c d trace with
  | ind n ih =>
      cases hNext : stepC c with
      | none =>
          obtain ⟨m, e, hSilent, hStop', hValue⟩ :=
            hSim.stop c d hRel hNext
          obtain ⟨k, final, hFrom, -, hFinal⟩ :=
            (hSilent.finishes_iff trace (resultD d')).mp
              ⟨n, d', hSteps, hStop, rfl⟩
          obtain ⟨-, rfl, rfl⟩ := hFrom.of_stopped hStop'
          exact ⟨0, c, .zero c, hNext, by rw [← hFinal, hValue]⟩
      | some next =>
          obtain ⟨label, c'⟩ := next
          obtain ⟨m, e, hFirst, hRel'⟩ :=
            hSim.step c d label c' hRel hNext
          have hLe : m + 1 ≤ n := by
            by_contra hGt
            obtain ⟨rest, -, hRest⟩ :=
              hSteps.split hFirst (by omega)
            have hZero := (hRest.of_stopped hStop).1
            omega
          obtain ⟨rest, rfl, hRest⟩ := hFirst.split hSteps hLe
          obtain ⟨k, final, hMore, hFinal⟩ :=
            ih (n - (m + 1)) (by omega) hRest hRel'
          have hOne : Steps stepC 1 c label.toList c' := by
            simpa using Steps.succ hNext (.zero c')
          exact ⟨_, final, hOne.trans hMore, hFinal⟩

/- The two processes stop after the same traces, with one result. -/
theorem finishes_iff
    (hRel : rel c d)
    (trace : List L)
    (value : V) :
    Finishes stepC resultC c trace value ↔
      Finishes stepD resultD d trace value := by
  constructor
  · rintro ⟨n, c', hSteps, hStop, rfl⟩
    obtain ⟨m, d', hRun, hRel'⟩ := hSim.forward hSteps hRel
    obtain ⟨k, e, hSilent, hStop', hValue⟩ :=
      hSim.stop c' d' hRel' hStop
    have hAll := hRun.trans hSilent
    rw [List.append_nil] at hAll
    exact ⟨_, e, hAll, hStop', hValue⟩
  · rintro ⟨n, d', hSteps, hStop, rfl⟩
    exact hSim.finishes_of_finishes hSteps hStop hRel

end Simulates

end Process

end Ps3emu
