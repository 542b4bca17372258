import Ps3emu.Library.Transition

/-
  Computations that may fail, and loops over them seen as
  runs.

  Key definitions include:
    * `Fallible.Avoids`, `Fallible.Fails`
    * `Fallible.Matches`

  Key theorems include:
    * `Fallible.bind_eq_ok`, `Fallible.map_eq_ok`
    * `Fallible.forM_eq_ok`
    * `Fallible.run_of_foldlM`
    * `Fallible.foldlM_isOk`
    * `Fallible.foldlM_eq_ok`
    * `Fallible.Avoids.bind`, `Fallible.Avoids.foldlM`
    * `Fallible.Fails.foldlM`
    * `Fallible.guard_eq_some_iff`
-/

namespace Ps3emu

namespace Fallible

variable {ε α β S E : Type} {x : Except ε α}

theorem bind_eq_ok
    {f : α → Except ε β}
    {b : β} :
    (x >>= f) = .ok b ↔ ∃ a, x = .ok a ∧ f a = .ok b := by
  cases x with
  | error e =>
      constructor
      · intro hOk
        cases hOk
      · rintro ⟨a, hOk, -⟩
        cases hOk
  | ok a =>
      constructor
      · intro hOk
        exact ⟨a, rfl, hOk⟩
      · rintro ⟨a', hEq, hOk⟩
        cases hEq
        exact hOk

theorem map_eq_ok
    {f : α → β}
    {b : β} :
    x.map f = .ok b ↔ ∃ a, x = .ok a ∧ f a = b := by
  cases x with
  | error e =>
      constructor
      · intro hOk
        cases hOk
      · rintro ⟨a, hOk, -⟩
        cases hOk
  | ok a =>
      constructor
      · intro hOk
        cases hOk
        exact ⟨a, rfl, rfl⟩
      · rintro ⟨a', hEq, rfl⟩
        cases hEq
        rfl

/- A loop of checks succeeds if every check does. -/
theorem forM_eq_ok
    {f : E → Except ε Unit}
    {events : List E} :
    events.forM f = .ok ⟨⟩ ↔
      ∀ e ∈ events, f e = .ok ⟨⟩ := by
  induction events with
  | nil =>
      constructor
      · intro _ e he
        cases he
      · intro _
        rfl
  | cons e rest ih =>
      rw [List.forM, List.forall_mem_cons, ← ih]
      constructor
      · intro hLoop
        rcases bind_eq_ok.mp hLoop with ⟨_, hFirst, hRest⟩
        exact ⟨hFirst, hRest⟩
      · rintro ⟨hFirst, hRest⟩
        exact bind_eq_ok.mpr ⟨⟨⟩, hFirst, hRest⟩

variable {f : S → E → Except ε S} {events : List E}

/- A loop that succeeds is a run of its body. -/
theorem run_of_foldlM
    {s t : S}
    (hLoop : events.foldlM f s = .ok t) :
    Transition.Run (fun s e t => f s e = .ok t) s events
      t := by
  induction events generalizing s with
  | nil =>
      cases hLoop
      exact .nil
  | cons e rest ih =>
      rw [List.foldlM_cons] at hLoop
      rcases bind_eq_ok.mp hLoop with ⟨u, hFirst, hRest⟩
      exact .cons hFirst (ih hRest)

/-
  A loop succeeds if its body does in every state in which
  an invariant holds, and keeps the invariant.
-/
theorem foldlM_isOk
    {f : S → E → Except ε S}
    {I : S → Prop}
    {events : List E}
    (hBody :
      ∀ s, I s → ∀ e ∈ events, ∃ t, f s e = .ok t ∧ I t)
    {s : S}
    (hStart : I s) :
    ∃ t, events.foldlM f s = .ok t ∧ I t := by
  induction events generalizing s with
  | nil => exact ⟨s, rfl, hStart⟩
  | cons e rest ih =>
      rcases hBody s hStart e List.mem_cons_self with
        ⟨u, hFirst, hNext⟩
      rcases ih
        (fun v hv d hd =>
          hBody v hv d (List.mem_cons_of_mem _ hd)) hNext with
        ⟨t, hRest, hEnd⟩
      refine ⟨t, ?_, hEnd⟩
      rw [List.foldlM_cons]
      exact bind_eq_ok.mpr ⟨u, hFirst, hRest⟩

/- A loop whose rounds all succeed is a plain loop. -/
theorem foldlM_eq_ok
    {f : S → E → Except ε S}
    {g : S → E → S}
    {events : List E}
    (hBody : ∀ e ∈ events, ∀ s, f s e = .ok (g s e))
    (s : S) :
    events.foldlM f s = .ok (events.foldl g s) := by
  induction events generalizing s with
  | nil => rfl
  | cons e rest ih =>
      rw [List.foldlM_cons, hBody e List.mem_cons_self]
      exact ih (fun d hd => hBody d (List.mem_cons_of_mem _ hd))
        (g s e)

/- A loop with more failures succeeds in fewer cases. -/
theorem foldlM_transfer
    {ε' : Type}
    {g : S → E → Except ε' S}
    (hBody : ∀ s e t, f s e = .ok t → g s e = .ok t)
    {s t : S}
    (hLoop : events.foldlM f s = .ok t) :
    events.foldlM g s = .ok t := by
  induction events generalizing s with
  | nil =>
      cases hLoop
      rfl
  | cons e rest ih =>
      rw [List.foldlM_cons] at hLoop ⊢
      rcases bind_eq_ok.mp hLoop with ⟨u, hFirst, hRest⟩
      exact
        bind_eq_ok.mpr ⟨u, hBody s e u hFirst, ih hRest⟩

------------------------------------------------------------
-- Failures That Do Not Occur
------------------------------------------------------------

/- It does not fail with an error of this kind. -/
def Avoids (P : ε → Prop) (x : Except ε α) : Prop :=
  ∀ e, x = .error e → ¬ P e

variable {P : ε → Prop}

theorem Avoids.ok (a : α) : Avoids P (.ok a) := by
  intro e hError
  cases hError

theorem Avoids.error
    {e : ε}
    (hNot : ¬ P e) :
    Avoids P (.error e : Except ε α) := by
  intro e' hError
  cases hError
  exact hNot

theorem Avoids.bind
    {f : α → Except ε β}
    (hFirst : Avoids P x)
    (hNext : ∀ a, x = .ok a → Avoids P (f a)) :
    Avoids P (x >>= f) := by
  cases x with
  | error e =>
      intro e' hError
      cases hError
      exact hFirst e rfl
  | ok a => exact hNext a rfl

/- A loop avoids what its body does under an invariant. -/
theorem Avoids.foldlM
    (I : S → Prop)
    (hBody :
      ∀ s, I s → ∀ e ∈ events,
        Avoids P (f s e) ∧ ∀ t, f s e = .ok t → I t)
    {s : S}
    (hStart : I s) :
    Avoids P (events.foldlM f s) := by
  induction events generalizing s with
  | nil => exact .ok s
  | cons e rest ih =>
      rcases hBody s hStart e List.mem_cons_self with
        ⟨hFirst, hNext⟩
      rw [List.foldlM_cons]
      apply hFirst.bind
      intro t hStep
      apply ih
      · intro v hv d hd
        exact hBody v hv d (List.mem_cons_of_mem _ hd)
      · exact hNext t hStep

theorem Avoids.mapM
    {f : E → Except ε β}
    (hBody : ∀ e ∈ events, Avoids P (f e)) :
    Avoids P (events.mapM f) := by
  induction events with
  | nil => exact .ok []
  | cons e rest ih =>
      rw [List.mapM_cons]
      apply (hBody e List.mem_cons_self).bind
      intro b _
      apply Avoids.bind
      · exact ih (fun d hd =>
          hBody d (List.mem_cons_of_mem _ hd))
      · intro bs _
        exact .ok (b :: bs)

/- It fails with an error of this kind. -/
def Fails (P : ε → Prop) (x : Except ε α) : Prop :=
  ∃ e, x = .error e ∧ P e

theorem Fails.bind
    (hFails : Fails P x)
    (f : α → Except ε β) :
    Fails P (x >>= f) := by
  rcases hFails with ⟨e, rfl, hError⟩
  exact ⟨e, rfl, hError⟩

theorem Fails.of_bind
    {a : α}
    {f : α → Except ε β}
    (hFirst : x = .ok a)
    (hNext : Fails P (f a)) :
    Fails P (x >>= f) := by
  rw [hFirst]
  exact hNext

/- One round that fails whatever came before it. -/
theorem Fails.foldlM
    (I : S → Prop)
    (hBody :
      ∀ s, I s → ∀ e ∈ events,
        Fails P (f s e) ∨ ∃ t, f s e = .ok t ∧ I t)
    {e : E}
    (hMem : e ∈ events)
    (hFails : ∀ s, I s → Fails P (f s e))
    {s : S}
    (hStart : I s) :
    Fails P (events.foldlM f s) := by
  induction events generalizing s with
  | nil => cases hMem
  | cons d rest ih =>
      rw [List.foldlM_cons]
      rcases hBody s hStart d List.mem_cons_self with
        hFirst | ⟨t, hFirst, hNext⟩
      · exact hFirst.bind _
      · rcases List.mem_cons.mp hMem with rfl | hRest
        · exact (hFails s hStart).bind _
        · apply Fails.of_bind hFirst
          apply ih _ hRest hNext
          intro v hv c hc
          exact hBody v hv c (List.mem_cons_of_mem _ hc)

------------------------------------------------------------
-- Two Computations
------------------------------------------------------------

variable {γ δ : Type}

/- Both fail alike, or both succeed with related values. -/
def Matches (r : α → β → Prop) :
    Except ε α → Except ε β → Prop
  | .ok a, .ok b => r a b
  | .error e, .error f => e = f
  | _, _ => False

theorem Matches.refl
    {r : α → α → Prop}
    (hRefl : ∀ a, r a a)
    (x : Except ε α) :
    Matches r x x := by
  cases x with
  | error e => exact rfl
  | ok a => exact hRefl a

variable {y : Except ε β}

theorem Matches.bind
    {r : α → β → Prop}
    {q : γ → δ → Prop}
    {f : α → Except ε γ}
    {g : β → Except ε δ}
    (hMatches : Matches r x y)
    (hNext : ∀ a b, r a b → Matches q (f a) (g b)) :
    Matches q (x >>= f) (y >>= g) := by
  cases x with
  | error e =>
      cases y with
      | error e' => exact hMatches
      | ok b => cases hMatches
  | ok a =>
      cases y with
      | error e' => cases hMatches
      | ok b => exact hNext a b hMatches

/- The first of the computations goes on alone. -/
theorem Matches.bind_left
    {r : α → β → Prop}
    {q : γ → β → Prop}
    {f : α → Except ε γ}
    (hMatches : Matches r x y)
    (hNext :
      ∀ a b, x = .ok a → r a b → Matches q (f a) (.ok b)) :
    Matches q (x >>= f) y := by
  cases x with
  | error e =>
      cases y with
      | error e' => exact hMatches
      | ok b => cases hMatches
  | ok a =>
      cases y with
      | error e' => cases hMatches
      | ok b => exact hNext a b rfl hMatches

theorem Matches.of_map
    {r : γ → β → Prop}
    {f : α → γ}
    (hMatches : Matches (fun a b => r (f a) b) x y) :
    Matches r (x.map f) y := by
  cases x with
  | error e =>
      cases y with
      | error e' => exact hMatches
      | ok b => cases hMatches
  | ok a =>
      cases y with
      | error e' => cases hMatches
      | ok b => exact hMatches

------------------------------------------------------------
-- Guards
------------------------------------------------------------

section Guard

variable {q : Prop} [Decidable q]

/- A guard has a result if what it checks holds. -/
theorem guard_eq_some_iff {u : Unit} :
    (guard q : Option Unit) = some u ↔ q := by
  by_cases hQ : q
  · simp [guard, hQ]
  · simp [guard, hQ]

theorem isSome_guard_bind (rest : Unit → Option α) :
    ((guard q : Option Unit).bind rest).isSome =
      (decide q && (rest ()).isSome) := by
  by_cases hQ : q
  · simp [guard, hQ]
  · simp [guard, hQ]

end Guard

theorem isSome_bind_some
    (o : Option α)
    (f : α → β) :
    (o.bind (fun a => some (f a))).isSome = o.isSome := by
  cases o <;> rfl

end Fallible

end Ps3emu
