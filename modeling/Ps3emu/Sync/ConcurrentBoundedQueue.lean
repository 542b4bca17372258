import Ps3emu.Library.Monitor

/-
  The queue of `ConcurrentBoundedQueue.h`: senders wait while
  it is full, and receivers while it is empty.

  Key definitions include:
    * `BoundedQueue.act`, `BoundedQueue.queue`
    * `BoundedQueue.accepted`, `BoundedQueue.delivered`

  Key theorems include:
    * `BoundedQueue.keeps_length`
    * `BoundedQueue.items_of_step`
    * `BoundedQueue.not_missed_of_run`
-/

------------------------------------------------------------
-- Queues
------------------------------------------------------------

namespace Ps3emu

namespace BoundedQueue

open Transition

inductive Op (E : Type) where
  | enqueue (value : E)
  | dequeue
  | size
deriving DecidableEq

inductive Value (E : Type) where
  | queued
  | taken (value : E)
  | counted (number : Nat)
deriving DecidableEq

variable {T E : Type}

def act (capacity : Nat) (_ : T) :
    Op E → List E → Option (List E × Value E)
  | .enqueue value, items =>
      if items.length == capacity then none
      else some (items ++ [value], .queued)
  | .dequeue, [] => none
  | .dequeue, value :: rest => some (rest, .taken value)
  | .size, items => some (items, .counted items.length)

def notifies : Op E → Value E → Bool
  | .size, _ => false
  | _, _ => true

def queue (T E : Type) (capacity : Nat) :
    Monitor T (List E) (Op E) (Value E) where
  enter _ _ items := items
  act := act capacity
  notifies := notifies

abbrev State (T E : Type) := Monitor.State T (List E) (Op E)

abbrev Event (T E : Type) := Monitor.Event T (Op E) (Value E)

/- The value that a section puts into the queue. -/
def accepted (e : Event T E) : List E :=
  match e.op, e.value with
  | .enqueue value, some _ => [value]
  | _, _ => []

/- The value that a section takes out of it. -/
def delivered (e : Event T E) : List E :=
  match e.value with
  | some (.taken value) => [value]
  | _ => []

------------------------------------------------------------
-- Sections
------------------------------------------------------------

section Sections

variable {capacity : Nat} {thread : T} {value : Value E}
variable {items after : List E}

theorem act_enqueue
    {v : E}
    (hAct :
      act capacity thread (.enqueue v) items =
        some (after, value)) :
    items.length ≠ capacity ∧ after = items ++ [v] ∧
      value = .queued := by
  unfold act at hAct
  dsimp only at hAct
  split at hAct
  case isTrue => cases hAct
  case isFalse hRoom =>
    cases hAct
    exact ⟨fun hFull => hRoom (beq_iff_eq.mpr hFull), rfl, rfl⟩

theorem act_dequeue
    (hAct :
      act capacity thread .dequeue items =
        some (after, value)) :
    ∃ v, items = v :: after ∧ value = .taken v := by
  cases items with
  | nil => cases hAct
  | cons v rest =>
      cases hAct
      exact ⟨v, rfl, rfl⟩

/- The queue never holds more than its capacity. -/
theorem keeps_length :
    (queue T E capacity).Keeps
      (fun items => items.length ≤ capacity) where
  enter _ _ _ hLe := hLe
  act thread op items after value hLe hAct := by
    cases op with
    | enqueue v =>
        rcases @act_enqueue T E capacity thread _ _ _ _ hAct
          with ⟨hRoom, rfl, -⟩
        rw [List.length_append, List.length_singleton]
        omega
    | dequeue =>
        rcases @act_dequeue T E capacity thread _ _ _ hAct
          with ⟨v, rfl, -⟩
        rw [List.length_cons] at hLe
        omega
    | size =>
        cases hAct
        exact hLe

theorem items_of_act
    {op : Op E}
    (hAct : act capacity thread op items = some (after, value))
    (move : Monitor.Move) :
    items ++ accepted ⟨thread, op, move, some value⟩ =
      delivered ⟨thread, op, move, some value⟩ ++ after := by
  cases op with
  | enqueue v =>
      rcases act_enqueue hAct with ⟨-, rfl, rfl⟩
      rfl
  | dequeue =>
      rcases act_dequeue hAct with ⟨v, rfl, rfl⟩
      exact List.append_nil _
  | size =>
      cases hAct
      exact List.append_nil _

variable [DecidableEq T] [DecidableEq E]

omit [DecidableEq T] [DecidableEq E] in
theorem items_of_begins
    {s : State T E}
    {e : Event T E}
    {items : List E}
    (hBegins :
      Monitor.Begins (queue T E capacity) s e items) :
    items = s.shared := by
  cases hBegins with
  | call => rfl
  | wakeup => rfl

variable {s t : State T E}

/- A section takes from the front and puts at the end. -/
theorem items_of_step
    {e : Event T E}
    (hStep : (queue T E capacity).Step s e t) :
    s.shared ++ accepted e = delivered e ++ t.shared := by
  rcases e with ⟨thread, op, move, value⟩
  cases Monitor.effect_of_step hStep with
  | acts hBegins hAct hValue =>
      cases hValue
      rw [items_of_begins hBegins] at hAct
      exact items_of_act hAct move
  | sleeps hBegins _ hValue =>
      cases hValue
      rw [items_of_begins hBegins]
      cases op with
      | _ => exact List.append_nil _

/- The kind of value that a section returns. -/
def answers : Op E → Value E → Prop
  | .enqueue _, .queued => True
  | .dequeue, .taken _ => True
  | .size, .counted _ => True
  | _, _ => False

theorem answers_of_step
    {op : Op E}
    {move : Monitor.Move}
    (hStep :
      (queue T E capacity).Step s
        ⟨thread, op, move, some value⟩ t) :
    answers op value := by
  cases Monitor.effect_of_step hStep with
  | acts _ hAct hValue =>
      cases hValue
      cases op with
      | enqueue v =>
          rcases @act_enqueue T E capacity thread _ _ _ _ hAct
            with ⟨-, -, rfl⟩
          trivial
      | dequeue =>
          rcases @act_dequeue T E capacity thread _ _ _ hAct
            with ⟨v, -, rfl⟩
          trivial
      | size =>
          rcases Prod.mk.inj (Option.some.inj hAct) with
            ⟨-, rfl⟩
          trivial
  | sleeps _ _ hValue => cases hValue

/- The size is read without a change. -/
theorem size_of_step
    {move : Monitor.Move}
    {value : Option (Value E)}
    (hStep :
      (queue T E capacity).Step s
        ⟨thread, .size, move, value⟩ t) :
    value = some (.counted s.shared.length) ∧
      t.shared = s.shared := by
  cases Monitor.effect_of_step hStep with
  | acts hBegins hAct hValue =>
      rw [items_of_begins hBegins] at hAct
      change some (s.shared, Value.counted s.shared.length) = _
        at hAct
      rcases Prod.mk.inj (Option.some.inj hAct) with
        ⟨hItems, hCounted⟩
      rw [← hCounted] at hValue
      exact ⟨hValue, hItems.symm⟩
  | sleeps _ hNone => cases hNone

omit [DecidableEq T] [DecidableEq E] in
/- Every change of the queue notifies the waiting threads. -/
theorem notifying :
    (queue T E capacity).Notifying (fun _ => True) where
  enter _ _ _ _ _ _ _ hNone := hNone
  act thread op other op' items after value _ _ hAct hQuiet
      hNone := by
    cases op with
    | enqueue v => cases hQuiet
    | dequeue => cases hQuiet
    | size =>
        cases hAct
        exact hNone

/- No thread sleeps on while it could send or receive. -/
theorem not_missed_of_run
    {events : List (Event T E)}
    {t : State T E}
    (hRun :
      Run (queue T E capacity).Step (Monitor.start []) events
        t)
    {op : Op E}
    (hPhase : t.phase thread = .blocked op false) :
    act capacity thread op t.shared = none :=
  notifying.run ⟨fun _ _ _ h => h, fun _ _ _ _ _ h _ => h⟩
    trivial hRun _ _ hPhase

end Sections

end BoundedQueue

end Ps3emu
