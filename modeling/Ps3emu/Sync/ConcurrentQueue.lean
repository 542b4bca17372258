import Mathlib.Data.List.Nodup
import Ps3emu.Library.Monitor

/-
  The queue of `ConcurrentQueue.h`: stored values, and the
  threads that wait for one in a container that decides which
  of them is next.

  Key definitions include:
    * `Container`
    * `ConcurrentQueue.queue`
    * `ConcurrentQueue.accepted`, `ConcurrentQueue.delivered`
    * `ConcurrentQueue.Stuck`

  Key theorems include:
    * `ConcurrentQueue.keeps_length`
    * `ConcurrentQueue.notifying`
    * `ConcurrentQueue.not_stuck_of_run`
    * `ConcurrentQueue.queue_of_run`
-/

------------------------------------------------------------
-- Containers and Queues
------------------------------------------------------------

namespace Ps3emu

/-
  The template parameter `Q`: a sequence whose first element
  is its `top`.  A new element is put on top or leaves the
  top as it is.
-/
structure Container (α : Type) where
  push : List α → α → List α
  pop : List α → List α
  push_perm : ∀ items item,
    (push items item).Perm (item :: items)
  pop_perm : ∀ item items,
    (pop (item :: items)).Perm items
  head_push : ∀ items item,
    (push items item).head? = some item ∨
      (push items item).head? = items.head?

/- `class Queue`. -/
def Container.queue (α : Type) : Container α where
  push items item := items ++ [item]
  pop items := items.tail
  push_perm _ _ := List.perm_append_singleton _ _
  pop_perm _ _ := List.Perm.refl _
  head_push items item := by
    cases items with
    | nil => exact .inl rfl
    | cons first rest => exact .inr rfl

structure WaitingThread (T : Type) where
  id : T
  priority : BitVec 32
deriving DecidableEq

namespace ConcurrentQueue

inductive Op (E : Type) where
  | send (value : E) (nowait : Bool)
  | receive (priority : BitVec 32)
  | tryReceive (size : Nat)
  | drain
deriving DecidableEq

/-
  What an operation returns.  `drain` returns nothing; the
  values that it drops are recorded.
-/
inductive Value (E : Type) where
  | sent (accepted : Bool)
  | received (value : E)
  | taken (values : List E)
  | drained (values : List E)
deriving DecidableEq

structure Shared (T E : Type) where
  values : List E := []
  waiting : List (WaitingThread T) := []

variable {T E : Type} [DecidableEq T]

def enter
    (Q : Container (WaitingThread T))
    (thread : T) :
    Op E → Shared T E → Shared T E
  | .receive priority, s =>
      { s with waiting := Q.push s.waiting ⟨thread, priority⟩ }
  | _, s => s

/-
  The predicates of the waits, and what follows them.  The
  first test of `send` is made once, on entry: with at most
  `size` values, a send with `nowait` never comes to wait.
-/
def act
    (Q : Container (WaitingThread T))
    (size : Nat)
    (thread : T) :
    Op E → Shared T E → Option (Shared T E × Value E)
  | .send value nowait, s =>
      if nowait && s.values.length == size then
        some (s, .sent false)
      else if s.values.length < size then
        some
          ({ s with values := s.values ++ [value] },
            .sent true)
      else none
  | .receive _, s =>
      match s.values, s.waiting with
      | value :: rest, first :: _ =>
          if first.id = thread then
            some
              ({ values := rest
                 waiting := Q.pop s.waiting },
                .received value)
          else none
      | _, _ => none
  | .tryReceive number, s =>
      some
        ({ s with values := s.values.drop number },
          .taken (s.values.take number))
  | .drain, s =>
      some ({ s with values := [] }, .drained s.values)

/- Only a send that is not accepted notifies nobody. -/
def notifies : Op E → Value E → Bool
  | _, .sent accepted => accepted
  | _, _ => true

def queue
    (Q : Container (WaitingThread T))
    (size : Nat) :
    Monitor T (Shared T E) (Op E) (Value E) where
  enter := enter Q
  act := act Q size
  notifies := notifies

abbrev State (T E : Type) :=
  Monitor.State T (Shared T E) (Op E)

abbrev Event (T E : Type) := Monitor.Event T (Op E) (Value E)

/- The value that a section stores. -/
def accepted (e : Event T E) : List E :=
  match e.op, e.value with
  | .send value _, some (.sent true) => [value]
  | _, _ => []

/- The values that a section takes out. -/
def delivered (e : Event T E) : List E :=
  match e.value with
  | some (.received value) => [value]
  | some (.taken values) => values
  | some (.drained values) => values
  | _ => []

/- The priority with which a thread waits in `receive`. -/
def receives : Monitor.Phase (Op E) → Option (BitVec 32)
  | .blocked (.receive priority) _ => some priority
  | _ => none

/-
  A value is stored, and threads sleep in `receive` of which
  none has been notified.
-/
def Stuck (s : State T E) : Prop :=
  s.shared.values ≠ [] ∧
    (∃ thread, receives (s.phase thread) ≠ none) ∧
      ∀ thread op notified,
        s.phase thread = .blocked op notified →
          notified = false

------------------------------------------------------------
-- Values
------------------------------------------------------------

section Queue

variable (Q : Container (WaitingThread T)) (size : Nat)

omit [DecidableEq T] in
theorem values_enter
    (thread : T)
    (op : Op E)
    (s : Shared T E) :
    (enter Q thread op s).values = s.values := by
  cases op with
  | _ => rfl

variable {Q size} {thread : T} {priority : BitVec 32}

/- The cases in which a receiver acts. -/
theorem act_receive
    {s t : Shared T E}
    {value : Value E}
    (hAct :
      act Q size thread (.receive priority) s =
        some (t, value)) :
    ∃ first rest v tail,
      s.values = v :: tail ∧ s.waiting = first :: rest ∧
        first.id = thread ∧ value = .received v ∧
          t = ⟨tail, Q.pop (first :: rest)⟩ := by
  unfold act at hAct
  dsimp only at hAct
  split at hAct
  case h_1 v tail first rest hValues hWaiting =>
    split at hAct
    case isTrue hId =>
      cases hAct
      exact
        ⟨first, rest, v, tail, hValues, hWaiting, hId, rfl,
          by rw [hWaiting]⟩
    case isFalse => cases hAct
  case h_2 => cases hAct

theorem act_send
    {v : E}
    {nowait : Bool}
    {s t : Shared T E}
    {value : Value E}
    (hAct :
      act Q size thread (.send v nowait) s = some (t, value)) :
    (t = s ∧ value = .sent false) ∨
      (s.values.length < size ∧
        t = { s with values := s.values ++ [v] } ∧
          value = .sent true) := by
  unfold act at hAct
  dsimp only at hAct
  split at hAct
  case isTrue =>
    cases hAct
    exact .inl ⟨rfl, rfl⟩
  case isFalse =>
    split at hAct
    case isTrue hLt =>
      cases hAct
      exact .inr ⟨hLt, rfl, rfl⟩
    case isFalse => cases hAct

/- A value is stored only where there is room. -/
theorem keeps_length :
    (queue (E := E) Q size).Keeps
      (fun s => s.values.length ≤ size) where
  enter thread op s hLe := by
    change (enter Q thread op s).values.length ≤ size
    rw [values_enter]
    exact hLe
  act thread op s t value hLe hAct := by
    cases op with
    | send v nowait =>
        rcases @act_send T E _ Q size thread v nowait s t value
          hAct with
          ⟨rfl, -⟩ | ⟨hLt, rfl, -⟩
        · exact hLe
        · dsimp only
          rw [List.length_append, List.length_singleton]
          omega
    | receive priority =>
        rcases @act_receive T E _ Q size thread priority s t value
          hAct with
          ⟨first, rest, v, tail, hValues, -, -, -, rfl⟩
        rw [hValues, List.length_cons] at hLe
        dsimp only
        omega
    | tryReceive number =>
        cases hAct
        dsimp only
        rw [List.length_drop]
        omega
    | drain =>
        cases hAct
        exact Nat.zero_le _

variable {op : Op E} {value : Value E}

/- A section moves values from the front, and to the end. -/
theorem values_of_act
    {s t : Shared T E}
    (hAct : act Q size thread op s = some (t, value))
    (move : Monitor.Move) :
    s.values ++ accepted ⟨thread, op, move, some value⟩ =
      delivered ⟨thread, op, move, some value⟩ ++ t.values := by
  cases op with
  | send v nowait =>
      rcases act_send hAct with
        ⟨rfl, rfl⟩ | ⟨-, rfl, rfl⟩
      · exact List.append_nil _
      · rfl
  | receive priority =>
      rcases act_receive hAct with
        ⟨first, rest, v, tail, hValues, -, -, rfl, rfl⟩
      rw [hValues]
      exact List.append_nil _
  | tryReceive number =>
      cases hAct
      change s.values ++ [] = _
      rw [List.append_nil]
      exact (List.take_append_drop number s.values).symm
  | drain =>
      cases hAct
      rfl

variable [DecidableEq E] {e : Event T E}

theorem values_of_step
    {s t : State T E}
    (hStep : (queue Q size).Step s e t) :
    s.shared.values ++ accepted e =
      delivered e ++ t.shared.values := by
  have hBegins :
      ∀ shared, Monitor.Begins (queue Q size) s e shared →
        shared.values = s.shared.values := by
    intro shared hBegins
    cases hBegins with
    | call => exact values_enter _ _ _ _
    | wakeup => rfl
  rcases e with ⟨thread, op, move, value⟩
  cases Monitor.effect_of_step hStep with
  | acts hBegin hAct hValue =>
      cases hValue
      rw [← hBegins _ hBegin]
      exact values_of_act hAct move
  | sleeps hBegin _ hValue =>
      cases hValue
      rw [hBegins _ hBegin]
      cases op with
      | _ => exact List.append_nil _

------------------------------------------------------------
-- Waiting Threads
------------------------------------------------------------

/-
  The waiting list and the phases agree: `receiving` gives the
  priority with which a thread waits.
-/
structure Listed
    (waiting : List (WaitingThread T))
    (receiving : T → Option (BitVec 32)) : Prop where
  nodup : (waiting.map WaitingThread.id).Nodup
  mem :
    ∀ thread priority,
      ⟨thread, priority⟩ ∈ waiting ↔
        receiving thread = some priority

omit [DecidableEq T] [DecidableEq E] in
theorem Listed.perm
    {waiting waiting' : List (WaitingThread T)}
    {receiving : T → Option (BitVec 32)}
    (hListed : Listed waiting receiving)
    (hPerm : waiting'.Perm waiting) :
    Listed waiting' receiving where
  nodup := (hPerm.map _).nodup_iff.mpr hListed.nodup
  mem thread priority := by
    rw [hPerm.mem_iff]
    exact hListed.mem thread priority

omit [DecidableEq E] in
theorem Listed.cons
    {waiting : List (WaitingThread T)}
    {receiving : T → Option (BitVec 32)}
    (hListed : Listed waiting receiving)
    (hThread : receiving thread = none)
    (priority : BitVec 32) :
    Listed (⟨thread, priority⟩ :: waiting)
      (Function.update receiving thread (some priority)) where
  nodup := by
    rw [List.map_cons, List.nodup_cons]
    refine ⟨?_, hListed.nodup⟩
    intro hMem
    rcases List.mem_map.mp hMem with ⟨w, hw, hId⟩
    have hReceiving :=
      (hListed.mem w.id w.priority).mp hw
    rw [hId, hThread] at hReceiving
    cases hReceiving
  mem other p := by
    rw [List.mem_cons, hListed.mem]
    by_cases hOther : other = thread
    · rw [hOther, Function.update_self, hThread]
      grind
    · rw [Function.update_of_ne hOther]
      grind

omit [DecidableEq E] in
theorem Listed.tail
    {first : WaitingThread T}
    {rest : List (WaitingThread T)}
    {receiving : T → Option (BitVec 32)}
    (hListed : Listed (first :: rest) receiving) :
    Listed rest
      (Function.update receiving first.id none) where
  nodup := (List.nodup_cons.mp hListed.nodup).2
  mem other p := by
    by_cases hOther : other = first.id
    · have hNotMem := (List.nodup_cons.mp hListed.nodup).1
      rw [hOther, Function.update_self]
      constructor
      · intro hMem
        exact absurd (List.mem_map.mpr ⟨_, hMem, rfl⟩) hNotMem
      · intro hNone
        cases hNone
    · rw [Function.update_of_ne hOther, ← hListed.mem,
        List.mem_cons]
      constructor
      · exact .inr
      · intro hMem
        rcases hMem with hFirst | hRest
        · rw [← hFirst] at hOther
          exact absurd rfl hOther
        · exact hRest

/- The priorities with which the threads of a state wait. -/
def receiving (s : State T E) (thread : T) :
    Option (BitVec 32) :=
  receives (s.phase thread)

omit [DecidableEq T] [DecidableEq E] in
theorem receives_notify
    (phase : Monitor.Phase (Op E)) :
    receives phase.notify = receives phase := by
  cases phase with
  | outside => rfl
  | blocked op notified =>
      cases op with
      | _ => rfl

omit [DecidableEq T] [DecidableEq E] in
theorem enter_of_receives
    (hOp : receives (.blocked op false) = none)
    (thread : T)
    (s : Shared T E) :
    enter Q thread op s = s := by
  cases op with
  | receive priority => cases hOp
  | send v nowait => rfl
  | tryReceive number => rfl
  | drain => rfl

omit [DecidableEq T] [DecidableEq E] in
theorem blocked_of_receiving
    {s : State T E}
    (hReceiving : receiving s thread = some priority) :
    ∃ notified,
      s.phase thread =
        .blocked (.receive priority) notified := by
  unfold receiving receives at hReceiving
  split at hReceiving
  case h_1 p notified hPhase =>
    cases hReceiving
    exact ⟨notified, hPhase⟩
  case h_2 => cases hReceiving

omit [DecidableEq E] in
/- A thread that tries to act is listed if it receives. -/
theorem listed_of_begins
    {s : State T E}
    (hListed : Listed s.shared.waiting (receiving s))
    {shared : Shared T E}
    (hBegins : Monitor.Begins (queue Q size) s e shared) :
    Listed shared.waiting
      (Function.update (receiving s) e.thread
        (receives (.blocked e.op false))) := by
  cases hBegins with
  | call hMove hPhase =>
      have hNone : receiving s e.thread = none := by
        unfold receiving
        rw [hPhase]
        rfl
      cases hReceives : receives (.blocked e.op false) with
      | none =>
          rw [← hNone, Function.update_eq_self]
          change Listed (enter Q e.thread e.op s.shared).waiting _
          rw [enter_of_receives hReceives]
          exact hListed
      | some priority =>
          rcases e with ⟨thread, op, move, value⟩
          cases op with
          | receive p =>
              cases hReceives
              exact
                (hListed.cons hNone _).perm (Q.push_perm _ _)
          | send v nowait => cases hReceives
          | tryReceive number => cases hReceives
          | drain => cases hReceives
  | wakeup hMove hPhase =>
      have hSame :
          receives (.blocked e.op false) =
            receiving s e.thread := by
        unfold receiving
        rw [hPhase]
        cases e.op with
        | _ => rfl
      rw [hSame, Function.update_eq_self]
      exact hListed

omit [DecidableEq E] in
/- A receiver that acts leaves the list. -/
theorem listed_of_act
    {s t : Shared T E}
    {receiving : T → Option (BitVec 32)}
    (hListed :
      Listed s.waiting
        (Function.update receiving thread
          (receives (.blocked op false))))
    (hAct : act Q size thread op s = some (t, value)) :
    Listed t.waiting
      (Function.update receiving thread none) := by
  cases op with
  | send v nowait =>
      rcases act_send hAct with
        ⟨rfl, -⟩ | ⟨-, rfl, -⟩
      · exact hListed
      · exact hListed
  | receive priority =>
      rcases act_receive hAct with
        ⟨first, rest, v, tail, -, hWaiting, rfl, -, rfl⟩
      rw [hWaiting] at hListed
      have hTail := hListed.tail
      rw [Function.update_idem] at hTail
      exact hTail.perm (Q.pop_perm _ _)
  | tryReceive number =>
      cases hAct
      exact hListed
  | drain =>
      cases hAct
      exact hListed

omit [DecidableEq E] in
theorem receiving_of_acts
    {s t : State T E}
    (hOutside : t.phase e.thread = .outside)
    (hRest :
      ∀ other, other ≠ e.thread →
        t.phase other =
          if notifies e.op value then
            (s.phase other).notify
          else s.phase other) :
    receiving t =
      Function.update (receiving s) e.thread none := by
  funext other
  unfold receiving
  by_cases hOther : other = e.thread
  · rw [hOther, Function.update_self, hOutside]
    rfl
  · rw [Function.update_of_ne hOther, hRest other hOther]
    split
    case isTrue => exact receives_notify _
    case isFalse => rfl

omit [DecidableEq E] in
theorem receiving_of_sleeps
    {s t : State T E}
    (hBlocked : t.phase e.thread = .blocked e.op false)
    (hRest :
      ∀ other, other ≠ e.thread →
        t.phase other = s.phase other) :
    receiving t =
      Function.update (receiving s) e.thread
        (receives (.blocked e.op false)) := by
  funext other
  unfold receiving
  by_cases hOther : other = e.thread
  · rw [hOther, Function.update_self, hBlocked]
  · rw [Function.update_of_ne hOther, hRest other hOther]

theorem listed_of_step
    {s t : State T E}
    (hListed : Listed s.shared.waiting (receiving s))
    (hStep : (queue Q size).Step s e t) :
    Listed t.shared.waiting (receiving t) := by
  cases Monitor.effect_of_step hStep with
  | acts hBegins hAct _ hOutside hRest =>
      rw [receiving_of_acts hOutside hRest]
      exact
        listed_of_act (listed_of_begins hListed hBegins) hAct
  | sleeps hBegins _ _ hBlocked hRest =>
      rw [receiving_of_sleeps hBlocked hRest]
      exact listed_of_begins hListed hBegins

variable {t : State T E}

theorem listed_of_run
    {events : List (Event T E)}
    (hRun :
      Transition.Run (queue Q size).Step
        (Monitor.start {}) events t) :
    Listed t.shared.waiting (receiving t) := by
  have hStart :
      Listed ([] : List (WaitingThread T))
        (receiving (Monitor.start {} : State T E)) := by
    refine ⟨List.nodup_nil, ?_⟩
    intro thread priority
    constructor
    · intro hMem
      cases hMem
    · intro hSome
      cases hSome
  exact
    hRun.invariant
      (fun s => Listed s.shared.waiting (receiving s))
      (fun _ _ _ hListed hStep =>
        listed_of_step hListed hStep)
      hStart

------------------------------------------------------------
-- Wake-Ups and Runs
------------------------------------------------------------

omit [DecidableEq E] in
/- When a receiver has to wait. -/
theorem receive_waits
    {s : Shared T E} :
    act Q size thread (.receive priority) s = none ↔
      (s.values ≠ [] →
        ∀ first ∈ s.waiting.head?, first.id ≠ thread) := by
  rcases s with ⟨values, waiting⟩
  unfold act
  cases values with
  | nil => simp
  | cons value rest =>
      cases waiting with
      | nil => simp
      | cons first others => simp

omit [DecidableEq E] in
theorem send_waits
    {v : E}
    {nowait : Bool}
    {s : Shared T E} :
    act Q size thread (.send v nowait) s = none ↔
      (nowait && s.values.length == size) = false ∧
        size ≤ s.values.length := by
  unfold act
  dsimp only
  split
  case isTrue hFull => simp [hFull]
  case isFalse hFull =>
    split
    case isTrue hLt =>
      simp [hLt]
    case isFalse hLe =>
      simp only [Bool.not_eq_true] at hFull
      simp [hFull, Nat.not_lt.mp hLe]

omit [DecidableEq E] in
theorem eq_of_quiet
    {s t : Shared T E}
    (hAct : act Q size thread op s = some (t, value))
    (hQuiet : notifies op value = false) :
    t = s := by
  cases op with
  | send v nowait =>
      rcases act_send hAct with
        ⟨rfl, -⟩ | ⟨-, -, rfl⟩
      · rfl
      · cases hQuiet
  | receive priority =>
      rcases act_receive hAct with
        ⟨first, rest, v, tail, -, -, -, rfl, -⟩
      cases hQuiet
  | tryReceive number =>
      cases hAct
      cases hQuiet
  | drain =>
      cases hAct
      cases hQuiet

omit [DecidableEq E] in
/- A new waiting thread does not let another one act. -/
theorem waits_enter
    {thread other : T}
    {op op' : Op E}
    {s : Shared T E}
    (hOther : other ≠ thread)
    (hNone : act Q size other op' s = none) :
    act Q size other op' (enter Q thread op s) = none := by
  cases op' with
  | send v nowait =>
      rw [send_waits, values_enter]
      exact send_waits.mp hNone
  | receive p =>
      have hOld := receive_waits.mp hNone
      rw [receive_waits, values_enter]
      intro hValues first hFirst
      cases op with
      | receive priority =>
          change first ∈ (Q.push s.waiting _).head? at hFirst
          rcases Q.head_push s.waiting ⟨thread, priority⟩ with
            hNew | hSame
          · rw [hNew] at hFirst
            cases hFirst
            exact hOther.symm
          · rw [hSame] at hFirst
            exact hOld hValues first hFirst
      | send v nowait => exact hOld hValues first hFirst
      | tryReceive number => exact hOld hValues first hFirst
      | drain => exact hOld hValues first hFirst
  | tryReceive number => cases hNone
  | drain => cases hNone

omit [DecidableEq E] in
theorem notifying :
    (queue (E := E) Q size).Notifying (fun _ => True) where
  enter _ _ _ _ _ _ hOther hNone := waits_enter hOther hNone
  act _ _ _ _ _ _ _ _ _ hAct hQuiet hNone := by
    rw [eq_of_quiet hAct hQuiet]
    exact hNone

/-
  The thread on top of the waiting threads would receive a
  stored value, so it does not sleep without a notification.
-/
theorem not_stuck_of_run
    {events : List (Event T E)}
    (hRun :
      Transition.Run (queue Q size).Step
        (Monitor.start {}) events t) :
    ¬ Stuck t := by
  rintro ⟨hValues, ⟨thread, hThread⟩, hQuiet⟩
  have hListed := listed_of_run hRun
  have hAwake :=
    notifying.run ⟨fun _ _ _ h => h, fun _ _ _ _ _ h _ => h⟩
      trivial hRun
  rcases Option.ne_none_iff_exists'.mp hThread with
    ⟨priority, hPriority⟩
  have hMem := (hListed.mem thread priority).mpr hPriority
  cases hWaiting : t.shared.waiting with
  | nil =>
      rw [hWaiting] at hMem
      cases hMem
  | cons first rest =>
      have hFirst :=
        (hListed.mem first.id first.priority).mp
          (by rw [hWaiting]; exact List.mem_cons_self)
      rcases blocked_of_receiving hFirst with
        ⟨notified, hPhase⟩
      rw [hQuiet _ _ _ hPhase] at hPhase
      have hNone := hAwake _ _ hPhase
      refine
        @receive_waits T E _ Q size first.id first.priority
          t.shared |>.mp hNone hValues first ?_ rfl
      rw [hWaiting]
      rfl

/-
  The values never exceed the size, each accepted value is
  delivered once and in order, and no stored value is missed.
-/
theorem queue_of_run
    (Q : Container (WaitingThread T))
    (size : Nat)
    (events : List (Event T E))
    (t : State T E)
    (hRun :
      Transition.Run (queue Q size).Step
        (Monitor.start {}) events t) :
    t.shared.values.length ≤ size ∧
      events.flatMap accepted =
          events.flatMap delivered ++ t.shared.values ∧
        ¬ Stuck t :=
  ⟨keeps_length.run (Nat.zero_le _) hRun,
    hRun.conserved (fun s => s.shared.values) accepted
      delivered (fun _ _ _ hStep => values_of_step hStep),
    not_stuck_of_run hRun⟩

/- A thread sleeps in `receive` until another one sends. -/
theorem queue_of_run_receive :
    ∃ t : State Nat Nat,
      t.shared.values.length ≤ 4 ∧
        List.flatMap accepted
              [(⟨1, .receive 5, .call, none⟩ : Event Nat Nat),
                ⟨2, .send 7 true, .call, some (.sent true)⟩,
                ⟨1, .receive 5, .wakeup,
                  some (.received 7)⟩] =
            List.flatMap delivered
                [(⟨1, .receive 5, .call, none⟩ : Event Nat Nat),
                  ⟨2, .send 7 true, .call, some (.sent true)⟩,
                  ⟨1, .receive 5, .wakeup,
                    some (.received 7)⟩] ++
              t.shared.values ∧
          ¬ Stuck t :=
  ⟨_,
    queue_of_run (Container.queue _) 4 _ _
      (.snoc
        (.snoc (.snoc .nil (by exact rfl)) (by exact rfl))
        (by exact rfl))⟩

end Queue

end ConcurrentQueue

end Ps3emu
