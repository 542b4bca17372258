import Mathlib.Order.Basic
import Mathlib.Order.Nat
import Ps3emu.Library.BinaryHeap
import Ps3emu.Sync.ConcurrentQueue

/-
  The event queues of `queue.cpp`: the protocol chooses the
  container of the waiting threads, and with it the order in
  which they receive events.

  Key definitions include:
    * `EventQueue.PriorityQueue`
    * `EventQueue.sys_event_queue_create`
    * `EventQueue.waiters`
    * `EventQueue.HandedInOrder`
    * `EventQueue.SinglePriority`

  Key theorems include:
    * `EventQueue.waiting_of_run`
    * `EventQueue.handedInOrder_iff`
-/

------------------------------------------------------------
-- Protocols and Arrivals
------------------------------------------------------------

namespace Ps3emu

namespace EventQueue

open ConcurrentQueue Transition

variable {T E : Type}

/- The key of `WaitingThread::operator<`. -/
def rank (w : WaitingThread T) : Nat := w.priority.toNat

/- `std::priority_queue` with `std::less`. -/
def PriorityQueue (T : Type) : Container (WaitingThread T) where
  push := BinaryHeap.push rank
  pop := BinaryHeap.pop rank
  push_perm := BinaryHeap.push_perm
  pop_perm := BinaryHeap.pop_perm
  head_push := BinaryHeap.head?_push

def SYS_SYNC_FIFO : BitVec 32 := 0x00001
def SYS_SYNC_PRIORITY : BitVec 32 := 0x00002

variable [DecidableEq T]

/- The queue that is created, unless an assertion fails. -/
def sys_event_queue_create
    (T E : Type) [DecidableEq T]
    (attr_protocol : BitVec 32)
    (size : Nat) :
    Option (Monitor T (Shared T E) (Op E) (Value E)) :=
  if 1 ≤ size ∧ size < 128 then
    if attr_protocol = SYS_SYNC_PRIORITY then
      some (queue (PriorityQueue T) size)
    else if attr_protocol = SYS_SYNC_FIFO then
      some (queue (Container.queue _) size)
    else none
  else none

/- The section hands an event to a waiting thread. -/
def handsOff (e : Event T E) : Bool :=
  match e.value with
  | some (.received _) => true
  | _ => false

/- A thread comes to wait when it calls `receive`. -/
def arrive
    (order : List (WaitingThread T))
    (e : Event T E) : List (WaitingThread T) :=
  match e.op, e.move with
  | .receive priority, .call =>
      order ++ [⟨e.thread, priority⟩]
  | _, _ => order

/- It no longer waits when it has received an event. -/
def leave
    (order : List (WaitingThread T))
    (e : Event T E) : List (WaitingThread T) :=
  if handsOff e then
    order.eraseP (fun w => w.id = e.thread)
  else order

/- The threads that wait after a run, in order of arrival. -/
def arrivals (events : List (Event T E)) :
    List (WaitingThread T) :=
  events.foldl (fun order e => leave (arrive order e) e) []

/- The threads of which a section may hand one an event. -/
def waiters
    (before : List (Event T E))
    (e : Event T E) : List (WaitingThread T) :=
  arrive (arrivals before) e

/- A property of all hand-offs of a run. -/
def AtHandOffs
    (P : List (Event T E) → Event T E → Prop)
    (events : List (Event T E)) : Prop :=
  ∀ before e after, events = before ++ e :: after →
    handsOff e = true → P before e

/-
  The thread has the numerically smallest priority, and of
  those that have it, it was the first to arrive.
-/
def Rightful
    (order : List (WaitingThread T))
    (thread : T) : Prop :=
  ∃ front w back,
    order = front ++ w :: back ∧ w.id = thread ∧
      (∀ x ∈ front, w.priority < x.priority) ∧
        ∀ x ∈ back, w.priority ≤ x.priority

def HandedInOrder (events : List (Event T E)) : Prop :=
  AtHandOffs (fun before e => Rightful (waiters before e) e.thread)
    events

def AllEqual (order : List (WaitingThread T)) : Prop :=
  ∀ x ∈ order, ∀ y ∈ order, x.priority = y.priority

/- At most three threads waited at each hand-off. -/
def Few (events : List (Event T E)) : Prop :=
  AtHandOffs (fun before e => (waiters before e).length ≤ 3)
    events

/-
  The threads that wait at a hand-off have one priority, and
  at most three waited at each hand-off before it.
-/
def SinglePriority (events : List (Event T E)) : Prop :=
  AtHandOffs
    (fun before e => AllEqual (waiters before e) ∧ Few before)
    events

theorem arrivals_snoc
    (events : List (Event T E))
    (e : Event T E) :
    arrivals (events ++ [e]) = leave (waiters events e) e := by
  unfold arrivals waiters
  rw [List.foldl_append]
  rfl

omit [DecidableEq T] in
theorem atHandOffs_nil
    (P : List (Event T E) → Event T E → Prop) :
    AtHandOffs P [] := by
  intro before e after hEvents
  simp at hEvents

variable {events : List (Event T E)}

omit [DecidableEq T] in
theorem atHandOffs_snoc
    {P : List (Event T E) → Event T E → Prop}
    {e : Event T E} :
    AtHandOffs P (events ++ [e]) ↔
      AtHandOffs P events ∧ (handsOff e = true → P events e) := by
  constructor
  · intro hAll
    refine ⟨?_, hAll events e [] rfl⟩
    intro before d after hEvents
    refine hAll before d (after ++ [e]) ?_
    rw [hEvents, List.append_assoc, List.cons_append]
  · rintro ⟨hOld, hNew⟩ before d after hEvents
    rcases snoc_eq_split hEvents with
      ⟨rfl, rfl, -⟩ | ⟨init, -, hBefore⟩
    · exact hNew
    · exact hOld before d init hBefore

------------------------------------------------------------
-- Waiting Threads
------------------------------------------------------------

/- The waiting threads with the one that the section adds. -/
def pushed
    (Q : Container (WaitingThread T))
    (waiting : List (WaitingThread T))
    (e : Event T E) : List (WaitingThread T) :=
  match e.op, e.move with
  | .receive priority, .call =>
      Q.push waiting ⟨e.thread, priority⟩
  | _, _ => waiting

omit [DecidableEq T] in
theorem waiting_enter
    (Q : Container (WaitingThread T))
    (e : Event T E)
    (hMove : e.move = .call)
    (s : Shared T E) :
    (enter Q e.thread e.op s).waiting =
      pushed Q s.waiting e := by
  rcases e with ⟨thread, op, move, value⟩
  cases hMove
  cases op with
  | _ => rfl

omit [DecidableEq T] in
theorem pushed_wakeup
    (Q : Container (WaitingThread T))
    (waiting : List (WaitingThread T))
    (e : Event T E)
    (hMove : e.move = .wakeup) :
    pushed Q waiting e = waiting := by
  rcases e with ⟨thread, op, move, value⟩
  cases hMove
  cases op with
  | _ => rfl

variable {Q : Container (WaitingThread T)} {e : Event T E} {size : Nat}

/- The waiting threads after the thread has acted. -/
theorem waiting_act
    {s t : Shared T E}
    {value : Value E}
    (hAct : act Q size e.thread e.op s = some (t, value))
    (hValue : e.value = some value) :
    (handsOff e = true ∧ ∃ first rest,
        s.waiting = first :: rest ∧ first.id = e.thread ∧
          t.waiting = Q.pop (first :: rest)) ∨
      (handsOff e = false ∧ t.waiting = s.waiting) := by
  rcases e with ⟨thread, op, move, result⟩
  cases hValue
  cases op with
  | send v nowait =>
      rcases act_send hAct with
        ⟨rfl, rfl⟩ | ⟨-, rfl, rfl⟩
      · exact .inr ⟨rfl, rfl⟩
      · exact .inr ⟨rfl, rfl⟩
  | receive priority =>
      rcases act_receive hAct with
        ⟨first, rest, v, tail, -, hWaiting, hId, rfl, rfl⟩
      exact .inl ⟨rfl, first, rest, hWaiting, hId, rfl⟩
  | tryReceive number =>
      cases hAct
      exact .inr ⟨rfl, rfl⟩
  | drain =>
      cases hAct
      exact .inr ⟨rfl, rfl⟩

variable [DecidableEq E]

omit [DecidableEq E] in
theorem waiting_of_begins
    {s : State T E}
    {shared : Shared T E}
    (hBegins : Monitor.Begins (queue Q size) s e shared) :
    shared.waiting = pushed Q s.shared.waiting e := by
  cases hBegins with
  | call hMove => exact waiting_enter Q e hMove s.shared
  | wakeup hMove =>
      exact (pushed_wakeup Q s.shared.waiting e hMove).symm

/- What a section does to the waiting threads. -/
theorem waiting_of_step
    {s t : State T E}
    (hStep : (queue Q size).Step s e t) :
    (handsOff e = true ∧ ∃ first rest,
        pushed Q s.shared.waiting e = first :: rest ∧
          first.id = e.thread ∧
          t.shared.waiting = Q.pop (first :: rest)) ∨
      (handsOff e = false ∧
        t.shared.waiting = pushed Q s.shared.waiting e) := by
  cases Monitor.effect_of_step hStep with
  | acts hBegins hAct hValue =>
      rw [← waiting_of_begins hBegins]
      exact waiting_act hAct hValue
  | sleeps hBegins _ hValue =>
      right
      refine ⟨?_, waiting_of_begins hBegins⟩
      unfold handsOff
      rw [hValue]

/- No thread is among them twice. -/
theorem nodup_of_step
    {s t : State T E}
    (hListed : Listed s.shared.waiting (receiving s))
    (hStep : (queue Q size).Step s e t) :
    ((pushed Q s.shared.waiting e).map
      WaitingThread.id).Nodup := by
  cases Monitor.effect_of_step hStep with
  | acts hBegins =>
      rw [← waiting_of_begins hBegins]
      exact (listed_of_begins hListed hBegins).nodup
  | sleeps hBegins =>
      rw [← waiting_of_begins hBegins]
      exact (listed_of_begins hListed hBegins).nodup

variable {waiting order : List (WaitingThread T)}

omit [DecidableEq T] [DecidableEq E] in
theorem pushed_perm
    (Q : Container (WaitingThread T))
    (hPerm : waiting.Perm order)
    (e : Event T E) :
    (pushed Q waiting e).Perm (arrive order e) := by
  unfold pushed arrive
  split
  case h_1 =>
    exact
      (Q.push_perm _ _).trans
        ((hPerm.cons _).trans
          (List.perm_append_singleton _ _).symm)
  case h_2 => exact hPerm

------------------------------------------------------------
-- Heap Order and Ties
------------------------------------------------------------

/-
  The heap of the waiting threads has the threads of the
  order of arrival.
-/
structure Tracks
    (waiting order : List (WaitingThread T)) : Prop where
  perm : waiting.Perm order
  heap : BinaryHeap.IsHeap rank waiting

omit [DecidableEq T] [DecidableEq E] in
theorem Tracks.pushed
    (hTracks : Tracks waiting order)
    (e : Event T E) :
    Tracks (pushed (PriorityQueue T) waiting e)
      (arrive order e) where
  perm := pushed_perm _ hTracks.perm e
  heap := by
    unfold EventQueue.pushed
    split
    case h_1 => exact hTracks.heap.push _
    case h_2 => exact hTracks.heap

variable {first : WaitingThread T}

omit [DecidableEq E] in
theorem eraseP_perm
    {rest order : List (WaitingThread T)}
    (hPerm : (first :: rest).Perm order)
    (hNodup :
      ((first :: rest).map WaitingThread.id).Nodup) :
    (order.eraseP (fun w => w.id = first.id)).Perm rest := by
  have hErased :=
    hPerm.eraseP (fun w => decide (w.id = first.id)) ?_
  · rw [List.eraseP_cons_of_pos (by simp)] at hErased
    exact hErased.symm
  · refine (List.pairwise_map.mp hNodup).imp ?_
    intro x y hNe hx hy
    exact
      hNe
        ((of_decide_eq_true hx).trans
          (of_decide_eq_true hy).symm)

theorem tracks_of_step
    {s t : State T E}
    {order : List (WaitingThread T)}
    (hListed : Listed s.shared.waiting (receiving s))
    (hTracks : Tracks s.shared.waiting order)
    (hStep : (queue (PriorityQueue T) size).Step s e t) :
    Tracks t.shared.waiting (leave (arrive order e) e) := by
  have hNew := hTracks.pushed e
  unfold leave
  rcases waiting_of_step hStep with
    ⟨hHands, first, rest, hPushed, hId, hWaiting⟩ |
      ⟨hHands, hWaiting⟩
  · have hNodup := nodup_of_step hListed hStep
    rw [hPushed] at hNew hNodup
    rw [hHands, hWaiting, if_pos rfl, ← hId]
    exact
      ⟨((PriorityQueue T).pop_perm first rest).trans
          (eraseP_perm hNew.perm hNodup).symm,
        hNew.heap.pop⟩
  · rw [hHands, hWaiting, if_neg Bool.false_ne_true]
    exact hNew

variable {t : State T E}

theorem waiting_of_run
    (hRun :
      Run (queue (PriorityQueue T) size).Step
        (Monitor.start {}) events t) :
    Tracks t.shared.waiting (arrivals events) := by
  induction hRun with
  | nil =>
      refine ⟨.nil, ?_⟩
      intro i x p _ hItem
      cases hItem
  | @snoc events s t e hBefore hLast ih =>
      rw [arrivals_snoc]
      exact tracks_of_step (listed_of_run hBefore) ih hLast

/- Waiting threads of one priority are in order of arrival. -/
def Kept (waiting order : List (WaitingThread T)) : Prop :=
  AllEqual order → waiting = order

/- Another thread than the first to arrive is on top. -/
def Turned (waiting order : List (WaitingThread T)) : Prop :=
  AllEqual order →
    ∃ first ∈ order.head?, ∃ top ∈ waiting.head?,
      top.id ≠ first.id

omit [DecidableEq T] [DecidableEq E] in
theorem allEqual_of_append
    {order : List (WaitingThread T)}
    {w : WaitingThread T}
    (hEqual : AllEqual (order ++ [w])) :
    AllEqual order :=
  fun x hx y hy =>
    hEqual x (List.mem_append_left _ hx) y
      (List.mem_append_left _ hy)

omit [DecidableEq T] [DecidableEq E] in
theorem push_of_allEqual
    {w : WaitingThread T}
    (hPerm : waiting.Perm order)
    (hEqual : AllEqual (order ++ [w])) :
    (PriorityQueue T).push waiting w = waiting ++ [w] := by
  refine BinaryHeap.push_of_le ?_
  intro x hx
  have hSame :=
    hEqual w (by simp) x
      (List.mem_append_left _ (hPerm.mem_iff.mp hx))
  unfold rank
  rw [hSame]

omit [DecidableEq T] [DecidableEq E] in
theorem Kept.pushed
    (hKept : Kept waiting order)
    (hPerm : waiting.Perm order)
    (e : Event T E) :
    Kept (pushed (PriorityQueue T) waiting e)
      (arrive order e) := by
  unfold EventQueue.pushed arrive
  split
  case h_1 =>
    intro hEqual
    rw [push_of_allEqual hPerm hEqual,
      hKept (allEqual_of_append hEqual)]
  case h_2 => exact hKept

omit [DecidableEq T] [DecidableEq E] in
theorem Turned.pushed
    (hTurned : Turned waiting order)
    (hPerm : waiting.Perm order)
    (e : Event T E) :
    Turned (pushed (PriorityQueue T) waiting e)
      (arrive order e) := by
  unfold EventQueue.pushed arrive
  split
  case h_1 =>
    intro hEqual
    rcases hTurned (allEqual_of_append hEqual) with
      ⟨first, hFirst, top, hTop, hNe⟩
    rw [push_of_allEqual hPerm hEqual, List.head?_append,
      List.head?_append, hFirst, hTop]
    exact ⟨first, rfl, top, rfl, hNe⟩
  case h_2 => exact hTurned

omit [DecidableEq T] [DecidableEq E] in
/- The heap has the numerically largest priority on top. -/
theorem allEqual_of_rightful
    {rest order : List (WaitingThread T)}
    (hTracks : Tracks (first :: rest) order)
    (hNodup :
      ((first :: rest).map WaitingThread.id).Nodup)
    (hRightful : Rightful order first.id) :
    AllEqual order := by
  rcases hRightful with
    ⟨front, w, back, rfl, hId, hFront, hBack⟩
  have hTop :
      ∀ x ∈ front ++ w :: back, x.priority ≤ w.priority := by
    have hMem : w ∈ first :: rest :=
      hTracks.perm.mem_iff.mpr (by simp)
    have hSame : w = first :=
      List.inj_on_of_nodup_map hNodup hMem
        List.mem_cons_self hId
    intro x hx
    rw [hSame]
    exact hTracks.heap.le_head (hTracks.perm.mem_iff.mpr hx)
  have hAll :
      ∀ x ∈ front ++ w :: back, x.priority = w.priority := by
    intro x hx
    refine BitVec.le_antisymm (hTop x hx) ?_
    rcases List.mem_append.mp hx with hIn | hIn
    · exact BitVec.le_of_lt (hFront x hIn)
    · rcases List.mem_cons.mp hIn with rfl | hIn
      · exact BitVec.le_refl _
      · exact hBack x hIn
  intro x hx y hy
  rw [hAll x hx, hAll y hy]

variable {rest : List (WaitingThread T)}

omit [DecidableEq T] [DecidableEq E] in
/- Among threads of one priority, the first is rightful. -/
theorem rightful_iff_of_allEqual
    (hEqual : AllEqual (first :: rest))
    (thread : T) :
    Rightful (first :: rest) thread ↔ first.id = thread := by
  constructor
  · rintro ⟨front, w, back, hOrder, hId, hFront, -⟩
    cases front with
    | nil =>
        cases hOrder
        exact hId
    | cons x front =>
        have hLess := hFront x List.mem_cons_self
        rw [hEqual w (by rw [hOrder]; simp) x
          (by rw [hOrder]; simp)] at hLess
        exact absurd hLess (BitVec.lt_irrefl _)
  · intro hId
    refine ⟨[], first, rest, rfl, hId, ?_, ?_⟩
    · intro x hx
      cases hx
    · intro x hx
      rw [hEqual first List.mem_cons_self x
        (List.mem_cons_of_mem _ hx)]
      exact BitVec.le_refl _

omit [DecidableEq T] [DecidableEq E] in
theorem not_rightful_of_turned
    {rest order : List (WaitingThread T)}
    (hTracks : Tracks (first :: rest) order)
    (hNodup :
      ((first :: rest).map WaitingThread.id).Nodup)
    (hTurned : Turned (first :: rest) order) :
    ¬ Rightful order first.id := by
  intro hRightful
  have hEqual := allEqual_of_rightful hTracks hNodup hRightful
  rcases hTurned hEqual with ⟨oldest, hOldest, top, hTop, hNe⟩
  cases hTop
  cases order with
  | nil => cases hOldest
  | cons head tail =>
      cases hOldest
      exact
        hNe
          ((rightful_iff_of_allEqual hEqual _).mp
            hRightful).symm

omit [DecidableEq E] in
/- With at most three, the next to arrive comes on top. -/
theorem kept_of_pop
    (hEqual : AllEqual (first :: rest))
    (hFew : (first :: rest).length ≤ 3) :
    Kept ((PriorityQueue T).pop (first :: rest))
      ((first :: rest).eraseP (fun w => w.id = first.id)) := by
  intro _
  rw [List.eraseP_cons_of_pos (by simp)]
  refine BinaryHeap.pop_of_equal ?_ (Nat.le_of_succ_le_succ hFew)
  intro x hx y hy
  unfold rank
  rw [hEqual x (List.mem_cons_of_mem _ hx) y
    (List.mem_cons_of_mem _ hy)]

omit [DecidableEq E] in
/- With four or more, the third to arrive comes on top. -/
theorem turned_of_pop
    (hNodup :
      ((first :: rest).map WaitingThread.id).Nodup)
    (hEqual : AllEqual (first :: rest))
    (hMany : ¬ (first :: rest).length ≤ 3) :
    Turned ((PriorityQueue T).pop (first :: rest))
      ((first :: rest).eraseP (fun w => w.id = first.id)) := by
  intro _
  rw [List.eraseP_cons_of_pos (by simp)]
  rcases rest with _ | ⟨second, _ | ⟨third, more⟩⟩
  · exact absurd (by simp) hMany
  · exact absurd (by simp) hMany
  · refine ⟨second, rfl, third, ?_, ?_⟩
    · refine BinaryHeap.head?_pop_of_equal ?_ ?_
      · rintro rfl
        exact hMany (by simp)
      · intro x hx y hy
        unfold rank
        rw [hEqual x (List.mem_cons_of_mem _ hx) y
          (List.mem_cons_of_mem _ hy)]
    · intro hSame
      have hTail := (List.nodup_cons.mp hNodup).2
      rw [List.map_cons, List.map_cons, List.nodup_cons]
        at hTail
      exact hTail.1 (by rw [hSame]; exact List.mem_cons_self)

/-
  Up to the first hand-off at which four or more threads wait
  the heap is in order of arrival; after it, it is not.
-/
structure Aligned
    (events : List (Event T E))
    (waiting order : List (WaitingThread T)) : Prop where
  kept : Few events → Kept waiting order
  turned : ¬ Few events → Turned waiting order

omit [DecidableEq E] in
theorem Aligned.pushed
    (hAligned : Aligned events waiting order)
    (hPerm : waiting.Perm order)
    (e : Event T E) :
    Aligned events (pushed (PriorityQueue T) waiting e)
      (arrive order e) where
  kept hFew := (hAligned.kept hFew).pushed hPerm e
  turned hMany := (hAligned.turned hMany).pushed hPerm e

omit [DecidableEq E] in
theorem Aligned.rightful_iff
    {rest order : List (WaitingThread T)}
    (hAligned : Aligned events (first :: rest) order)
    (hTracks : Tracks (first :: rest) order)
    (hNodup :
      ((first :: rest).map WaitingThread.id).Nodup) :
    Rightful order first.id ↔ AllEqual order ∧ Few events := by
  by_cases hFew : Few events
  · constructor
    · intro hRightful
      exact
        ⟨allEqual_of_rightful hTracks hNodup hRightful, hFew⟩
    · rintro ⟨hEqual, -⟩
      have hOrder := hAligned.kept hFew hEqual
      rw [← hOrder] at hEqual ⊢
      exact (rightful_iff_of_allEqual hEqual _).mpr rfl
  · constructor
    · intro hRightful
      exact
        absurd hRightful
          (not_rightful_of_turned hTracks hNodup
            (hAligned.turned hFew))
    · rintro ⟨-, hOther⟩
      exact absurd hOther hFew

omit [DecidableEq E] in
theorem Aligned.pop
    (hAligned :
      Aligned events (first :: rest) (waiters events e))
    (hNodup :
      ((first :: rest).map WaitingThread.id).Nodup)
    (hHands : handsOff e = true)
    (hId : first.id = e.thread)
    (hEqual : AllEqual (waiters events e))
    (hFew : Few events) :
    Aligned (events ++ [e])
      ((PriorityQueue T).pop (first :: rest))
      (leave (waiters events e) e) := by
  have hOrder := hAligned.kept hFew hEqual
  unfold leave
  rw [hHands, if_pos rfl, ← hId, ← hOrder]
  rw [← hOrder] at hEqual
  refine ⟨?_, ?_⟩
  · intro hNext
    have hShort := (atHandOffs_snoc.mp hNext).2 hHands
    rw [← hOrder] at hShort
    exact kept_of_pop hEqual hShort
  · intro hNext
    refine turned_of_pop hNodup hEqual ?_
    intro hShort
    refine hNext (atHandOffs_snoc.mpr ⟨hFew, fun _ => ?_⟩)
    rw [← hOrder]
    exact hShort

------------------------------------------------------------
-- Runs
------------------------------------------------------------

/- What holds of a run and of the waiting threads after it. -/
structure Decided
    (events : List (Event T E))
    (waiting : List (WaitingThread T)) : Prop where
  decided : HandedInOrder events ↔ SinglePriority events
  aligned :
    SinglePriority events →
      Aligned events waiting (arrivals events)

theorem decided_of_step
    {s t : State T E}
    (hDecided : Decided events s.shared.waiting)
    (hBefore :
      Run (queue (PriorityQueue T) size).Step
        (Monitor.start {}) events s)
    (hStep : (queue (PriorityQueue T) size).Step s e t) :
    Decided (events ++ [e]) t.shared.waiting := by
  have hOld := waiting_of_run hBefore
  have hNodup := nodup_of_step (listed_of_run hBefore) hStep
  have hTracks := hOld.pushed e
  rcases waiting_of_step hStep with
    ⟨hHands, first, rest, hPushed, hId, hWaiting⟩ |
      ⟨hHands, hWaiting⟩
  · rw [hPushed] at hTracks hNodup
    have hAligned :
        SinglePriority events →
          Aligned events (first :: rest) (waiters events e) := by
      intro hSingle
      have hNew :=
        (hDecided.aligned hSingle).pushed hOld.perm e
      rw [hPushed] at hNew
      exact hNew
    refine ⟨?_, ?_⟩
    · unfold HandedInOrder SinglePriority
      rw [atHandOffs_snoc, atHandOffs_snoc]
      constructor
      · rintro ⟨hInOrder, hLast⟩
        have hSingle := hDecided.decided.mp hInOrder
        refine ⟨hSingle, fun _ => ?_⟩
        have hRightful := hLast hHands
        rw [← hId] at hRightful
        exact
          ((hAligned hSingle).rightful_iff hTracks hNodup).mp
            hRightful
      · rintro ⟨hSingle, hLast⟩
        refine ⟨hDecided.decided.mpr hSingle, fun _ => ?_⟩
        rw [← hId]
        exact
          ((hAligned hSingle).rightful_iff hTracks hNodup).mpr
            (hLast hHands)
    · intro hSingle
      rcases atHandOffs_snoc.mp hSingle with ⟨hOldSingle, hLast⟩
      rcases hLast hHands with ⟨hEqual, hFew⟩
      rw [arrivals_snoc, hWaiting]
      exact
        (hAligned hOldSingle).pop hNodup hHands hId hEqual hFew
  · have hSame :
        ∀ P : List (Event T E) → Event T E → Prop,
          AtHandOffs P (events ++ [e]) ↔
            AtHandOffs P events := by
      intro P
      rw [atHandOffs_snoc, hHands]
      simp
    refine ⟨?_, ?_⟩
    · unfold HandedInOrder SinglePriority
      rw [hSame, hSame]
      exact hDecided.decided
    · intro hSingle
      have hNew :=
        (hDecided.aligned ((hSame _).mp hSingle)).pushed
          hOld.perm e
      rw [arrivals_snoc, hWaiting]
      unfold leave
      rw [hHands, if_neg Bool.false_ne_true]
      exact
        ⟨fun hFew => hNew.kept ((hSame _).mp hFew),
          fun hMany =>
            hNew.turned (fun hFew => hMany ((hSame _).mpr hFew))⟩

theorem decided_of_run
    (hRun :
      Run (queue (PriorityQueue T) size).Step
        (Monitor.start {}) events t) :
    Decided events t.shared.waiting := by
  induction hRun with
  | nil =>
      refine ⟨?_, ?_⟩
      · constructor
        · intro _
          exact atHandOffs_nil _
        · intro _
          exact atHandOffs_nil _
      · intro _
        exact
          ⟨fun _ _ => rfl,
            fun hMany => absurd (atHandOffs_nil _) hMany⟩
  | snoc hBefore hLast ih =>
      exact decided_of_step ih hBefore hLast

/-
  The container gives the numerically largest priority, so
  the hand-offs are in order only where one priority waits,
  and its ties are in order of arrival only while few do.
-/
theorem handedInOrder_iff
    (size : Nat)
    (m : Monitor T (Shared T E) (Op E) (Value E))
    (hCreate :
      sys_event_queue_create T E SYS_SYNC_PRIORITY size =
        some m)
    (events : List (Event T E))
    (t : State T E)
    (hRun : Run m.Step (Monitor.start {}) events t) :
    HandedInOrder events ↔ SinglePriority events := by
  unfold sys_event_queue_create at hCreate
  split at hCreate
  case isTrue =>
    rw [if_pos rfl] at hCreate
    cases hCreate
    exact (decided_of_run hRun).decided
  case isFalse => cases hCreate

/- Two threads of one priority receive in order. -/
theorem handedInOrder_iff_pair :
    HandedInOrder (T := Nat) (E := Nat)
        [⟨1, .receive 5, .call, none⟩,
          ⟨2, .receive 5, .call, none⟩,
          ⟨3, .send 7 true, .call, some (.sent true)⟩,
          ⟨1, .receive 5, .wakeup, some (.received 7)⟩] ↔
      SinglePriority (T := Nat) (E := Nat)
        [⟨1, .receive 5, .call, none⟩,
          ⟨2, .receive 5, .call, none⟩,
          ⟨3, .send 7 true, .call, some (.sent true)⟩,
          ⟨1, .receive 5, .wakeup, some (.received 7)⟩] :=
  handedInOrder_iff 4 _ rfl _ _
    (.snoc
      (.snoc
        (.snoc (.snoc .nil (by exact rfl)) (by exact rfl))
        (by exact rfl))
      (by exact rfl))

/-
  A thread of priority 1 and one of priority 2 wait, and the
  event goes to the latter.
-/
def lowerFirst : List (Event Nat Nat) :=
  [⟨1, .receive 1, .call, none⟩,
    ⟨2, .receive 2, .call, none⟩,
    ⟨3, .send 7 true, .call, some (.sent true)⟩,
    ⟨2, .receive 2, .wakeup, some (.received 7)⟩]

theorem lowerFirst_unordered :
    ¬ ∀ (size : Nat)
        (m : Monitor Nat (Shared Nat Nat) (Op Nat)
          (Value Nat)),
        sys_event_queue_create Nat Nat SYS_SYNC_PRIORITY
            size = some m →
          ∀ (events : List (Event Nat Nat))
            (t : State Nat Nat),
            Run m.Step (Monitor.start {}) events t →
              HandedInOrder events := by
  intro hAll
  have hOrdered :=
    hAll 4 _ rfl lowerFirst _
      (.snoc
        (.snoc
          (.snoc (.snoc .nil (by exact rfl)) (by exact rfl))
          (by exact rfl))
        (by exact rfl))
  rcases hOrdered (lowerFirst.take 3) _ [] rfl rfl with
    ⟨front, w, back, hOrder, hId, hFront, -⟩
  change [(⟨1, 1⟩ : WaitingThread Nat), ⟨2, 2⟩] = _ at hOrder
  rcases front with _ | ⟨x, _ | ⟨y, rest⟩⟩
  · cases hOrder
    cases hId
  · cases hOrder
    exact absurd (hFront ⟨1, 1⟩ List.mem_cons_self) (by decide)
  · simp at hOrder

end EventQueue

end Ps3emu
