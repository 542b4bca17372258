import Ps3emu.Library.Transition
import Ps3emu.Utils.IDMap

/-
  The connections of SPU event ports to event queues.  A
  connection is recorded twice: with its queue in the list
  of the thread, and with its thread in that of the queue.
  Queues and threads are known by their objects here, which
  the lists point to; the ids of queues are given again.

  Key definitions include:
    * `EventPorts`
    * `EventPorts.sys_spu_thread_connect_event`
    * `EventPorts.sys_event_queue_destroy`
    * `EventPorts.connections`
    * `EventPorts.Lawful`, `EventPorts.Separate`

  Key theorems include:
    * `EventPorts.inv_of_run`
    * `EventPorts.lawful_iff`
-/

------------------------------------------------------------
-- Objects and Threads
------------------------------------------------------------

namespace Ps3emu

structure SysEvent where
  source : BitVec 64
  data1 : BitVec 64
  data2 : BitVec 64
  data3 : BitVec 64
deriving DecidableEq

structure EventQueueInfo where
  port : BitVec 32
  queue : Nat
deriving DecidableEq

structure QueueInfo where
  queue : Nat
  connectedSpuThreads : List (Nat × BitVec 32)
  key : BitVec 64
deriving DecidableEq

/-
  `nextQueue` is the next queue object.  `eventQueuesToPPU`
  is the list of each thread, and `threadId` its id.
-/
structure EventPorts where
  queues : IDMap QueueInfo
  nextQueue : Nat
  eventQueuesToPPU : Nat → List EventQueueInfo
  threadId : Nat → BitVec 64

namespace EventPorts

open Transition

def QueueIdBase : Nat := 0x5000

def SYS_SYNC_FIFO : BitVec 32 := 0x00001
def SYS_SYNC_PRIORITY : BitVec 32 := 0x00002
def SYS_EVENT_QUEUE_LOCAL : BitVec 64 := 0
def SYS_SPU_THREAD_EVENT_USER : BitVec 32 := 0x1

def SYS_SPU_THREAD_EVENT_USER_KEY : BitVec 64 :=
  0xFFFFFFFF53505501

def CELL_EINVAL : Int := -2147418110
def CELL_EEXIST : Int := -2147418092
def CELL_EISCONN : Int := -26

def initial (threadId : Nat → BitVec 64) : EventPorts where
  queues := IDMap.empty QueueIdBase
  nextQueue := 0
  eventQueuesToPPU := fun _ => []
  threadId := threadId

def connectQueue
    (s : EventPorts)
    (th : Nat)
    (queue : Nat)
    (portNumber : BitVec 32) : EventPorts :=
  { s with
    eventQueuesToPPU :=
      Function.update s.eventQueuesToPPU th
        (s.eventQueuesToPPU th ++ [⟨portNumber, queue⟩]) }

def disconnectQueue
    (s : EventPorts)
    (th : Nat)
    (portNumber : BitVec 32) : EventPorts :=
  { s with
    eventQueuesToPPU :=
      Function.update s.eventQueuesToPPU th
        ((s.eventQueuesToPPU th).filter
          (fun eq => eq.port != portNumber)) }

def isQueuePortAvailableToConnect
    (s : EventPorts)
    (portNumber : BitVec 32)
    (th : Nat) : Bool :=
  (s.eventQueuesToPPU th).all (fun eq => eq.port != portNumber)

/- The queue to which an event on the port is sent. -/
def receiver
    (s : EventPorts)
    (th : Nat)
    (portNumber : BitVec 32) : Option Nat :=
  ((s.eventQueuesToPPU th).find? (fun eq =>
    eq.port == portNumber)).map EventQueueInfo.queue

/- `info->connectedSpuThreads.push_back({thread, port})`. -/
def record
    (s : EventPorts)
    (eq : Nat)
    (th : Nat)
    (portNumber : BitVec 32) : EventPorts :=
  { s with
    queues :=
      s.queues.modify eq (fun info =>
        { info with
          connectedSpuThreads :=
            info.connectedSpuThreads ++ [(th, portNumber)] }) }

------------------------------------------------------------
-- System Calls
------------------------------------------------------------

/-
  What a call has done, in terms of the objects.  `quiet` is
  an interrupt that has to do with no queue.
-/
inductive Answer where
  | created (id queue : Nat)
  | destroyed (queue : Nat)
  | connected (queue : Nat) (threads : List Nat)
      (portNumber : BitVec 32)
  | disconnected (thread : Nat) (portNumber : BitVec 32)
  | sent (queue thread : Nat) (portNumber : BitVec 32)
      (event : SysEvent)
  | quiet
  | error (code : Int)
deriving DecidableEq

/- A failed assertion is `none`, as in the other calls. -/
def sys_event_queue_create
    (s : EventPorts)
    (attr_protocol : BitVec 32)
    (event_queue_key : BitVec 64)
    (size : Nat) : Option (EventPorts × Answer) :=
  if 1 ≤ size ∧ size < 128 then
    if event_queue_key ≠ SYS_EVENT_QUEUE_LOCAL ∧
        s.queues.search (fun info =>
          info.key == event_queue_key) ≠ 0 then
      some (s, .error CELL_EEXIST)
    else if attr_protocol = SYS_SYNC_PRIORITY ∨
        attr_protocol = SYS_SYNC_FIFO then
      some
        ({ s with
            queues :=
              s.queues.create ⟨s.nextQueue, [], event_queue_key⟩
            nextQueue := s.nextQueue + 1 },
          .created s.queues.nextId s.nextQueue)
    else none
  else none

/- Every port on record is disconnected, then the id freed. -/
def sys_event_queue_destroy
    (s : EventPorts)
    (equeue_id : Nat) : Option (EventPorts × Answer) :=
  match s.queues.get equeue_id with
  | none => none
  | some info =>
      let t :=
        info.connectedSpuThreads.foldl
          (fun s p => s.disconnectQueue p.1 p.2) s
      (t.queues.destroy equeue_id).map (fun queues =>
        ({ t with queues }, .destroyed info.queue))

def sys_spu_thread_connect_event
    (s : EventPorts)
    (thread : Nat)
    (eq : Nat)
    (et : BitVec 32)
    (spup : BitVec 8) : Option (EventPorts × Answer) :=
  match s.queues.get eq with
  | none => none
  | some info =>
      if spup > 63 then some (s, .error CELL_EINVAL)
      else if et = SYS_SPU_THREAD_EVENT_USER then
        let port := spup.setWidth 32
        some
          ((s.connectQueue thread info.queue port).record eq
              thread port,
            .connected info.queue [thread] port)
      else none

def sys_spu_thread_disconnect_event
    (s : EventPorts)
    (thread : Nat)
    (et : BitVec 32)
    (spup : BitVec 8) : Option (EventPorts × Answer) :=
  if et = SYS_SPU_THREAD_EVENT_USER then
    let port := spup.setWidth 32
    some
      (s.disconnectQueue thread port,
        .disconnected thread port)
  else none

/-
  The first port that is asked for and that no thread of the
  group uses.  `threads` are those of the group.
-/
def freePort
    (s : EventPorts)
    (threads : List Nat)
    (req : BitVec 64) : Option Nat :=
  (List.range 64).find? (fun i =>
    req.getLsbD i &&
      threads.all
        (s.isQueuePortAvailableToConnect (BitVec.ofNat 32 i)))

def sys_spu_thread_group_connect_event_all_threads
    (s : EventPorts)
    (threads : List Nat)
    (eq : Nat)
    (req : BitVec 64) : Option (EventPorts × Answer) :=
  if req = 0 then some (s, .error CELL_EINVAL)
  else
    match s.queues.get eq with
    | none => none
    | some info =>
        match s.freePort threads req with
        | none => some (s, .error CELL_EISCONN)
        | some i =>
            let port := BitVec.ofNat 32 i
            some
              (threads.foldl
                  (fun s th =>
                    (s.connectQueue th info.queue port).record
                      eq th port) s,
                .connected info.queue threads port)

/- `data1` is what the outbound mailbox holds. -/
def handleInterrupt
    (s : EventPorts)
    (thread : Nat)
    (interruptValue : BitVec 32)
    (data1 : BitVec 32) : Option (EventPorts × Answer) :=
  let op_port := (interruptValue >>> 24) &&& 0xff
  let data0 := interruptValue &&& 0xffffff
  let port := op_port &&& 0x3f
  let op := op_port >>> 6
  if op = 2 ∨ op = 3 then some (s, .quiet)
  else
    match s.receiver thread port with
    | none => none
    | some queue =>
        some
          (s,
            .sent queue thread port
              { source := SYS_SPU_THREAD_EVENT_USER_KEY
                data1 := s.threadId thread
                data2 :=
                  (port.setWidth 64 <<< 32) |||
                    data0.setWidth 64
                data3 := data1.setWidth 64 })

inductive Call where
  | create (attr_protocol : BitVec 32)
      (event_queue_key : BitVec 64) (size : Nat)
  | destroy (equeue_id : Nat)
  | connect (thread eq : Nat) (et : BitVec 32)
      (spup : BitVec 8)
  | disconnect (thread : Nat) (et : BitVec 32)
      (spup : BitVec 8)
  | connectAll (threads : List Nat) (eq : Nat)
      (req : BitVec 64)
  | interrupt (thread : Nat) (value data1 : BitVec 32)
deriving DecidableEq

def call
    (s : EventPorts) : Call → Option (EventPorts × Answer)
  | .create attr_protocol event_queue_key size =>
      s.sys_event_queue_create attr_protocol event_queue_key
        size
  | .destroy equeue_id => s.sys_event_queue_destroy equeue_id
  | .connect thread eq et spup =>
      s.sys_spu_thread_connect_event thread eq et spup
  | .disconnect thread et spup =>
      s.sys_spu_thread_disconnect_event thread et spup
  | .connectAll threads eq req =>
      s.sys_spu_thread_group_connect_event_all_threads threads
        eq req
  | .interrupt thread value data1 =>
      s.handleInterrupt thread value data1

structure Event where
  call : Call
  answer : Answer
deriving DecidableEq

def Step (s : EventPorts) (e : Event) (t : EventPorts) : Prop :=
  s.call e.call = some (t, e.answer)

------------------------------------------------------------
-- Connections
------------------------------------------------------------

/- An event on the port may be sent to the queue. -/
def Connected
    (s : EventPorts)
    (th : Nat)
    (port : BitVec 32)
    (queue : Nat) : Prop :=
  ⟨port, queue⟩ ∈ s.eventQueuesToPPU th

def Live (s : EventPorts) (queue : Nat) : Prop :=
  ∃ id info, s.queues.get id = some info ∧ info.queue = queue

/- The queues connected to each port, the latest first. -/
abbrev Connections : Type := Nat → BitVec 32 → List Nat

/- What the connections are meant to be after an event. -/
def Connections.next
    (c : Connections)
    (e : Event) : Connections :=
  match e.answer with
  | .connected queue threads port =>
      fun th p =>
        if th ∈ threads ∧ p = port then queue :: c th p
        else c th p
  | .disconnected thread port =>
      fun th p => if th = thread ∧ p = port then [] else c th p
  | .destroyed queue =>
      fun th p => (c th p).filter (fun q => q != queue)
  | _ => c

def connections (events : List Event) : Connections :=
  events.foldl Connections.next (fun _ _ => [])

/- A port is connected to at most one queue that exists. -/
def SingleQueue (s : EventPorts) : Prop :=
  ∀ th port q q',
    s.Connected th port q → s.Connected th port q' →
      s.Live q → s.Live q' → q = q'

/- An event is sent to the queue that was connected last. -/
def Delivers
    (events : List Event)
    (s : EventPorts) : Prop :=
  ∀ th port,
    s.receiver th port = (connections events th port).head?

/- What a disconnect and the end of a queue leave. -/
def RemovesOwn
    (s : EventPorts)
    (e : Event)
    (t : EventPorts) : Prop :=
  match e.answer with
  | .disconnected thread port =>
      ∀ th p q,
        t.Connected th p q ↔
          s.Connected th p q ∧ ¬ (th = thread ∧ p = port)
  | .destroyed queue =>
      ∀ th p q,
        t.Connected th p q ↔ s.Connected th p q ∧ q ≠ queue
  | _ => True

/- An event is sent where the connections say. -/
def SendsToLatest
    (events : List Event)
    (e : Event) : Prop :=
  match e.answer with
  | .sent queue thread port _ =>
      (connections events thread port).head? = some queue
  | _ => True

/- The law of the connections, over the steps of a run. -/
def Lawful (start : EventPorts) (events : List Event) : Prop :=
  ∀ before e after s t,
    events = before ++ e :: after →
      Run Step start before s → Step s e t →
        SingleQueue t ∧ Delivers (before ++ [e]) t ∧
          RemovesOwn s e t ∧ SendsToLatest before e

/-
  The queue that a call is about is the only one to which the
  ports that it touches are connected: when one is connected
  to it, and when it is destroyed, for every port that is on
  its record.
-/
def separate (s : EventPorts) (e : Event) : Prop :=
  match e.call, e.answer with
  | .connect thread _ _ spup, .connected queue _ _ =>
      ∀ q, s.Connected thread (spup.setWidth 32) q → q = queue
  | .destroy eq, .destroyed queue =>
      ∀ info, s.queues.get eq = some info →
        ∀ p ∈ info.connectedSpuThreads,
          ∀ q, s.Connected p.1 p.2 q → q = queue
  | _, _ => True

def Separate (start : EventPorts) (events : List Event) : Prop :=
  ∀ before e after s t,
    events = before ++ e :: after →
      Run Step start before s → Step s e t → separate s e

------------------------------------------------------------
-- Effects of the Calls
------------------------------------------------------------

variable (s : EventPorts)

theorem connected_connectQueue
    (thread queue : Nat)
    (port : BitVec 32)
    (th : Nat)
    (p : BitVec 32)
    (q : Nat) :
    (s.connectQueue thread queue port).Connected th p q ↔
      s.Connected th p q ∨
        (th = thread ∧ p = port ∧ q = queue) := by
  unfold Connected connectQueue
  by_cases hTh : th = thread
  · subst hTh
    simp [Function.update_self]
  · simp [hTh]

theorem connected_disconnectQueue
    (thread : Nat)
    (port : BitVec 32)
    (th : Nat)
    (p : BitVec 32)
    (q : Nat) :
    (s.disconnectQueue thread port).Connected th p q ↔
      s.Connected th p q ∧ ¬ (th = thread ∧ p = port) := by
  unfold Connected disconnectQueue
  by_cases hTh : th = thread
  · subst hTh
    simp [Function.update_self]
  · simp [hTh]

@[simp] theorem connected_record
    (eq thread : Nat)
    (port : BitVec 32)
    (th : Nat)
    (p : BitVec 32)
    (q : Nat) :
    (s.record eq thread port).Connected th p q ↔
      s.Connected th p q := Iff.rfl

/- A connect makes its connections and keeps the others. -/
theorem connected_connectThreads
    (eq queue : Nat)
    (port : BitVec 32)
    (threads : List Nat)
    (th : Nat)
    (p : BitVec 32)
    (q : Nat) :
    (threads.foldl
        (fun s th =>
          (s.connectQueue th queue port).record eq th port)
        s).Connected th p q ↔
      s.Connected th p q ∨
        (th ∈ threads ∧ p = port ∧ q = queue) := by
  induction threads generalizing s with
  | nil => simp
  | cons first rest ih =>
      rw [List.foldl_cons, ih, connected_record,
        connected_connectQueue, List.mem_cons, or_assoc,
        ← or_and_right]

variable (records : List (Nat × BitVec 32))

theorem connected_disconnectAll
    (th : Nat)
    (p : BitVec 32)
    (q : Nat) :
    (records.foldl
        (fun s r => s.disconnectQueue r.1 r.2) s).Connected
          th p q ↔
      s.Connected th p q ∧ (th, p) ∉ records := by
  induction records generalizing s with
  | nil => simp
  | cons first rest ih =>
      rw [List.foldl_cons, ih, connected_disconnectQueue,
        List.mem_cons, not_or, and_assoc, Prod.ext_iff]

theorem queues_disconnectAll :
    (records.foldl
        (fun s r => s.disconnectQueue r.1 r.2) s).queues =
      s.queues := by
  induction records generalizing s with
  | nil => rfl
  | cons first rest ih => rw [List.foldl_cons, ih]; rfl

theorem nextQueue_disconnectAll :
    (records.foldl
        (fun s r => s.disconnectQueue r.1 r.2) s).nextQueue =
      s.nextQueue := by
  induction records generalizing s with
  | nil => rfl
  | cons first rest ih => rw [List.foldl_cons, ih]; rfl

/-
  What a step does: it makes a queue, ends one, connects
  threads to one, disconnects a port, or changes nothing.
-/
inductive Effect (s : EventPorts) : Event → EventPorts → Prop
  | create {protocol key size} :
      Effect s
        ⟨.create protocol key size,
          .created s.queues.nextId s.nextQueue⟩
        { s with
          queues := s.queues.create ⟨s.nextQueue, [], key⟩
          nextQueue := s.nextQueue + 1 }
  | destroy {eq info queues} :
      s.queues.get eq = some info →
      s.queues.destroy eq = some queues →
      Effect s ⟨.destroy eq, .destroyed info.queue⟩
        { info.connectedSpuThreads.foldl
            (fun s p => s.disconnectQueue p.1 p.2) s with
          queues }
  | connect {thread eq et spup info} :
      s.queues.get eq = some info →
      Effect s
        ⟨.connect thread eq et spup,
          .connected info.queue [thread] (spup.setWidth 32)⟩
        ([thread].foldl
          (fun s th =>
            (s.connectQueue th info.queue
              (spup.setWidth 32)).record eq th
                (spup.setWidth 32)) s)
  | connectAll {threads eq req info i} :
      s.queues.get eq = some info →
      s.freePort threads req = some i →
      Effect s
        ⟨.connectAll threads eq req,
          .connected info.queue threads (BitVec.ofNat 32 i)⟩
        (threads.foldl
          (fun s th =>
            (s.connectQueue th info.queue
              (BitVec.ofNat 32 i)).record eq th
                (BitVec.ofNat 32 i)) s)
  | disconnect {thread et spup} :
      Effect s
        ⟨.disconnect thread et spup,
          .disconnected thread (spup.setWidth 32)⟩
        (s.disconnectQueue thread (spup.setWidth 32))
  | send {thread value data1 queue port event} :
      s.receiver thread port = some queue →
      Effect s
        ⟨.interrupt thread value data1,
          .sent queue thread port event⟩ s
  | quiet {thread value data1} :
      Effect s ⟨.interrupt thread value data1, .quiet⟩ s
  | error {call code} : Effect s ⟨call, .error code⟩ s

variable {e : Event}

theorem effect_of_step
    {s t : EventPorts}
    (hStep : Step s e t) :
    Effect s e t := by
  rcases e with ⟨c, answer⟩
  unfold Step at hStep
  dsimp only at hStep
  cases c with
  | create protocol key size =>
      simp only [call, sys_event_queue_create] at hStep
      split_ifs at hStep
      · cases hStep
        exact .error
      · cases hStep
        exact .create
  | destroy eq =>
      simp only [call, sys_event_queue_destroy] at hStep
      split at hStep
      case h_1 => cases hStep
      case h_2 info hGet =>
          rw [queues_disconnectAll] at hStep
          rcases Option.map_eq_some_iff.mp hStep with
            ⟨queues, hDestroy, hEq⟩
          cases hEq
          exact .destroy hGet hDestroy
  | connect thread eq et spup =>
      simp only [call, sys_spu_thread_connect_event] at hStep
      split at hStep
      case h_1 => cases hStep
      case h_2 info hGet =>
          split_ifs at hStep
          · cases hStep
            exact .error
          · cases hStep
            exact .connect hGet
  | disconnect thread et spup =>
      simp only [call, sys_spu_thread_disconnect_event]
        at hStep
      split_ifs at hStep
      cases hStep
      exact .disconnect
  | connectAll threads eq req =>
      simp only [call,
        sys_spu_thread_group_connect_event_all_threads]
        at hStep
      split_ifs at hStep
      · cases hStep
        exact .error
      · split at hStep
        case h_1 => cases hStep
        case h_2 info hGet =>
            split at hStep
            case h_1 =>
                cases hStep
                exact .error
            case h_2 i hFree =>
                cases hStep
                exact .connectAll hGet hFree
  | interrupt thread value data1 =>
      simp only [call, handleInterrupt] at hStep
      split_ifs at hStep
      · cases hStep
        exact .quiet
      · split at hStep
        case h_1 => cases hStep
        case h_2 queue hReceiver =>
            cases hStep
            exact .send hReceiver

------------------------------------------------------------
-- Invariant
------------------------------------------------------------

/- Every connection is on the record of a queue that exists. -/
structure Inv (s : EventPorts) : Prop where
  bounded :
    ∀ id info, s.queues.get id = some info →
      info.queue < s.nextQueue
  distinct :
    ∀ id id' info info',
      s.queues.get id = some info →
      s.queues.get id' = some info' →
      info.queue = info'.queue → id = id'
  recorded :
    ∀ th p q, s.Connected th p q →
      ∃ id info,
        s.queues.get id = some info ∧ info.queue = q ∧
          (th, p) ∈ info.connectedSpuThreads

variable {th : Nat} {s : EventPorts}

theorem Inv.live
    (hInv : Inv s)
    {p : BitVec 32}
    {q : Nat}
    (hConnected : s.Connected th p q) :
    s.Live q := by
  rcases hInv.recorded th p q hConnected with
    ⟨id, info, hGet, hQueue, -⟩
  exact ⟨id, info, hGet, hQueue⟩

variable {eq : Nat} {info : QueueInfo}

/- The records of a queue have all connections to it. -/
theorem Inv.mem_records
    (hInv : Inv s)
    (hGet : s.queues.get eq = some info)
    {p : BitVec 32}
    (hConnected : s.Connected th p info.queue) :
    (th, p) ∈ info.connectedSpuThreads := by
  rcases hInv.recorded th p _ hConnected with
    ⟨id, info', hGet', hQueue, hMem⟩
  cases hInv.distinct id eq info' info hGet' hGet hQueue
  cases hGet'.symm.trans hGet
  exact hMem

theorem inv_initial (threadId : Nat → BitVec 64) :
    Inv (initial threadId) where
  bounded := by
    intro id info hGet
    cases hGet
  distinct := by
    intro id id' info info' hGet
    cases hGet
  recorded := by
    intro th p q hConnected
    cases hConnected

theorem Inv.create
    (hInv : Inv s)
    (key : BitVec 64) :
    Inv
      { s with
        queues := s.queues.create ⟨s.nextQueue, [], key⟩
        nextQueue := s.nextQueue + 1 } where
  bounded := by
    intro id info hGet
    rw [IDMap.get_create] at hGet
    split at hGet
    case isTrue =>
        cases hGet
        exact Nat.lt_succ_self _
    case isFalse =>
        exact Nat.lt_succ_of_lt (hInv.bounded id info hGet)
  distinct := by
    intro id id' info info' hGet hGet' hQueue
    rw [IDMap.get_create] at hGet hGet'
    split at hGet
    case isTrue hId =>
        cases hGet
        split at hGet'
        case isTrue hId' => rw [hId, hId']
        case isFalse =>
            have hLt := hInv.bounded id' info' hGet'
            dsimp only at hQueue
            omega
    case isFalse =>
        split at hGet'
        case isTrue =>
            cases hGet'
            have hLt := hInv.bounded id info hGet
            dsimp only at hQueue
            omega
        case isFalse =>
            exact
              hInv.distinct id id' info info' hGet hGet' hQueue
  recorded := by
    intro th p q hConnected
    rcases hInv.recorded th p q hConnected with
      ⟨id, info, hGet, hRest⟩
    refine ⟨id, info, ?_, hRest⟩
    rw [IDMap.get_create, if_neg]
    · exact hGet
    · rintro rfl
      rw [IDMap.get_nextId] at hGet
      cases hGet

/- One thread is connected, and both lists record it. -/
theorem Inv.connectThread
    (hInv : Inv s)
    (hGet : s.queues.get eq = some info)
    (thread : Nat)
    (port : BitVec 32) :
    Inv
      ((s.connectQueue thread info.queue port).record eq
        thread port) := by
  have hQueues :
      ∀ id info',
        ((s.connectQueue thread info.queue port).record eq
          thread port).queues.get id = some info' →
        ∃ old, s.queues.get id = some old ∧
          old.queue = info'.queue := by
    intro id info' hGet'
    change
      (s.queues.modify eq _).get id = some info' at hGet'
    rw [IDMap.get_modify] at hGet'
    split at hGet'
    case isTrue hId =>
        rw [hGet, Option.map_some] at hGet'
        cases hGet'
        exact ⟨info, hId ▸ hGet, rfl⟩
    case isFalse => exact ⟨info', hGet', rfl⟩
  refine ⟨?_, ?_, ?_⟩
  · intro id info' hGet'
    rcases hQueues id info' hGet' with ⟨old, hOld, hQueue⟩
    rw [← hQueue]
    exact hInv.bounded id old hOld
  · intro id id' first second hFirst hSecond hQueue
    rcases hQueues id first hFirst with ⟨old, hOld, hEq⟩
    rcases hQueues id' second hSecond with
      ⟨old', hOld', hEq'⟩
    exact
      hInv.distinct id id' old old' hOld hOld'
        (hEq.trans (hQueue.trans hEq'.symm))
  · intro th p q hConnected
    rw [connected_record, connected_connectQueue]
      at hConnected
    have hRecord :
        ∀ id info',
          s.queues.get id = some info' →
          (th, p) ∈ info'.connectedSpuThreads ∨
              (id = eq ∧ th = thread ∧ p = port) →
          ∃ id' new,
            (s.queues.modify eq (fun info =>
                { info with
                  connectedSpuThreads :=
                    info.connectedSpuThreads ++
                      [(thread, port)] })).get id' = some new ∧
              new.queue = info'.queue ∧
                (th, p) ∈ new.connectedSpuThreads := by
      intro id info' hOld hMem
      by_cases hId : id = eq
      · refine
          ⟨id,
            { info' with
              connectedSpuThreads :=
                info'.connectedSpuThreads ++ [(thread, port)] },
            ?_, rfl, ?_⟩
        · rw [IDMap.get_modify, if_pos hId, ← hId, hOld,
            Option.map_some]
        · rcases hMem with hMem | ⟨-, rfl, rfl⟩
          · exact List.mem_append_left _ hMem
          · exact
              List.mem_append_right _
                (List.mem_singleton_self _)
      · refine ⟨id, info', ?_, rfl, ?_⟩
        · rw [IDMap.get_modify, if_neg hId, hOld]
        · exact hMem.resolve_right (fun h => hId h.1)
    rcases hConnected with hOld | ⟨hTh, hPort, hQueue⟩
    · rcases hInv.recorded th p q hOld with
        ⟨id, info', hGet', hQueue, hMem⟩
      rw [← hQueue]
      exact hRecord id info' hGet' (.inl hMem)
    · rw [hQueue]
      exact hRecord eq info hGet (.inr ⟨rfl, hTh, hPort⟩)

theorem Inv.connectThreads
    (hInv : Inv s)
    (hGet : s.queues.get eq = some info)
    (threads : List Nat)
    (port : BitVec 32) :
    Inv
      (threads.foldl
        (fun s th =>
          (s.connectQueue th info.queue port).record eq th
            port) s) := by
  induction threads generalizing s info with
  | nil => exact hInv
  | cons first rest ih =>
      have hModified :
          ((s.connectQueue first info.queue port).record eq
              first port).queues.get eq =
            some
              { info with
                connectedSpuThreads :=
                  info.connectedSpuThreads ++
                    [(first, port)] } := by
        change (s.queues.modify eq _).get eq = _
        rw [IDMap.get_modify, if_pos rfl, hGet,
          Option.map_some]
      have hRest :=
        ih (hInv.connectThread hGet first port) hModified
      rw [List.foldl_cons]
      exact hRest

theorem Inv.disconnectQueue
    (hInv : Inv s)
    (thread : Nat)
    (port : BitVec 32) :
    Inv (s.disconnectQueue thread port) where
  bounded := hInv.bounded
  distinct := hInv.distinct
  recorded := by
    intro th p q hConnected
    rw [connected_disconnectQueue] at hConnected
    exact hInv.recorded th p q hConnected.1

/- A queue takes with it the connections on its record. -/
theorem Inv.destroy
    (hInv : Inv s)
    {queues : IDMap QueueInfo}
    (hGet : s.queues.get eq = some info)
    (hDestroy : s.queues.destroy eq = some queues) :
    Inv
      { info.connectedSpuThreads.foldl
          (fun s p => s.disconnectQueue p.1 p.2) s with
        queues } := by
  have hKept :
      ∀ id info', queues.get id = some info' →
        s.queues.get id = some info' := by
    intro id info' hGet'
    rw [IDMap.get_destroy hDestroy] at hGet'
    split at hGet'
    case isTrue => cases hGet'
    case isFalse => exact hGet'
  refine ⟨?_, ?_, ?_⟩
  · intro id info' hGet'
    dsimp only
    rw [nextQueue_disconnectAll]
    exact hInv.bounded id info' (hKept id info' hGet')
  · intro id id' first second hFirst hSecond hQueue
    exact
      hInv.distinct id id' first second (hKept _ _ hFirst)
        (hKept _ _ hSecond) hQueue
  · intro th p q hConnected
    change
      (info.connectedSpuThreads.foldl
        (fun s p => s.disconnectQueue p.1 p.2) s).Connected
          th p q at hConnected
    rw [connected_disconnectAll] at hConnected
    rcases hInv.recorded th p q hConnected.1 with
      ⟨id, info', hGet', hQueue, hMem⟩
    refine ⟨id, info', ?_, hQueue, hMem⟩
    rw [IDMap.get_destroy hDestroy, if_neg]
    · exact hGet'
    · rintro rfl
      cases hGet'.symm.trans hGet
      exact hConnected.2 hMem

theorem Inv.effect
    {s t : EventPorts}
    (hInv : Inv s)
    (hEffect : Effect s e t) :
    Inv t := by
  cases hEffect with
  | create => exact hInv.create _
  | destroy hGet hDestroy => exact hInv.destroy hGet hDestroy
  | connect hGet => exact hInv.connectThreads hGet _ _
  | connectAll hGet _ => exact hInv.connectThreads hGet _ _
  | disconnect => exact hInv.disconnectQueue _ _
  | send _ => exact hInv
  | quiet => exact hInv
  | error => exact hInv

variable {threadId : Nat → BitVec 64} {events : List Event}

theorem inv_of_run
    (hRun : Run Step (initial threadId) events s) :
    Inv s :=
  hRun.invariant Inv
    (fun _ _ _ hInv hStep => hInv.effect (effect_of_step hStep))
    (inv_initial threadId)

------------------------------------------------------------
-- Separate Runs
------------------------------------------------------------

/- The connections are those that are meant, one to a port. -/
structure Agrees
    (c : Connections)
    (s : EventPorts) : Prop where
  tracks :
    ∀ th p q, s.Connected th p q ↔ q ∈ c th p
  unique :
    ∀ th p q q',
      s.Connected th p q → s.Connected th p q' → q = q'

variable {port : BitVec 32}

theorem connected_of_receiver
    {q : Nat}
    (hReceiver : s.receiver th port = some q) :
    s.Connected th port q := by
  rcases Option.map_eq_some_iff.mp hReceiver with
    ⟨⟨port', queue⟩, hFind, rfl⟩
  have hPort := List.find?_some hFind
  rw [← eq_of_beq hPort]
  exact List.mem_of_find?_eq_some hFind

theorem not_connected_of_receiver
    (hReceiver : s.receiver th port = none)
    (q : Nat) :
    ¬ s.Connected th port q := by
  intro hConnected
  have hNone := Option.map_eq_none_iff.mp hReceiver
  have hPort := List.find?_eq_none.mp hNone _ hConnected
  exact hPort (beq_self_eq_true port)

variable {c : Connections}

theorem Agrees.receiver
    (hAgrees : Agrees c s)
    (th : Nat)
    (port : BitVec 32) :
    s.receiver th port = (c th port).head? := by
  cases hReceiver : s.receiver th port with
  | none =>
      have hNil : c th port = [] := by
        apply List.eq_nil_iff_forall_not_mem.mpr
        intro q hMem
        exact
          not_connected_of_receiver hReceiver q
            ((hAgrees.tracks th port q).mpr hMem)
      rw [hNil, List.head?_nil]
  | some q =>
      have hConnected := connected_of_receiver hReceiver
      cases hList : c th port with
      | nil =>
          have hMem := (hAgrees.tracks th port q).mp hConnected
          rw [hList] at hMem
          cases hMem
      | cons first rest =>
          have hFirst : s.Connected th port first := by
            rw [hAgrees.tracks, hList]
            exact List.mem_cons_self
          rw [List.head?_cons,
            hAgrees.unique th port q first hConnected hFirst]

/- No thread of the group uses the port that is found. -/
theorem not_connected_of_freePort
    {threads : List Nat}
    {req : BitVec 64}
    {i : Nat}
    (hFree : s.freePort threads req = some i)
    (hTh : th ∈ threads)
    (q : Nat) :
    ¬ s.Connected th (BitVec.ofNat 32 i) q := by
  intro hConnected
  have hFound := List.find?_some hFree
  rw [Bool.and_eq_true, List.all_eq_true] at hFound
  have hAvailable := hFound.2 th hTh
  rw [isQueuePortAvailableToConnect, List.all_eq_true]
    at hAvailable
  have hPort := hAvailable _ hConnected
  simp at hPort

/- Where its ports are separate, a queue takes only its own. -/
theorem connected_destroy
    (hInv : Inv s)
    (queues : IDMap QueueInfo)
    (hGet : s.queues.get eq = some info)
    (hSeparate :
      ∀ p ∈ info.connectedSpuThreads,
        ∀ q, s.Connected p.1 p.2 q → q = info.queue)
    (th : Nat)
    (p : BitVec 32)
    (q : Nat) :
    Connected
        { info.connectedSpuThreads.foldl
            (fun s p => s.disconnectQueue p.1 p.2) s with
          queues } th p q ↔
      s.Connected th p q ∧ q ≠ info.queue := by
  change
    (info.connectedSpuThreads.foldl
      (fun s p => s.disconnectQueue p.1 p.2) s).Connected
        th p q ↔ _
  rw [connected_disconnectAll]
  constructor
  · rintro ⟨hConnected, hNotMem⟩
    refine ⟨hConnected, ?_⟩
    rintro rfl
    exact hNotMem (hInv.mem_records hGet hConnected)
  · rintro ⟨hConnected, hNe⟩
    refine ⟨hConnected, ?_⟩
    intro hMem
    exact hNe (hSeparate (th, p) hMem q hConnected)

theorem tracks_connect
    (hAgrees : Agrees c s)
    (eq queue : Nat)
    (threads : List Nat)
    (port : BitVec 32)
    (call : Call)
    (th : Nat)
    (p : BitVec 32)
    (q : Nat) :
    (threads.foldl
        (fun s th =>
          (s.connectQueue th queue port).record eq th port)
        s).Connected th p q ↔
      q ∈ c.next ⟨call, .connected queue threads port⟩ th p := by
  rw [connected_connectThreads, hAgrees.tracks]
  simp only [Connections.next]
  by_cases hNew : th ∈ threads ∧ p = port
  · rw [if_pos hNew, List.mem_cons, or_comm]
    simp only [hNew, true_and]
  · rw [if_neg hNew, ← and_assoc]
    simp only [hNew, false_and, or_false]

/- Connecting keeps ports apart that have no other queue. -/
theorem unique_connect
    (hAgrees : Agrees c s)
    (eq queue : Nat)
    (threads : List Nat)
    (port : BitVec 32)
    (hOnly :
      ∀ th ∈ threads, ∀ q, s.Connected th port q → q = queue)
    (th : Nat)
    (p : BitVec 32)
    (q q' : Nat)
    (hFirst :
      (threads.foldl
        (fun s th =>
          (s.connectQueue th queue port).record eq th port)
        s).Connected th p q)
    (hSecond :
      (threads.foldl
        (fun s th =>
          (s.connectQueue th queue port).record eq th port)
        s).Connected th p q') :
    q = q' := by
  rw [connected_connectThreads] at hFirst hSecond
  rcases hFirst with hFirst | ⟨hTh, rfl, rfl⟩
  · rcases hSecond with hSecond | ⟨hTh, rfl, rfl⟩
    · exact hAgrees.unique th p q q' hFirst hSecond
    · exact hOnly th hTh q hFirst
  · rcases hSecond with hSecond | ⟨-, -, rfl⟩
    · exact (hOnly th hTh q' hSecond).symm
    · rfl

theorem Agrees.next
    {s t : EventPorts}
    (hAgrees : Agrees c s)
    (hInv : Inv s)
    (hEffect : Effect s e t)
    (hSeparate : separate s e) :
    Agrees (c.next e) t := by
  cases hEffect with
  | create => exact ⟨hAgrees.tracks, hAgrees.unique⟩
  | @destroy eq info queues hGet hDestroy =>
      have hConnected :=
        connected_destroy hInv queues hGet
          (hSeparate info hGet)
      refine ⟨?_, ?_⟩
      · intro th p q
        rw [hConnected, hAgrees.tracks]
        simp only [Connections.next, List.mem_filter,
          bne_iff_ne]
      · intro th p q q' hFirst hSecond
        rw [hConnected] at hFirst hSecond
        exact hAgrees.unique th p q q' hFirst.1 hSecond.1
  | connect hGet =>
      refine
        ⟨tracks_connect hAgrees _ _ _ _ _,
          unique_connect hAgrees _ _ _ _ ?_⟩
      intro th hTh q hConnected
      rw [List.mem_singleton.mp hTh] at hConnected
      exact hSeparate q hConnected
  | connectAll hGet hFree =>
      refine
        ⟨tracks_connect hAgrees _ _ _ _ _,
          unique_connect hAgrees _ _ _ _ ?_⟩
      intro th hTh q hConnected
      exact
        absurd hConnected
          (not_connected_of_freePort hFree hTh q)
  | disconnect =>
      refine ⟨?_, ?_⟩
      · intro th p q
        rw [connected_disconnectQueue, hAgrees.tracks]
        simp only [Connections.next]
        split
        case isTrue hOwn => simp [hOwn]
        case isFalse hOther => simp [hOther]
      · intro th p q q' hFirst hSecond
        rw [connected_disconnectQueue] at hFirst hSecond
        exact hAgrees.unique th p q q' hFirst.1 hSecond.1
  | send _ => exact ⟨hAgrees.tracks, hAgrees.unique⟩
  | quiet => exact ⟨hAgrees.tracks, hAgrees.unique⟩
  | error => exact ⟨hAgrees.tracks, hAgrees.unique⟩

theorem connections_snoc
    (events : List Event)
    (e : Event) :
    connections (events ++ [e]) = (connections events).next e := by
  unfold connections
  rw [List.foldl_append, List.foldl_cons, List.foldl_nil]

theorem Separate.prefix
    {start : EventPorts}
    {events more : List Event}
    (hSeparate : Separate start (events ++ more)) :
    Separate start events := by
  intro before e after s t hEvents hRun hStep
  apply hSeparate before e (after ++ more) s t ?_ hRun hStep
  rw [hEvents, List.append_assoc, List.cons_append]

theorem agrees_of_run
    (hRun : Run Step (initial threadId) events s)
    (hSeparate : Separate (initial threadId) events) :
    Agrees (connections events) s := by
  induction hRun with
  | nil =>
      refine ⟨?_, ?_⟩
      · intro th p q
        simp [Connected, initial, connections]
      · intro th p q q' hConnected
        cases hConnected
  | @snoc events middle finish e hRun hLast ih =>
      rw [connections_snoc]
      exact
        (ih hSeparate.prefix).next (inv_of_run hRun)
          (effect_of_step hLast)
          (hSeparate events e [] middle finish rfl hRun hLast)

theorem removesOwn_of_effect
    {s t : EventPorts}
    (hInv : Inv s)
    (hEffect : Effect s e t)
    (hSeparate : separate s e) :
    RemovesOwn s e t := by
  cases hEffect with
  | destroy hGet hDestroy =>
      exact
        connected_destroy hInv _ hGet (hSeparate _ hGet)
  | disconnect => exact connected_disconnectQueue s _ _
  | create => trivial
  | connect _ => trivial
  | connectAll _ _ => trivial
  | send _ => trivial
  | quiet => trivial
  | error => trivial

------------------------------------------------------------
-- Law of the Connections
------------------------------------------------------------

theorem sendsToLatest_of_effect
    {s t : EventPorts}
    (hAgrees : Agrees (connections events) s)
    (hEffect : Effect s e t) :
    SendsToLatest events e := by
  cases hEffect with
  | send hReceiver =>
      exact (hAgrees.receiver _ _).symm.trans hReceiver
  | create => trivial
  | destroy _ _ => trivial
  | connect _ => trivial
  | connectAll _ _ => trivial
  | disconnect => trivial
  | quiet => trivial
  | error => trivial

theorem lawful_of_separate
    (hSeparate : Separate (initial threadId) events) :
    Lawful (initial threadId) events := by
  intro before e after s t hEvents hRun hStep
  have hNext : separate s e :=
    hSeparate before e after s t hEvents hRun hStep
  have hBefore : Separate (initial threadId) before := by
    rw [hEvents] at hSeparate
    exact hSeparate.prefix
  have hInv := inv_of_run hRun
  have hAgrees := agrees_of_run hRun hBefore
  have hAfter :=
    hAgrees.next hInv (effect_of_step hStep) hNext
  rw [← connections_snoc] at hAfter
  refine ⟨?_, hAfter.receiver, ?_, ?_⟩
  · intro th port q q' hFirst hSecond _ _
    exact hAfter.unique th port q q' hFirst hSecond
  · exact removesOwn_of_effect hInv (effect_of_step hStep) hNext
  · exact
      sendsToLatest_of_effect hAgrees (effect_of_step hStep)

/- A port that is connected twice has two queues. -/
theorem eq_of_singleQueue
    {thread : Nat}
    (hInv : Inv s)
    (hGet : s.queues.get eq = some info)
    (hSingle :
      SingleQueue
        ([thread].foldl
          (fun s th =>
            (s.connectQueue th info.queue port).record eq th
              port) s))
    {q : Nat}
    (hConnected : s.Connected thread port q) :
    q = info.queue := by
  have hAfter := hInv.connectThreads hGet [thread] port
  have hOld :=
    (connected_connectThreads s eq info.queue port [thread]
      thread port q).mpr (.inl hConnected)
  have hNew :=
    (connected_connectThreads s eq info.queue port [thread]
      thread port info.queue).mpr
        (.inr ⟨List.mem_singleton_self _, rfl, rfl⟩)
  exact
    hSingle thread port q info.queue hOld hNew
      (hAfter.live hOld) (hAfter.live hNew)

theorem separate_of_lawful
    (hLawful : Lawful (initial threadId) events) :
    Separate (initial threadId) events := by
  intro before e after s t hEvents hRun hStep
  have hInv := inv_of_run hRun
  rcases hLawful before e after s t hEvents hRun hStep with
    ⟨hSingle, -, hRemoves, -⟩
  cases effect_of_step hStep with
  | connect hGet =>
      intro q hConnected
      exact eq_of_singleQueue hInv hGet hSingle hConnected
  | @destroy eq info queues hGet hDestroy =>
      intro info' hGet' p hMem q hConnected
      cases hGet'.symm.trans hGet
      by_contra hNe
      -- the port is on record, so this connection is lost
      have hKept :=
        (hRemoves p.1 p.2 q).mpr ⟨hConnected, hNe⟩
      exact
        ((connected_disconnectAll s _ p.1 p.2 q).mp hKept).2
          hMem
  | create => trivial
  | connectAll _ _ => trivial
  | disconnect => trivial
  | send _ => trivial
  | quiet => trivial
  | @error call code => cases call <;> trivial

theorem lawful_iff
    (threadId : Nat → BitVec 64)
    (events : List Event) :
    Lawful (initial threadId) events ↔
      Separate (initial threadId) events :=
  ⟨separate_of_lawful, lawful_of_separate⟩

/-
  A port is connected to a queue, disconnected, connected to
  another queue, and then the first queue is destroyed.
-/
def staleRecord : List Event :=
  [⟨.create SYS_SYNC_FIFO 0 4, .created 0x5000 0⟩,
    ⟨.create SYS_SYNC_FIFO 0 4, .created 0x5001 1⟩,
    ⟨.connect 7 0x5000 SYS_SPU_THREAD_EVENT_USER 5,
      .connected 0 [7] 5⟩,
    ⟨.disconnect 7 SYS_SPU_THREAD_EVENT_USER 5,
      .disconnected 7 5⟩,
    ⟨.connect 7 0x5001 SYS_SPU_THREAD_EVENT_USER 5,
      .connected 1 [7] 5⟩,
    ⟨.destroy 0x5000, .destroyed 0⟩]

theorem staleRecord_unlawful :
    ¬ ∀ (threadId : Nat → BitVec 64) (events : List Event)
        (s : EventPorts),
        Run Step (initial threadId) events s →
          Lawful (initial threadId) events := by
  intro hAll
  have hRun :
      ∃ s t,
        Run Step (initial (fun _ => 0)) (staleRecord.take 5) s ∧
          Step s ⟨.destroy 0x5000, .destroyed 0⟩ t ∧
            s.receiver 7 5 = some 1 ∧
              t.receiver 7 5 = none :=
    ⟨_, _,
      .snoc
        (.snoc
          (.snoc
            (.snoc (.snoc .nil (by exact rfl)) (by exact rfl))
            (by exact rfl))
          (by exact rfl))
        (by exact rfl),
      by exact rfl, by exact rfl, by exact rfl⟩
  rcases hRun with ⟨s, t, hRun, hStep, hBefore, hAfter⟩
  have hLawful :=
    hAll (fun _ => 0) staleRecord t (.snoc hRun hStep)
      (staleRecord.take 5) _ [] s t rfl hRun hStep
  have hKept :=
    (hLawful.2.2.1 7 5 1).mpr
      ⟨connected_of_receiver hBefore, by decide⟩
  exact not_connected_of_receiver hAfter 1 hKept

end EventPorts

end Ps3emu
