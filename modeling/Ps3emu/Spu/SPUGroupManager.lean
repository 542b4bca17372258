import Mathlib.Data.Prod.Lex
import Mathlib.Data.List.Sort
import Mathlib.Logic.Function.Basic

/-
  The scheduler of SPU thread groups: the groups that were
  created, the collections in which they wait or run, and the
  threads that it suspends and resumes.

  Key definitions include:
    * `ThreadGroup`
    * `SPUGroupManager`
    * `SPUGroupManager.dispatch`
    * `SPUGroupManager.Step`
-/

------------------------------------------------------------
-- Groups
------------------------------------------------------------

namespace Ps3emu

inductive SPUThreadExitCause where
  | exit
  | groupExit
  | groupTerminate
  | stillRunning
deriving DecidableEq

structure SPUThreadExitInfo where
  cause : SPUThreadExitCause
  status : BitVec 32
deriving DecidableEq

/- A group is known by its priority and its id. -/
structure ThreadGroup where
  priority : BitVec 32
  id : Nat
deriving DecidableEq

namespace ThreadGroup

/- The key of `PriorityComparer`. -/
def key (group : ThreadGroup) : Nat ×ₗ Nat :=
  toLex (group.priority.toNat, group.id)

theorem key_injective : Function.Injective key := by
  intro first second hKey
  have hPair := toLex.injective hKey
  rcases Prod.mk.inj hPair with ⟨hPriority, hId⟩
  cases first with
  | mk priority id =>
      cases second with
      | mk priority' id' =>
          dsimp only at hPriority hId
          rw [BitVec.eq_of_toNat_eq hPriority, hId]

instance : LinearOrder ThreadGroup :=
  LinearOrder.lift' key key_injective

end ThreadGroup

------------------------------------------------------------
-- States
------------------------------------------------------------

/- The parts of an SPU thread that the manager uses. -/
structure ManagedThread where
  group : Option ThreadGroup := none
  suspended : Bool := false
  needsJoin : Bool := false
  exitInfo : SPUThreadExitInfo := ⟨.stillRunning, 0⟩
deriving DecidableEq

/-
  `live` has the groups that exist, `threads` and `causes` the
  threads of a group and what is known of their ends.  A cause
  that was never written is the first one.
-/
structure SPUGroupManager where
  live : List ThreadGroup := []
  threads : ThreadGroup → List Nat := fun _ => []
  causes : Nat → SPUThreadExitCause := fun _ => .exit
  errorCodes : Nat → BitVec 32 := fun _ => 0
  thread : Nat → ManagedThread := fun _ => {}
  initialized : List ThreadGroup := []
  ready : List ThreadGroup := []
  running : List ThreadGroup := []
  suspended : List ThreadGroup := []

namespace SPUGroupManager

/- The number of the physical SPUs. -/
def physicalSpus : Nat := 6

def size (s : SPUGroupManager) (group : ThreadGroup) : Nat :=
  (s.threads group).length

def anyRunning
    (s : SPUGroupManager)
    (group : ThreadGroup) : Bool :=
  (s.threads group).any (fun th => s.causes th == .stillRunning)

def anyStopped
    (s : SPUGroupManager)
    (group : ThreadGroup) : Bool :=
  (s.threads group).any (fun th => s.causes th != .stillRunning)

/- `insert` of a set that is ordered by `PriorityComparer`. -/
def insert
    (ready : List ThreadGroup)
    (group : ThreadGroup) : List ThreadGroup :=
  if group ∈ ready then ready
  else ready.orderedInsert (· ≤ ·) group

/- Suspend or resume all threads of the groups. -/
def setSuspended
    (s : SPUGroupManager)
    (groups : List ThreadGroup)
    (value : Bool) : SPUGroupManager :=
  { s with
    thread := fun th =>
      if th ∈ groups.flatMap s.threads then
        { s.thread th with suspended := value }
      else s.thread th }

------------------------------------------------------------
-- Operations
------------------------------------------------------------

def add
    (s : SPUGroupManager)
    (group : ThreadGroup) : SPUGroupManager :=
  { s with initialized := s.initialized ++ [group] }

/-
  Running groups are ready again, and as many ready groups as
  fit run, in the order of the set.
-/
def dispatch (s : SPUGroupManager) : SPUGroupManager :=
  let ready := s.running.foldl insert s.ready
  let running :=
    (ready.foldl
      (fun state group =>
        if s.size group ≤ state.2 then
          (state.1 ++ [group], state.2 - s.size group)
        else state)
      ([], physicalSpus)).1
  let ready := running.foldl List.erase ready
  ({ s with ready, running }.setSuspended ready true).setSuspended
    running false

/- `sys_spu_thread_group_create`. -/
def createGroup
    (s : SPUGroupManager)
    (group : ThreadGroup) : Option SPUGroupManager :=
  if ∀ other ∈ s.live, other.id ≠ group.id then
    some
      ({ s with
        live := group :: s.live
        threads := Function.update s.threads group [] }.add
        group)
  else none

/- `sys_spu_thread_initialize` gives the group a new thread. -/
def initializeThread
    (s : SPUGroupManager)
    (group : ThreadGroup)
    (th : Nat) : Option SPUGroupManager :=
  if group ∈ s.initialized ∧ (s.thread th).group = none then
    some
      { s with
        threads :=
          Function.update s.threads group
            (s.threads group ++ [th])
        thread :=
          Function.update s.thread th
            { s.thread th with group := some group }
        causes := Function.update s.causes th .exit }
  else none

/- `sys_spu_thread_group_destroy`. -/
def destroy
    (s : SPUGroupManager)
    (group : ThreadGroup) : Option SPUGroupManager :=
  if group ∈ s.initialized then
    some
      { s with
        initialized := s.initialized.erase group
        live := s.live.erase group }
  else none

/- `run` asserts that the thread is not to be joined. -/
def start
    (s : SPUGroupManager)
    (group : ThreadGroup) : Option SPUGroupManager :=
  let threads := s.threads group
  if threads.any (fun th => (s.thread th).needsJoin) then none
  else
    let s :=
      { s with
        causes := fun th =>
          if th ∈ threads then .stillRunning else s.causes th
        thread := fun th =>
          if th ∈ threads then
            { s.thread th with
              suspended := true
              needsJoin := true }
          else s.thread th }
    if group ∈ s.initialized then
      some
        { s with
          initialized := s.initialized.erase group
          ready := insert s.ready group }.dispatch
    else none

def CELL_OK : BitVec 32 := 0
def CELL_ESTAT : BitVec 32 := 0x8001000f

/- A group is not suspended once one of its threads stopped. -/
def suspend
    (s : SPUGroupManager)
    (group : ThreadGroup) : SPUGroupManager × BitVec 32 :=
  if group ∈ s.suspended then (s, CELL_OK)
  else if group ∉ s.ready ∧ group ∉ s.running then
    (s, CELL_ESTAT)
  else if s.anyStopped group then (s, CELL_OK)
  else
    let s :=
      if group ∈ s.running then
        { s.setSuspended [group] true with
          running := s.running.erase group }
      else { s with ready := s.ready.erase group }
    ({ s with suspended := s.suspended ++ [group] }.dispatch,
      CELL_OK)

def resume
    (s : SPUGroupManager)
    (group : ThreadGroup) : SPUGroupManager × BitVec 32 :=
  if group ∈ s.suspended then
    ({ s with
      suspended := s.suspended.erase group
      ready := insert s.ready group }.dispatch,
      CELL_OK)
  else (s, CELL_ESTAT)

def SYS_SPU_THREAD_GROUP_JOIN_GROUP_EXIT : BitVec 32 := 0x0001
def SYS_SPU_THREAD_GROUP_JOIN_ALL_THREADS_EXIT : BitVec 32 :=
  0x0002
def SYS_SPU_THREAD_GROUP_JOIN_TERMINATED : BitVec 32 := 0x0004

/- What the loop of `join` has found so far. -/
structure JoinState where
  groupExit : Bool := false
  threadExit : Bool := true
  groupTerminate : Bool := false
  terminateStatus : BitVec 32 := 0
  groupExitStatus : BitVec 32 := 0
deriving DecidableEq

/- Once a group exit is found, each status replaces the last. -/
def JoinState.next
    (j : JoinState)
    (info : SPUThreadExitInfo) : JoinState :=
  let groupExit := j.groupExit || info.cause == .groupExit
  let groupTerminate :=
    j.groupTerminate || info.cause == .groupTerminate
  { groupExit
    groupTerminate
    threadExit := j.threadExit && info.cause == .exit
    terminateStatus :=
      if groupTerminate then info.status
      else j.terminateStatus
    groupExitStatus :=
      if groupExit then info.status else j.groupExitStatus }

/- The cause and the status that `join` returns. -/
def JoinState.result (j : JoinState) : BitVec 32 × BitVec 32 :=
  if j.groupTerminate then
    (SYS_SPU_THREAD_GROUP_JOIN_TERMINATED, j.terminateStatus)
  else if j.groupExit then
    (SYS_SPU_THREAD_GROUP_JOIN_GROUP_EXIT, j.groupExitStatus)
  else if j.threadExit then
    (SYS_SPU_THREAD_GROUP_JOIN_ALL_THREADS_EXIT, 0)
  else (0, 0)

/-
  What follows when all threads of the group have returned:
  the group is asserted to be initialized.
-/
def join
    (s : SPUGroupManager)
    (group : ThreadGroup) :
    Option (SPUGroupManager × (BitVec 32 × BitVec 32)) :=
  let threads := s.threads group
  let infos := threads.map (fun th => (s.thread th).exitInfo)
  if group ∈ s.initialized then
    some
      ({ s with
        thread := fun th =>
          if th ∈ threads then
            { s.thread th with needsJoin := false }
          else s.thread th
        errorCodes := fun th =>
          if th ∈ threads then (s.thread th).exitInfo.status
          else s.errorCodes th },
        (infos.foldl JoinState.next {}).result)
  else none

/- A raw thread has no group. -/
def notifyThreadStopped
    (s : SPUGroupManager)
    (th : Nat)
    (cause : SPUThreadExitCause) : Option SPUGroupManager :=
  match (s.thread th).group with
  | none => some s
  | some group =>
      let s :=
        { s with causes := Function.update s.causes th cause }
      if s.anyRunning group then some s
      else if group ∈ s.running ∨ group ∈ s.ready ∨
          group ∈ s.suspended then
        some
          { s with
            running := s.running.erase group
            suspended := s.suspended.erase group
            ready := s.ready.erase group
            initialized := s.initialized ++ [group] }.dispatch
      else none

/- A thread writes its cause and its exit code. -/
def record
    (s : SPUGroupManager)
    (th : Nat)
    (info : SPUThreadExitInfo) : SPUGroupManager :=
  { s with
    thread :=
      Function.update s.thread th
        { s.thread th with exitInfo := info } }

------------------------------------------------------------
-- Steps
------------------------------------------------------------

inductive Event where
  | create (group : ThreadGroup)
  | addThread (group : ThreadGroup) (th : Nat)
  | destroy (group : ThreadGroup)
  | start (group : ThreadGroup)
  | suspend (group : ThreadGroup) (result : BitVec 32)
  | resume (group : ThreadGroup) (result : BitVec 32)
  | join
      (group : ThreadGroup)
      (result : BitVec 32 × BitVec 32)
  | notify (th : Nat) (cause : SPUThreadExitCause)
  | record (th : Nat) (info : SPUThreadExitInfo)
deriving DecidableEq

/-
  The operations hold the lock of the manager.  Where one of
  them fails an assertion there is no step.
-/
inductive Step
    (s : SPUGroupManager) :
    Event → SPUGroupManager → Prop where
  | create {group : ThreadGroup} {t : SPUGroupManager} :
      s.createGroup group = some t →
      Step s (.create group) t
  | addThread
      {group : ThreadGroup}
      {th : Nat}
      {t : SPUGroupManager} :
      s.initializeThread group th = some t →
      Step s (.addThread group th) t
  | destroy {group : ThreadGroup} {t : SPUGroupManager} :
      s.destroy group = some t →
      Step s (.destroy group) t
  | start {group : ThreadGroup} {t : SPUGroupManager} :
      s.start group = some t →
      Step s (.start group) t
  | suspend (group : ThreadGroup) :
      Step s (.suspend group (s.suspend group).2)
        (s.suspend group).1
  | resume (group : ThreadGroup) :
      Step s (.resume group (s.resume group).2)
        (s.resume group).1
  | join
      {group : ThreadGroup}
      {t : SPUGroupManager}
      {result : BitVec 32 × BitVec 32} :
      s.join group = some (t, result) →
      Step s (.join group result) t
  | notify
      {th : Nat}
      {cause : SPUThreadExitCause}
      {t : SPUGroupManager} :
      cause ≠ .stillRunning →
      s.notifyThreadStopped th cause = some t →
      Step s (.notify th cause) t
  | record (th : Nat) (info : SPUThreadExitInfo) :
      Step s (.record th info) (s.record th info)

end SPUGroupManager

end Ps3emu
