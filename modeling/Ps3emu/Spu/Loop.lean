import Ps3emu.Spu.GroupState

/-
  The run loop of an SPU thread, with its exception handlers,
  and the groups whose threads run it.

  Key definitions include:
    * `Iteration`
    * `SpuLoop.iterate`
    * `GroupSystem.Step`
    * `GroupSystem.EndsReported`, `GroupSystem.Reporting`

  Key theorems include:
    * `SpuLoop.iterate_notified`
    * `GroupSystem.initialized_of_ended`
    * `GroupSystem.endsReported_iff`
-/

------------------------------------------------------------
-- The Loop
------------------------------------------------------------

namespace Ps3emu

inductive SPUThreadEvent where
  | breakpoint
  | started
  | finished
  | invalidInstruction
  | failure
deriving DecidableEq

/-
  What the program does in one iteration: an instruction is
  executed, or an exception leaves it.  `mail` is the word
  that the handler reads from the outbound mailbox.
-/
inductive Iteration where
  | instruction
  | breakpoint
  | illegalInstruction
  | finished
      (errorCode : BitVec 32)
      (cause : SPUThreadExitCause)
  | stopSignal (type mail : BitVec 32)
  | interrupt (imboxValue : BitVec 32)
  | infiniteLoop
  | failure
deriving DecidableEq

def SYS_SPU_THREAD_STOP_GROUP_EXIT : BitVec 32 := 0x0101
def SYS_SPU_THREAD_STOP_THREAD_EXIT : BitVec 32 := 0x0102
def SYS_SPU_THREAD_STOP_RECEIVE_EVENT : BitVec 32 := 0x0110
def STOP_TYPE_RESERVE : BitVec 32 := 0x2000

def SPU_Status_P : BitVec 32 := 1 <<< 1

def SPU_Status_SetStopCode
    (status code : BitVec 32) : BitVec 32 :=
  status &&& 0xffff ||| code <<< 16

/-
  The parts of a thread that its loop writes: `events` are
  the calls of the event handler, and `notified` those of the
  group manager.
-/
structure SpuLoop where
  exitCode : BitVec 32 := 0
  cause : SPUThreadExitCause := .stillRunning
  spuStatus : BitVec 32 := 0
  events : List SPUThreadEvent := []
  notified : List SPUThreadExitCause := []
deriving DecidableEq

namespace SpuLoop

def handle
    (t : SpuLoop)
    (event : SPUThreadEvent) : SpuLoop :=
  { t with events := t.events ++ [event] }

/- `_cause` is set, and the group manager is notified of it. -/
def notify
    (t : SpuLoop)
    (cause : SPUThreadExitCause) : SpuLoop :=
  { t with
    cause
    notified := t.notified ++ [cause] }

/- `run`, up to the first iteration. -/
def begin (t : SpuLoop) : SpuLoop :=
  { t with
    events := [.started]
    notified := [] }

/-
  One iteration with its handlers, and whether the loop goes
  on.  Otherwise it breaks, and the thread has finished.
-/
def iterate (t : SpuLoop) : Iteration → SpuLoop × Bool
  | .instruction => (t, true)
  | .breakpoint => (t.handle .breakpoint, true)
  | .illegalInstruction =>
      ((t.handle .invalidInstruction).handle .finished, false)
  | .finished errorCode cause =>
      ({ t with exitCode := errorCode, cause }.handle .finished,
        false)
  | .stopSignal type mail =>
      if type = SYS_SPU_THREAD_STOP_RECEIVE_EVENT then (t, true)
      else if type = SYS_SPU_THREAD_STOP_GROUP_EXIT ∨
          type = SYS_SPU_THREAD_STOP_THREAD_EXIT then
        let status :=
          SPU_Status_SetStopCode t.spuStatus type |||
            SPU_Status_P
        let cause :=
          if type = SYS_SPU_THREAD_STOP_GROUP_EXIT then
            .groupExit
          else .exit
        (({ t with
            spuStatus := status
            exitCode := mail }.notify cause).handle .finished,
          false)
      else if type = STOP_TYPE_RESERVE then
        (t.handle .finished, false)
      else ((t.handle .breakpoint).handle .finished, false)
  | .interrupt _ => (t, true)
  | .infiniteLoop =>
      (({ t with
          spuStatus :=
            SPU_Status_SetStopCode t.spuStatus
              SYS_SPU_THREAD_STOP_GROUP_EXIT }.notify
        .exit).handle .finished,
        false)
  | .failure => ((t.handle .failure).handle .finished, false)

end SpuLoop

namespace Iteration

/- The iteration leaves the loop. -/
def ends : Iteration → Bool
  | .instruction => false
  | .breakpoint => false
  | .interrupt _ => false
  | .stopSignal type _ =>
      type ≠ SYS_SPU_THREAD_STOP_RECEIVE_EVENT
  | _ => true

/- The ends of which the group manager is notified. -/
def reports : Iteration → Bool
  | .stopSignal type _ =>
      type = SYS_SPU_THREAD_STOP_GROUP_EXIT ∨
        type = SYS_SPU_THREAD_STOP_THREAD_EXIT
  | .infiniteLoop => true
  | _ => false

theorem ends_of_reports
    {it : Iteration}
    (hReports : it.reports = true) :
    it.ends = true := by
  cases it with
  | stopSignal type mail =>
      have hNot : type ≠ SYS_SPU_THREAD_STOP_RECEIVE_EVENT := by
        rcases of_decide_eq_true hReports with rfl | rfl
        · decide
        · decide
      exact decide_eq_true hNot
  | infiniteLoop => rfl
  | instruction => cases hReports
  | breakpoint => cases hReports
  | illegalInstruction => cases hReports
  | finished errorCode cause => cases hReports
  | interrupt imboxValue => cases hReports
  | failure => cases hReports

end Iteration

namespace SpuLoop

theorem iterate_continues
    (t : SpuLoop)
    (it : Iteration) :
    (t.iterate it).2 = !it.ends := by
  cases it with
  | stopSignal type mail =>
      unfold iterate Iteration.ends
      dsimp only
      split
      case isTrue hReceive => simp [hReceive]
      case isFalse hReceive =>
        rw [decide_eq_true hReceive]
        split
        case isTrue => rfl
        case isFalse =>
          split
          case isTrue => rfl
          case isFalse => rfl
  | instruction => rfl
  | breakpoint => rfl
  | illegalInstruction => rfl
  | finished errorCode cause => rfl
  | interrupt imboxValue => rfl
  | infiniteLoop => rfl
  | failure => rfl

/- An end is reported once, or not at all. -/
theorem iterate_notified
    (t : SpuLoop)
    (it : Iteration) :
    (t.iterate it).1.notified =
      if it.reports then
        t.notified ++ [(t.iterate it).1.cause]
      else t.notified := by
  cases it with
  | stopSignal type mail =>
      unfold iterate Iteration.reports
      dsimp only
      split
      case isTrue hReceive =>
        rw [hReceive]
        rfl
      case isFalse hReceive =>
        split
        case isTrue hExit =>
          rw [decide_eq_true hExit]
          rfl
        case isFalse hExit =>
          rw [decide_eq_false hExit]
          split
          case isTrue => rfl
          case isFalse => rfl
  | instruction => rfl
  | breakpoint => rfl
  | illegalInstruction => rfl
  | finished errorCode cause => rfl
  | interrupt imboxValue => rfl
  | infiniteLoop => rfl
  | failure => rfl

theorem iterate_cause
    {it : Iteration}
    (hReports : it.reports = true)
    (t : SpuLoop) :
    (t.iterate it).1.cause ≠ .stillRunning := by
  cases it with
  | stopSignal type mail =>
      have hExit := of_decide_eq_true hReports
      have hNot : type ≠ SYS_SPU_THREAD_STOP_RECEIVE_EVENT := by
        rcases hExit with rfl | rfl
        · decide
        · decide
      unfold iterate
      dsimp only
      rw [if_neg hNot, if_pos hExit]
      unfold handle notify
      dsimp only
      split
      case isTrue => decide
      case isFalse => decide
  | infiniteLoop =>
      intro hCause
      cases hCause
  | instruction => cases hReports
  | breakpoint => cases hReports
  | illegalInstruction => cases hReports
  | finished errorCode cause => cases hReports
  | interrupt imboxValue => cases hReports
  | failure => cases hReports

end SpuLoop

------------------------------------------------------------
-- Groups and Their Properties
------------------------------------------------------------

/- The group manager, and the loops of the threads. -/
structure GroupSystem where
  manager : SPUGroupManager := {}
  alive : Nat → Bool := fun _ => false
  loop : Nat → SpuLoop := fun _ => {}

namespace GroupSystem

open Transition

/- The calls that do not wait for a thread or start one. -/
inductive Call where
  | create (group : ThreadGroup)
  | addThread (group : ThreadGroup) (th : Nat)
  | destroy (group : ThreadGroup)
  | suspend (group : ThreadGroup) (result : BitVec 32)
  | resume (group : ThreadGroup) (result : BitVec 32)
deriving DecidableEq

def Call.event : Call → SPUGroupManager.Event
  | create group => .create group
  | addThread group th => .addThread group th
  | destroy group => .destroy group
  | suspend group result => .suspend group result
  | resume group result => .resume group result

inductive Event where
  | call (c : Call)
  | start (group : ThreadGroup)
  | run (th : Nat)
  | join
      (group : ThreadGroup)
      (result : BitVec 32 × BitVec 32)
  | iterate (th : Nat) (it : Iteration)
deriving DecidableEq

def begin
    (s : GroupSystem)
    (threads : List Nat)
    (manager : SPUGroupManager) : GroupSystem where
  manager := manager
  alive th := if th ∈ threads then true else s.alive th
  loop th :=
    if th ∈ threads then (s.loop th).begin else s.loop th

/- `run` of a raw thread, which has no group. -/
def runRaw
    (m : SPUGroupManager)
    (th : Nat) : Option SPUGroupManager :=
  if (m.thread th).group = none ∧
      (m.thread th).needsJoin = false then
    some
      { m with
        thread :=
          Function.update m.thread th
            { m.thread th with
              suspended := false
              needsJoin := true } }
  else none

/- The manager after an iteration of a thread. -/
def report
    (m : SPUGroupManager)
    (th : Nat)
    (it : Iteration)
    (after : SpuLoop) : Option SPUGroupManager :=
  let m := m.record th ⟨after.cause, after.exitCode⟩
  if it.reports then m.notifyThreadStopped th after.cause
  else some m

def advance
    (s : GroupSystem)
    (th : Nat)
    (after : SpuLoop × Bool)
    (manager : SPUGroupManager) : GroupSystem where
  manager := manager
  alive := Function.update s.alive th after.2
  loop := Function.update s.loop th after.1

/- A join waits until all threads of the group have returned. -/
inductive Step
    (s : GroupSystem) : Event → GroupSystem → Prop where
  | call {c : Call} {m : SPUGroupManager} :
      SPUGroupManager.Step s.manager c.event m →
      Step s (.call c) { s with manager := m }
  | start {group : ThreadGroup} {m : SPUGroupManager} :
      s.manager.start group = some m →
      Step s (.start group)
        (s.begin (s.manager.threads group) m)
  | run {th : Nat} {m : SPUGroupManager} :
      runRaw s.manager th = some m →
      Step s (.run th) (s.begin [th] m)
  | join
      {group : ThreadGroup}
      {m : SPUGroupManager}
      {result : BitVec 32 × BitVec 32} :
      (∀ th ∈ s.manager.threads group, s.alive th = false) →
      s.manager.join group = some (m, result) →
      Step s (.join group result) { s with manager := m }
  | iterate
      {th : Nat}
      {it : Iteration}
      {m : SPUGroupManager} :
      s.alive th = true →
      report s.manager th it ((s.loop th).iterate it).1 =
        some m →
      Step s (.iterate th it)
        (s.advance th ((s.loop th).iterate it) m)

/-
  Every loop that has returned has notified the manager once,
  and a group of which all threads have returned is back in
  the initialized state, where `join` looks for it.
-/
structure EndsReported (events : List Event) : Prop where
  once :
    ∀ before th it after t,
      events = before ++ .iterate th it :: after →
        Run Step {} (before ++ [.iterate th it]) t →
          t.alive th = false →
            (t.loop th).notified.length = 1
  back :
    ∀ before after t group,
      events = before ++ after →
        Run Step {} before t →
          group ∈ t.manager.live →
            t.manager.threads group ≠ [] →
              (∀ th ∈ t.manager.threads group,
                t.alive th = false) →
                group ∈ t.manager.initialized ∧
                  group ∉ t.manager.running

/- Each loop is left by an exit stop or an infinite loop. -/
def Reporting (events : List Event) : Prop :=
  ∀ th it, .iterate th it ∈ events →
    it.ends = true → it.reports = true

------------------------------------------------------------
-- Managers
------------------------------------------------------------

variable {m n : SPUGroupManager} {th : Nat}

theorem inv_of_report
    {it : Iteration}
    {t : SpuLoop}
    (hInv : m.Inv)
    (hReport : report m th it (t.iterate it).1 = some n) :
    n.Inv := by
  unfold report at hReport
  dsimp only at hReport
  split at hReport
  case isTrue hReports =>
    exact
      SPUGroupManager.inv_notifyThreadStopped
        (SPUGroupManager.inv_record hInv _ _)
        (SpuLoop.iterate_cause hReports t) hReport
  case isFalse =>
    cases hReport
    exact SPUGroupManager.inv_record hInv _ _

/- A raw thread is in no group. -/
theorem inv_runRaw
    (hInv : m.Inv)
    (hRun : runRaw m th = some n) :
    n.Inv := by
  unfold runRaw at hRun
  split at hRun
  case isFalse => cases hRun
  case isTrue hRaw =>
    cases hRun
    have hOther :
        ∀ group ∈ m.live, ∀ other ∈ m.threads group,
          other ≠ th := by
      rintro group hLive other hThread rfl
      have hOwner := hInv.owner group hLive other hThread
      rw [hRaw.1] at hOwner
      cases hOwner
    refine
      hInv.frame ⟨rfl, rfl, rfl, fun _ _ => rfl, ?_,
        fun _ _ _ _ => rfl⟩
        hInv.placed hInv.nodup ?_ hInv.ended
    · intro group hStarted other hThread
      have hLive := hInv.live_of_mem
        (SPUGroupManager.places_of_started hStarted)
      dsimp only
      rw [Function.update_of_ne
        (hOther group hLive other hThread)]
    · intro group hLive other hThread
      dsimp only
      rw [Function.update_of_ne
        (hOther group hLive other hThread)]
      exact hInv.owner group hLive other hThread

variable {e : Event}

theorem inv_of_step
    {s t : GroupSystem}
    (hInv : s.manager.Inv)
    (hStep : Step s e t) :
    t.manager.Inv := by
  cases hStep with
  | call hCall => exact SPUGroupManager.inv_of_step hInv hCall
  | start hStart => exact SPUGroupManager.inv_start hInv hStart
  | run hRun => exact inv_runRaw hInv hRun
  | join _ hJoin => exact SPUGroupManager.inv_join hInv hJoin
  | iterate _ hReport => exact inv_of_report hInv hReport

variable {events : List Event} {t : GroupSystem}

theorem inv_of_run
    (hRun : Run Step {} events t) :
    t.manager.Inv :=
  hRun.invariant (fun s => s.manager.Inv)
    (fun _ _ _ hInv hStep => inv_of_step hInv hStep)
    SPUGroupManager.inv_start_state

/- What the threads of the groups are known to do is kept. -/
theorem same_of_suspend
    (m : SPUGroupManager)
    (group : ThreadGroup) :
    (m.suspend group).1.live = m.live ∧
      (m.suspend group).1.threads = m.threads ∧
        (m.suspend group).1.causes = m.causes := by
  unfold SPUGroupManager.suspend
  split
  case isTrue => exact ⟨rfl, rfl, rfl⟩
  case isFalse =>
    split
    case isTrue => exact ⟨rfl, rfl, rfl⟩
    case isFalse =>
      split
      case isTrue => exact ⟨rfl, rfl, rfl⟩
      case isFalse =>
        dsimp only
        split
        case isTrue => exact ⟨rfl, rfl, rfl⟩
        case isFalse => exact ⟨rfl, rfl, rfl⟩

theorem same_of_resume
    (m : SPUGroupManager)
    (group : ThreadGroup) :
    (m.resume group).1.live = m.live ∧
      (m.resume group).1.threads = m.threads ∧
        (m.resume group).1.causes = m.causes := by
  unfold SPUGroupManager.resume
  split
  case isTrue => exact ⟨rfl, rfl, rfl⟩
  case isFalse => exact ⟨rfl, rfl, rfl⟩

variable {group : ThreadGroup}

theorem same_of_start
    (hStart : m.start group = some n) :
    n.live = m.live ∧ n.threads = m.threads ∧
      ∀ th,
        n.causes th =
          if th ∈ m.threads group then .stillRunning
          else m.causes th := by
  unfold SPUGroupManager.start at hStart
  dsimp only at hStart
  split at hStart
  case isTrue => cases hStart
  case isFalse =>
    split at hStart
    case isFalse => cases hStart
    case isTrue =>
      cases hStart
      exact ⟨rfl, rfl, fun _ => rfl⟩

theorem same_of_join
    {result : BitVec 32 × BitVec 32}
    (hJoin : m.join group = some (n, result)) :
    n.live = m.live ∧ n.threads = m.threads ∧
      n.causes = m.causes := by
  unfold SPUGroupManager.join at hJoin
  dsimp only at hJoin
  split at hJoin
  case isFalse => cases hJoin
  case isTrue =>
    cases hJoin
    exact ⟨rfl, rfl, rfl⟩

/- Only a start makes a thread run again. -/
theorem running_of_call
    {c : Call}
    (hCall : SPUGroupManager.Step m c.event n)
    (hLive : group ∈ n.live)
    (hThread : th ∈ n.threads group)
    (hRuns : n.causes th = .stillRunning) :
    group ∈ m.live ∧ th ∈ m.threads group ∧
      m.causes th = .stillRunning := by
  cases c with
  | create new =>
      cases hCall with
      | create hCreate =>
          unfold SPUGroupManager.createGroup at hCreate
          split at hCreate
          case isFalse => cases hCreate
          case isTrue hFresh =>
            cases hCreate
            change th ∈ Function.update m.threads new [] group
              at hThread
            by_cases hNew : group = new
            · rw [hNew, Function.update_self] at hThread
              cases hThread
            · rw [Function.update_of_ne hNew] at hThread
              exact
                ⟨(List.mem_cons.mp hLive).resolve_left hNew,
                  hThread, hRuns⟩
  | addThread other new =>
      cases hCall with
      | addThread hAdd =>
          unfold SPUGroupManager.initializeThread at hAdd
          split at hAdd
          case isFalse => cases hAdd
          case isTrue =>
            cases hAdd
            dsimp only at hLive hThread hRuns
            have hOld : th ≠ new := by
              rintro rfl
              rw [Function.update_self] at hRuns
              cases hRuns
            rw [Function.update_of_ne hOld] at hRuns
            by_cases hOther : group = other
            · rw [hOther, Function.update_self] at hThread
              rw [hOther] at hLive ⊢
              rcases List.mem_append.mp hThread with hIn | hIn
              · exact ⟨hLive, hIn, hRuns⟩
              · exact absurd (List.mem_singleton.mp hIn) hOld
            · rw [Function.update_of_ne hOther] at hThread
              exact ⟨hLive, hThread, hRuns⟩
  | destroy other =>
      cases hCall with
      | destroy hDestroy =>
          unfold SPUGroupManager.destroy at hDestroy
          split at hDestroy
          case isFalse => cases hDestroy
          case isTrue =>
            cases hDestroy
            exact
              ⟨List.mem_of_mem_erase hLive, hThread, hRuns⟩
  | suspend other result =>
      cases hCall with
      | suspend =>
          have hSame := same_of_suspend m other
          rw [hSame.1] at hLive
          rw [hSame.2.1] at hThread
          rw [hSame.2.2] at hRuns
          exact ⟨hLive, hThread, hRuns⟩
  | resume other result =>
      cases hCall with
      | resume =>
          have hSame := same_of_resume m other
          rw [hSame.1] at hLive
          rw [hSame.2.1] at hThread
          rw [hSame.2.2] at hRuns
          exact ⟨hLive, hThread, hRuns⟩

/- A notification changes the cause of its thread. -/
theorem same_of_notify
    {cause : SPUThreadExitCause}
    (hNotify : m.notifyThreadStopped th cause = some n) :
    n.live = m.live ∧ n.threads = m.threads ∧
      (∀ other, other ≠ th →
        n.causes other = m.causes other) ∧
        ((m.thread th).group ≠ none → n.causes th = cause) := by
  unfold SPUGroupManager.notifyThreadStopped at hNotify
  split at hNotify
  case h_1 hRaw =>
    cases hNotify
    exact
      ⟨rfl, rfl, fun _ _ => rfl, fun hSome => absurd hRaw hSome⟩
  case h_2 group hGroup =>
    dsimp only at hNotify
    split at hNotify
    case isTrue =>
      cases hNotify
      exact
        ⟨rfl, rfl, fun _ hOther => Function.update_of_ne hOther _ _,
          fun _ => Function.update_self _ _ _⟩
    case isFalse =>
      split at hNotify
      case isFalse => cases hNotify
      case isTrue =>
        cases hNotify
        exact
          ⟨rfl, rfl,
            fun _ hOther => Function.update_of_ne hOther _ _,
            fun _ => Function.update_self _ _ _⟩

------------------------------------------------------------
-- Live Loops
------------------------------------------------------------

/- A thread that the manager takes to run has a live loop. -/
def Tracked (s : GroupSystem) : Prop :=
  ∀ group ∈ s.manager.live,
    ∀ th ∈ s.manager.threads group,
      s.manager.causes th = .stillRunning → s.alive th = true

/- A live loop has not notified the manager. -/
def Quiet (s : GroupSystem) : Prop :=
  ∀ th, s.alive th = true → (s.loop th).notified = []

theorem quiet_of_step
    {s t : GroupSystem}
    (hQuiet : Quiet s)
    (hStep : Step s e t) :
    Quiet t := by
  intro other hAlive
  cases hStep with
  | call => exact hQuiet other hAlive
  | @start group m =>
      unfold begin at hAlive ⊢
      dsimp only at hAlive ⊢
      split
      case isTrue => rfl
      case isFalse hOut =>
        rw [if_neg hOut] at hAlive
        exact hQuiet other hAlive
  | @run th m =>
      unfold begin at hAlive ⊢
      dsimp only at hAlive ⊢
      split
      case isTrue => rfl
      case isFalse hOut =>
        rw [if_neg hOut] at hAlive
        exact hQuiet other hAlive
  | join => exact hQuiet other hAlive
  | @iterate th it m hRuns hReport =>
      unfold advance at hAlive ⊢
      dsimp only at hAlive ⊢
      by_cases hOther : other = th
      · rw [hOther, Function.update_self,
          SpuLoop.iterate_continues] at hAlive
        rw [hOther, Function.update_self,
          SpuLoop.iterate_notified, hQuiet th hRuns]
        split
        case isTrue hReports =>
          rw [Iteration.ends_of_reports hReports] at hAlive
          cases hAlive
        case isFalse => rfl
      · rw [Function.update_of_ne hOther] at hAlive ⊢
        exact hQuiet other hAlive

theorem tracked_of_step
    {s t : GroupSystem}
    (hInv : s.manager.Inv)
    (hTracked : Tracked s)
    (hReporting :
      ∀ th it, e = .iterate th it →
        it.ends = true → it.reports = true)
    (hStep : Step s e t) :
    Tracked t := by
  intro group hLive other hThread hRuns
  cases hStep with
  | call hCall =>
      rcases running_of_call hCall hLive hThread hRuns with
        ⟨hLive', hThread', hRuns'⟩
      exact hTracked group hLive' other hThread' hRuns'
  | @start started m hStart =>
      have hSame := same_of_start hStart
      unfold begin
      dsimp only
      split
      case isTrue => rfl
      case isFalse hOut =>
        change group ∈ m.live at hLive
        change other ∈ m.threads group at hThread
        change m.causes other = _ at hRuns
        rw [hSame.1] at hLive
        rw [hSame.2.1] at hThread
        rw [hSame.2.2, if_neg hOut] at hRuns
        exact hTracked group hLive other hThread hRuns
  | @run th m hRun =>
      unfold runRaw at hRun
      split at hRun
      case isFalse => cases hRun
      case isTrue =>
        cases hRun
        unfold begin
        dsimp only
        split
        case isTrue => rfl
        case isFalse =>
          exact hTracked group hLive other hThread hRuns
  | join _ hJoin =>
      have hSame := same_of_join hJoin
      dsimp only at hLive hThread hRuns
      rw [hSame.1] at hLive
      rw [hSame.2.1] at hThread
      rw [hSame.2.2] at hRuns
      exact hTracked group hLive other hThread hRuns
  | @iterate th it m hAlive hReport =>
      unfold advance at hLive hThread hRuns ⊢
      dsimp only at hLive hThread hRuns ⊢
      unfold report at hReport
      dsimp only at hReport
      split at hReport
      case isTrue hReports =>
        have hSame := same_of_notify hReport
        rw [hSame.1] at hLive
        rw [hSame.2.1] at hThread
        by_cases hOther : other = th
        · have hOwner := hInv.owner group hLive other hThread
          have hRecorded :
              ((s.manager.record th
                  ⟨((s.loop th).iterate it).1.cause,
                    ((s.loop th).iterate it).1.exitCode⟩).thread
                th).group ≠ none := by
            unfold SPUGroupManager.record
            dsimp only
            rw [Function.update_self, ← hOther, hOwner]
            exact Option.some_ne_none group
          rw [hOther, hSame.2.2.2 hRecorded] at hRuns
          exact
            absurd hRuns
              (SpuLoop.iterate_cause hReports (s.loop th))
        · rw [hSame.2.2.1 other hOther] at hRuns
          rw [Function.update_of_ne hOther]
          exact hTracked group hLive other hThread hRuns
      case isFalse hReports =>
        cases hReport
        by_cases hOther : other = th
        · rw [hOther, Function.update_self,
            SpuLoop.iterate_continues]
          cases hEnds : it.ends with
          | false => rfl
          | true =>
              exact
                absurd (hReporting th it rfl hEnds) hReports
        · rw [Function.update_of_ne hOther]
          exact hTracked group hLive other hThread hRuns

/- When all threads have returned, the group is initialized. -/
theorem initialized_of_ended
    {s : GroupSystem}
    (hInv : s.manager.Inv)
    (hTracked : Tracked s)
    (hLive : group ∈ s.manager.live)
    (hSome : s.manager.threads group ≠ [])
    (hEnded :
      ∀ th ∈ s.manager.threads group, s.alive th = false) :
    group ∈ s.manager.initialized ∧
      group ∉ s.manager.running := by
  have hNot : group ∉ s.manager.started := by
    intro hStarted
    rcases hInv.active group hStarted hSome with
      ⟨th, hThread, hRuns⟩
    have hAlive := hTracked group hLive th hThread hRuns
    rw [hEnded th hThread] at hAlive
    cases hAlive
  have hPlace := hInv.placed.mem_iff.mpr hLive
  rw [SPUGroupManager.places_eq] at hPlace
  refine ⟨(List.mem_append.mp hPlace).resolve_right hNot, ?_⟩
  intro hRunning
  exact
    hNot
      (List.mem_append_left _ (List.mem_append_right _ hRunning))

------------------------------------------------------------
-- Runs
------------------------------------------------------------

theorem quiet_of_run
    (hRun : Run Step {} events t) :
    Quiet t :=
  hRun.invariant Quiet
    (fun _ _ _ hQuiet hStep => quiet_of_step hQuiet hStep)
    (fun _ hAlive => by cases hAlive)

theorem tracked_of_run
    (hRun : Run Step {} events t)
    (hReporting : Reporting events) :
    Tracked t := by
  induction hRun with
  | nil =>
      intro group hLive
      cases hLive
  | @snoc events s t e hBefore hLast ih =>
      have hOld : Reporting events :=
        fun th it hMem =>
          hReporting th it (List.mem_append_left _ hMem)
      refine
        tracked_of_step (inv_of_run hBefore) (ih hOld) ?_ hLast
      rintro th it rfl
      exact hReporting th it (by simp)

/- The last iteration of a loop reports its end, or does not. -/
theorem notified_of_end
    {before : List Event}
    {th : Nat}
    {it : Iteration}
    {t : GroupSystem}
    (hRun : Run Step {} (before ++ [.iterate th it]) t) :
    t.alive th = !it.ends ∧
      (t.loop th).notified.length = it.reports.toNat := by
  rcases hRun.of_snoc with ⟨s, hBefore, hStep⟩
  cases hStep with
  | iterate hAlive hReport =>
      unfold advance
      dsimp only
      rw [Function.update_self, Function.update_self,
        SpuLoop.iterate_continues, SpuLoop.iterate_notified,
        quiet_of_run hBefore th hAlive]
      refine ⟨rfl, ?_⟩
      cases it.reports with
      | false => rfl
      | true => rfl

/-
  All ends are reported, and join finds the groups, exactly
  where each loop is left by an end that its handler reports.
-/
theorem endsReported_iff
    (events : List Event)
    (t : GroupSystem)
    (hRun : Run Step {} events t) :
    EndsReported events ↔ Reporting events := by
  constructor
  · intro hReported th it hMem hEnds
    rcases List.append_of_mem hMem with ⟨before, after, rfl⟩
    rcases hRun.step_of_mem with ⟨s, u, hBefore, hStep⟩
    have hFirst := hBefore.snoc hStep
    have hBoth := notified_of_end hFirst
    have hOnce :=
      hReported.once before th it after u rfl hFirst
        (by rw [hBoth.1, hEnds]; rfl)
    rw [hBoth.2] at hOnce
    cases hReports : it.reports with
    | true => rfl
    | false =>
        rw [hReports] at hOnce
        cases hOnce
  · intro hReporting
    refine ⟨?_, ?_⟩
    · intro before th it after u hEvents hFirst hDead
      have hBoth := notified_of_end hFirst
      rw [hBoth.1, Bool.not_eq_false'] at hDead
      rw [hBoth.2, hReporting th it (by simp [hEvents]) hDead]
      rfl
    · intro before after u group hEvents hFirst hLive hSome
        hEnded
      have hOld : Reporting before :=
        fun th it hMem =>
          hReporting th it
            (by rw [hEvents]; exact List.mem_append_left _ hMem)
      exact
        initialized_of_ended (inv_of_run hFirst)
          (tracked_of_run hFirst hOld) hLive hSome hEnded

/- A thread of a group exits, and the group is joined. -/
theorem endsReported_iff_exit :
    EndsReported
        [.call (.create ⟨16, 1⟩),
          .call (.addThread ⟨16, 1⟩ 1), .start ⟨16, 1⟩,
          .iterate 1 (.stopSignal 0x0102 7),
          .join ⟨16, 1⟩
            (SPUGroupManager.SYS_SPU_THREAD_GROUP_JOIN_ALL_THREADS_EXIT,
              0)] ↔
      Reporting
        [.call (.create ⟨16, 1⟩),
          .call (.addThread ⟨16, 1⟩ 1), .start ⟨16, 1⟩,
          .iterate 1 (.stopSignal 0x0102 7),
          .join ⟨16, 1⟩
            (SPUGroupManager.SYS_SPU_THREAD_GROUP_JOIN_ALL_THREADS_EXIT,
              0)] :=
  endsReported_iff _ _
    (.snoc
      (.snoc
        (.snoc
          (.snoc (.snoc .nil (.call (.create rfl)))
            (.call (.addThread rfl)))
          (.start rfl))
        (.iterate rfl rfl))
      (.join (by decide) rfl))

/- A thread of a group meets an illegal instruction. -/
def illegalEnd : List Event :=
  [.call (.create ⟨16, 1⟩), .call (.addThread ⟨16, 1⟩ 1),
    .start ⟨16, 1⟩, .iterate 1 .illegalInstruction]

theorem illegalEnd_unreported :
    ¬ ∀ (events : List Event) (t : GroupSystem),
        Run Step {} events t → EndsReported events := by
  intro hAll
  have hRun : ∃ t, Run Step {} illegalEnd t :=
    ⟨_,
      .snoc
        (.snoc
          (.snoc (.snoc .nil (.call (.create rfl)))
            (.call (.addThread rfl)))
          (.start rfl))
        (.iterate rfl rfl)⟩
  rcases hRun with ⟨t, hRun⟩
  have hBoth :=
    @notified_of_end (illegalEnd.take 3) _ _ _ hRun
  have hOnce :=
    (hAll _ _ hRun).once (illegalEnd.take 3) 1
      .illegalInstruction [] t rfl hRun hBoth.1
  rw [hBoth.2] at hOnce
  cases hOnce

end GroupSystem

end Ps3emu
