import Mathlib.Logic.Function.Basic
import Ps3emu.Library.PosixMutex
import Ps3emu.Library.Transition

/-
  The mutexes of `mutex.cpp` and the way in which
  `sys_cond_wait` gives a mutex back and takes it again.

  Key definitions include:
    * `Mutexes`, `Mutexes.exec`
    * `MutexIdeal`
    * `Mutexes.Owns`, `Mutexes.Admissible`

  Key theorems include:
    * `Mutexes.Inv.change`
    * `Mutexes.inv_step`
    * `Mutexes.owns_of_admissible`
-/

------------------------------------------------------------
-- Mutexes and Results
------------------------------------------------------------

namespace Ps3emu

open PosixMutex (Held Ret)

/- The types of host mutexes. -/
inductive PthreadType where
  | normal
  | recursive
  | errorCheck
deriving DecidableEq

/-
  `PthreadMutexInfo`.  The mutex is of a type that checks for
  errors or is recursive.  The field `attr` has never been
  set up, and `attrType` is what is read from it.
-/
structure PthreadMutexInfo where
  isRecursive : Bool
  attrType : PthreadType

/-
  The mutexes that have been created, the mutexes of the
  condition variables, and how many more times than once the
  host lets an owner lock a mutex.
-/
structure MutexTable (M C : Type) where
  mutexes : M → Option PthreadMutexInfo
  conds : C → Option M
  nested : Nat

/-
  Where a thread is: it blocks in a lock, it waits for a
  condition with the mutex given back, or it has left the
  wait and blocks in the lock of the guard.
-/
inductive MutexPhase (M : Type) where
  | outside
  | locking (m : M) (timed : Bool)
  | waiting (m : M) (timed : Bool)
  | relocking (m : M) (timedOut : Bool)
deriving DecidableEq

structure Mutexes (T M : Type) where
  held : M → Held T
  phase : T → MutexPhase M
  aborted : Bool

/- `CELL_OK` and the errors that are returned. -/
inductive MutexCode where
  | ok
  | ESRCH
  | EDEADLK
  | EBUSY
  | ETIMEDOUT
  | EPERM
deriving DecidableEq

/- A call returns, or one of its assertions fails. -/
inductive MutexOutcome where
  | code (c : MutexCode)
  | assertion
deriving DecidableEq

/-
  The calls of a thread, and the later steps of the calls
  that block: a lock is acquired or its time expires, and a
  wait wakes up and takes the mutex.
-/
inductive MutexOp (T M C : Type) where
  | lock (thread : T) (m : M) (timeout : Nat)
  | acquire (thread : T) (m : M)
  | expire (thread : T) (m : M)
  | trylock (thread : T) (m : M)
  | unlock (thread : T) (m : M)
  | condWait (thread : T) (c : C) (timeout : Nat)
  | wake (thread : T) (m : M) (timedOut : Bool)
  | relock (thread : T) (m : M)
deriving DecidableEq

/- A step, and how a call ends with it, if it does. -/
structure MutexEvent (T M C : Type) where
  op : MutexOp T M C
  outcome : Option MutexOutcome
deriving DecidableEq

/- `sys_mutex_lock`, without and with a time-out. -/
def lockOutcome : Ret → MutexOutcome
  | .ok => .code .ok
  | .EDEADLK => .code .EDEADLK
  | _ => .assertion

def timedlockOutcome : Ret → MutexOutcome
  | .ok => .code .ok
  | .ETIMEDOUT => .code .ETIMEDOUT
  | _ => .assertion

/- `sys_mutex_trylock`, which asks `type()`. -/
def trylockOutcome (attrType : PthreadType) : Ret → MutexOutcome
  | .ok => .code .ok
  | .EDEADLK => .code .EDEADLK
  | .EBUSY =>
      if attrType = .recursive then .code .EBUSY
      else .code .EDEADLK
  | _ => .assertion

def unlockOutcome : Ret → MutexOutcome
  | .ok => .code .ok
  | .EPERM => .code .EPERM
  | _ => .assertion

/- `sys_cond_wait`, which does not look at its lock. -/
def condWaitOutcome (timedOut : Bool) : MutexOutcome :=
  if timedOut then .code .ETIMEDOUT else .code .ok

------------------------------------------------------------
-- Steps
------------------------------------------------------------

namespace Mutexes

variable {T M C : Type} [DecidableEq T] [DecidableEq M]

def start : Mutexes T M where
  held := fun _ => none
  phase := fun _ => .outside
  aborted := false

/- The call of a thread ends, and has changed a mutex. -/
def returns
    (s : Mutexes T M)
    (thread : T)
    (m : M)
    (held : Held T)
    (outcome : MutexOutcome) :
    Mutexes T M × Option MutexOutcome :=
  ({ held := Function.update s.held m held
     phase := Function.update s.phase thread .outside
     aborted := outcome = .assertion },
    some outcome)

/- A thread stays in its call, and has changed a mutex. -/
def stays
    (s : Mutexes T M)
    (thread : T)
    (m : M)
    (held : Held T)
    (phase : MutexPhase M) :
    Mutexes T M × Option MutexOutcome :=
  ({ s with
     held := Function.update s.held m held
     phase := Function.update s.phase thread phase },
    none)

/- The lock of a mutex by `sys_mutex_lock`. -/
def lockSection
    (table : MutexTable M C)
    (info : PthreadMutexInfo)
    (s : Mutexes T M)
    (thread : T)
    (m : M)
    (timed : Bool) :
    Option (Mutexes T M × Option MutexOutcome) :=
  match
    PosixMutex.lock table.nested info.isRecursive thread
      (s.held m) with
  | none => none
  | some (held, ret) =>
      let outcome :=
        if timed then timedlockOutcome ret else lockOutcome ret
      some (s.returns thread m held outcome)

/- The lock of the guard of `sys_cond_wait`. -/
def relockSection
    (table : MutexTable M C)
    (info : PthreadMutexInfo)
    (s : Mutexes T M)
    (thread : T)
    (m : M)
    (timedOut : Bool) :
    Option (Mutexes T M × Option MutexOutcome) :=
  match
    PosixMutex.lock table.nested info.isRecursive thread
      (s.held m) with
  | none => none
  | some (held, _) =>
      some (s.returns thread m held (condWaitOutcome timedOut))

/- A call that finds no mutex. -/
def notFound
    (s : Mutexes T M) :
    Mutexes T M × Option MutexOutcome :=
  (s, some (.code .ESRCH))

/- The calls of a thread that is in no other call. -/
def call
    (table : MutexTable M C)
    (s : Mutexes T M) :
    MutexOp T M C → Option (Mutexes T M × Option MutexOutcome)
  | .lock thread m timeout =>
      match table.mutexes m with
      | none => some s.notFound
      | some info =>
          let timed := timeout != 0
          match lockSection table info s thread m timed with
          | none =>
              some
                (s.stays thread m (s.held m) (.locking m timed))
          | some result => some result
  | .trylock thread m =>
      match table.mutexes m with
      | none => some s.notFound
      | some info =>
          let (held, ret) :=
            PosixMutex.trylock table.nested info.isRecursive
              thread (s.held m)
          some
            (s.returns thread m held
              (trylockOutcome info.attrType ret))
  | .unlock thread m =>
      match table.mutexes m with
      | none => some s.notFound
      | some _ =>
          let (held, ret) := PosixMutex.unlock thread (s.held m)
          some (s.returns thread m held (unlockOutcome ret))
  | .condWait thread c timeout =>
      match table.conds c with
      | none => some s.notFound
      | some m =>
          let (held, _) := PosixMutex.unlock thread (s.held m)
          some
            (s.stays thread m held
              (.waiting m (timeout != 0)))
  | _ => none

/- The steps of the calls that a thread is in. -/
def resume
    (table : MutexTable M C)
    (s : Mutexes T M) :
    MutexOp T M C → Option (Mutexes T M × Option MutexOutcome)
  | .acquire thread m =>
      match s.phase thread, table.mutexes m with
      | .locking k timed, some info =>
          if k = m then
            lockSection table info s thread m timed
          else none
      | _, _ => none
  | .expire thread m =>
      if s.phase thread = .locking m true then
        some
          (s.returns thread m (s.held m)
            (timedlockOutcome .ETIMEDOUT))
      else none
  | .wake thread m timedOut =>
      match s.phase thread, table.mutexes m with
      | .waiting k timed, some info =>
          if k = m ∧ (timedOut → timed) then
            match
              relockSection table info s thread m timedOut with
            | none =>
                some
                  (s.stays thread m (s.held m)
                    (.relocking m timedOut))
            | some result => some result
          else none
      | _, _ => none
  | .relock thread m =>
      match s.phase thread, table.mutexes m with
      | .relocking k timedOut, some info =>
          if k = m then
            relockSection table info s thread m timedOut
          else none
      | _, _ => none
  | _ => none

end Mutexes

def MutexOp.thread {T M C : Type} : MutexOp T M C → T
  | .lock thread _ _ => thread
  | .acquire thread _ => thread
  | .expire thread _ => thread
  | .trylock thread _ => thread
  | .unlock thread _ => thread
  | .condWait thread _ _ => thread
  | .wake thread _ _ => thread
  | .relock thread _ => thread

namespace Mutexes

variable {T M C : Type} [DecidableEq T] [DecidableEq M]

/- After a failed assertion there are no more steps. -/
def exec
    (table : MutexTable M C)
    (s : Mutexes T M)
    (op : MutexOp T M C) :
    Option (Mutexes T M × Option MutexOutcome) :=
  if s.aborted then none
  else if s.phase op.thread = .outside then call table s op
  else resume table s op

def Step
    (table : MutexTable M C)
    (s : Mutexes T M)
    (e : MutexEvent T M C)
    (t : Mutexes T M) : Prop :=
  exec table s e.op = some (t, e.outcome)

end Mutexes

------------------------------------------------------------
-- Specification
------------------------------------------------------------

open PosixMutex (Held Ret depth)

/-
  How many times each thread has each mutex, by what the calls
  return, and how many times it had the mutex of its condition
  variable when it began to wait.
-/
structure MutexIdeal (T M : Type) where
  depth : M → T → Nat
  entry : T → Nat

namespace MutexIdeal

variable {T M C : Type} [DecidableEq T] [DecidableEq M]

def start : MutexIdeal T M where
  depth := fun _ _ => 0
  entry := fun _ => 0

def set
    (i : MutexIdeal T M)
    (m : M)
    (t : T)
    (d e : Nat) : MutexIdeal T M where
  depth := Function.update i.depth m
    (Function.update (i.depth m) t d)
  entry := Function.update i.entry t e

/-
  A lock that returns `CELL_OK` adds one and an unlock takes
  one away.  A wait takes one away, and returns with as many
  as there were.
-/
def step
    (table : MutexTable M C)
    (i : MutexIdeal T M)
    (e : MutexEvent T M C) : MutexIdeal T M :=
  match e.op, e.outcome with
  | .lock t m _, some (.code .ok)
  | .acquire t m, some (.code .ok)
  | .trylock t m, some (.code .ok) =>
      i.set m t (i.depth m t + 1) (i.entry t)
  | .unlock t m, some (.code .ok) =>
      i.set m t (i.depth m t - 1) (i.entry t)
  | .condWait t c _, none =>
      match table.conds c with
      | none => i
      | some m => i.set m t (i.depth m t - 1) (i.depth m t)
  | .wake t m _, some _
  | .relock t m, some _ => i.set m t (i.entry t) (i.entry t)
  | _, _ => i

def after
    (table : MutexTable M C)
    (events : List (MutexEvent T M C)) : MutexIdeal T M :=
  events.foldl (step table) start

end MutexIdeal

namespace Mutexes

open Transition

variable {T M C : Type} [DecidableEq T] [DecidableEq M]

/- The host agrees, and a mutex has at most one owner. -/
structure Sound
    (i : MutexIdeal T M)
    (s : Mutexes T M) : Prop where
  depth : ∀ m t, depth t (s.held m) = i.depth m t
  owner :
    ∀ m t u, 0 < i.depth m t → 0 < i.depth m u → t = u

/- The owner of a mutex that is not recursive locks it again. -/
def Relocks
    (table : MutexTable M C)
    (s : Mutexes T M)
    (t : T)
    (m : M) : Prop :=
  0 < depth t (s.held m) ∧
    ∃ info, table.mutexes m = some info ∧
      info.isRecursive = false

/- A mutex is owned by another thread. -/
def OwnedByOther
    (table : MutexTable M C)
    (s : Mutexes T M)
    (t : T)
    (m : M) : Prop :=
  (∃ info, table.mutexes m = some info) ∧
    ∃ u, u ≠ t ∧ 0 < depth u (s.held m)

/- No assertion fails, and the errors are the right ones. -/
def Answers
    (table : MutexTable M C)
    (s : Mutexes T M)
    (e : MutexEvent T M C)
    (_ : Mutexes T M) : Prop :=
  e.outcome ≠ some .assertion ∧
    match e.op with
    | .lock t m _ =>
        Relocks table s t m →
          e.outcome = some (.code .EDEADLK)
    | .trylock t m =>
        (Relocks table s t m →
            e.outcome = some (.code .EDEADLK)) ∧
          (OwnedByOther table s t m →
            e.outcome = some (.code .EBUSY))
    | .unlock t m =>
        e.outcome = some (.code .ok) →
          0 < depth t (s.held m)
    | _ => True

def Owns
    (table : MutexTable M C)
    (events : List (MutexEvent T M C)) : Prop :=
  EveryState (Step table)
      (fun before s => Sound (MutexIdeal.after table before) s)
      start events ∧
    EveryStep (Step table) (Answers table) start events

/- An owner can be given a recursive mutex once more. -/
def HasRoom
    (table : MutexTable M C)
    (s : Mutexes T M)
    (t : T)
    (m : M) : Prop :=
  ∀ info, table.mutexes m = some info →
    info.isRecursive = true →
      depth t (s.held m) ≤ table.nested

/-
  The owner of a mutex that is not recursive does not lock it
  with a time-out.  A `trylock` of a mutex that is owned, by
  another thread or by the same one, finds the type that gives
  the right error.  Only an owner waits for a condition.
-/
def Admissible
    (table : MutexTable M C)
    (s : Mutexes T M)
    (e : MutexEvent T M C)
    (_ : Mutexes T M) : Prop :=
  match e.op with
  | .lock t m timeout =>
      HasRoom table s t m ∧
        (timeout ≠ 0 → ¬ Relocks table s t m)
  | .trylock t m =>
      HasRoom table s t m ∧
        ∀ info, table.mutexes m = some info →
          (Relocks table s t m → info.attrType ≠ .recursive) ∧
            (OwnedByOther table s t m →
              info.attrType = .recursive)
  | .condWait t c _ =>
      ∀ m, table.conds c = some m → 0 < depth t (s.held m)
  | _ => True

------------------------------------------------------------
-- Invariant
------------------------------------------------------------

/-
  A thread that blocks in a lock is not the owner, and one
  that waits will have the mutex as often as before.
-/
def PhaseOk
    (table : MutexTable M C)
    (i : MutexIdeal T M)
    (t : T) : MutexPhase M → Prop
  | .outside => True
  | .locking m _ => i.depth m t = 0
  | .waiting m _ | .relocking m _ =>
      i.entry t = i.depth m t + 1 ∧
        ∀ info, table.mutexes m = some info →
          i.entry t ≤ table.nested + 1 ∧
            (info.isRecursive = false → i.entry t ≤ 1)

structure Inv
    (table : MutexTable M C)
    (i : MutexIdeal T M)
    (s : Mutexes T M) : Prop where
  depth : ∀ m t, depth t (s.held m) = i.depth m t
  bound :
    ∀ m info, table.mutexes m = some info → ∀ t,
      PosixMutex.depth t (s.held m) ≤ table.nested + 1 ∧
        (info.isRecursive = false →
          PosixMutex.depth t (s.held m) ≤ 1)
  phase : ∀ t, PhaseOk table i t (s.phase t)

omit [DecidableEq M] in
theorem Inv.sound
    {table : MutexTable M C}
    {i : MutexIdeal T M}
    {s : Mutexes T M}
    (hInv : Inv table i s) :
    Sound i s where
  depth := hInv.depth
  owner m t u hFirst hSecond := by
    rw [← hInv.depth] at hFirst hSecond
    exact PosixMutex.owner_unique hFirst hSecond

omit [DecidableEq M] in
theorem inv_start (table : MutexTable M C) :
    Inv table MutexIdeal.start (start : Mutexes T M) where
  depth _ _ := rfl
  bound _ _ _ _ := ⟨Nat.zero_le _, fun _ => Nat.zero_le _⟩
  phase _ := trivial

theorem set_self
    (i : MutexIdeal T M)
    (m : M)
    (t : T) :
    i.set m t (i.depth m t) (i.entry t) = i := by
  unfold MutexIdeal.set
  rw [Function.update_eq_self, Function.update_eq_self,
    Function.update_eq_self]

theorem depth_set
    {i : MutexIdeal T M}
    {m k : M}
    {t u : T}
    {d e : Nat} :
    (i.set m t d e).depth k u =
      if k = m ∧ u = t then d else i.depth k u := by
  unfold MutexIdeal.set
  dsimp only
  by_cases hMutex : k = m
  · subst hMutex
    simp only [Function.update_self, Function.update_apply,
      true_and]
  · rw [Function.update_of_ne hMutex, if_neg]
    exact fun hBoth => hMutex hBoth.1

theorem depth_set_self
    {i : MutexIdeal T M}
    {m : M}
    {t : T}
    {d e : Nat} :
    (i.set m t d e).depth m t = d := by
  rw [depth_set, if_pos ⟨rfl, rfl⟩]

theorem entry_set_self
    {i : MutexIdeal T M}
    {m : M}
    {t : T}
    {d e : Nat} :
    (i.set m t d e).entry t = e :=
  Function.update_self _ _ _

/- A thread changes one mutex, and its own place. -/
theorem Inv.change
    {table : MutexTable M C}
    {i : MutexIdeal T M}
    {s s' : Mutexes T M}
    (hInv : Inv table i s)
    {t : T}
    {m : M}
    {d e : Nat}
    {held : Held T}
    {phase : MutexPhase M}
    {recursive : Bool}
    (hInfo :
      ∀ info, table.mutexes m = some info →
        info.isRecursive = recursive)
    (hChanges :
      PosixMutex.Changes table.nested recursive t d (s.held m)
        held)
    (hPhase : PhaseOk table (i.set m t d e) t phase)
    (hHeld : s'.held = Function.update s.held m held)
    (hPhases : s'.phase = Function.update s.phase t phase) :
    Inv table (i.set m t d e) s' where
  depth k u := by
    rw [hHeld, depth_set]
    by_cases hMutex : k = m
    · subst hMutex
      rw [Function.update_self]
      by_cases hThread : u = t
      · subst hThread
        rw [if_pos ⟨rfl, rfl⟩]
        exact hChanges.own
      · rw [if_neg (fun hBoth => hThread hBoth.2),
          hChanges.other u hThread]
        exact hInv.depth k u
    · rw [Function.update_of_ne hMutex,
        if_neg (fun hBoth => hMutex hBoth.1)]
      exact hInv.depth k u
  bound k info hMutexes := by
    rw [hHeld]
    by_cases hMutex : k = m
    · subst hMutex
      rw [Function.update_self]
      have hOld := hInv.bound k info hMutexes
      rw [hInfo info hMutexes] at hOld ⊢
      exact hChanges.bound hOld
    · rw [Function.update_of_ne hMutex]
      exact hInv.bound k info hMutexes
  phase u := by
    rw [hPhases]
    by_cases hThread : u = t
    · subst hThread
      rw [Function.update_self]
      exact hPhase
    · rw [Function.update_of_ne hThread]
      have hOld := hInv.phase u
      have hDepth :
          ∀ k, (i.set m t d e).depth k u = i.depth k u := by
        intro k
        rw [depth_set, if_neg (fun hBoth => hThread hBoth.2)]
      have hEntry : (i.set m t d e).entry u = i.entry u :=
        Function.update_of_ne hThread _ _
      unfold PhaseOk at hOld ⊢
      cases hCase : s.phase u with
      | outside => trivial
      | locking k timed =>
          rw [hCase] at hOld
          dsimp only at hOld ⊢
          rw [hDepth]
          exact hOld
      | waiting k timed =>
          rw [hCase] at hOld
          dsimp only at hOld ⊢
          rw [hDepth, hEntry]
          exact hOld
      | relocking k timedOut =>
          rw [hCase] at hOld
          dsimp only at hOld ⊢
          rw [hDepth, hEntry]
          exact hOld

------------------------------------------------------------
-- Steps Keep the Invariant
------------------------------------------------------------

section

variable {table : MutexTable M C} {i : MutexIdeal T M}
variable {s s' : Mutexes T M}
variable {t : T} {m : M} {info : PthreadMutexInfo}
variable {outcome : Option MutexOutcome}

/- A thread that leaves a mutex as it was. -/
theorem Inv.same
    (hInv : Inv table i s)
    {phase : MutexPhase M}
    (hPhase : PhaseOk table i t phase)
    (hHeld : s'.held = Function.update s.held m (s.held m))
    (hPhases : s'.phase = Function.update s.phase t phase) :
    Inv table i s' := by
  rw [← set_self i m t] at hPhase ⊢
  rw [← hInv.depth m t] at hPhase ⊢
  cases hMutexes : table.mutexes m with
  | none =>
      exact
        @Inv.change _ _ _ _ _ _ _ _ _ hInv t m _ _ _ _ true
          (fun info hInfo => by rw [hMutexes] at hInfo; cases hInfo)
          (.refl _) hPhase hHeld hPhases
  | some info =>
      refine
        @Inv.change _ _ _ _ _ _ _ _ _ hInv t m _ _ _ _
          info.isRecursive ?_ (.refl _) hPhase hHeld hPhases
      intro other hInfo
      rw [hMutexes] at hInfo
      cases hInfo
      rfl

omit [DecidableEq M] in
theorem isRecursive_eq
    (hInfo : table.mutexes m = some info) :
    ∀ other, table.mutexes m = some other →
      other.isRecursive = info.isRecursive := by
  intro other hOther
  rw [hInfo] at hOther
  cases hOther
  rfl

/- A call that returns, and has changed a mutex or not. -/
theorem Inv.returns
    (hInv : Inv table i s)
    (hInfo : table.mutexes m = some info)
    {d e : Nat}
    {held : Held T}
    (hChanges :
      PosixMutex.Changes table.nested info.isRecursive t d
        (s.held m) held)
    (result : MutexOutcome) :
    Inv table (i.set m t d e) (s.returns t m held result).1 :=
  @Inv.change _ _ _ _ _ _ _ _ _ hInv t m d e held .outside _
    (isRecursive_eq hInfo) hChanges trivial rfl rfl

theorem Inv.returns_same
    (hInv : Inv table i s)
    (result : MutexOutcome) :
    Inv table i (s.returns t m (s.held m) result).1 :=
  @Inv.same _ _ _ _ _ _ _ _ _ t m hInv .outside trivial rfl rfl

omit [DecidableEq M] in
theorem relocks_iff
    (hInfo : table.mutexes m = some info) :
    Relocks table s t m ↔
      0 < depth t (s.held m) ∧ info.isRecursive = false := by
  unfold Relocks
  constructor
  · rintro ⟨hPos, other, hOther, hRecursive⟩
    rw [hInfo] at hOther
    cases hOther
    exact ⟨hPos, hRecursive⟩
  · rintro ⟨hPos, hRecursive⟩
    exact ⟨hPos, info, hInfo, hRecursive⟩

/- A lock that does not block. -/
theorem inv_lockSection
    (hInv : Inv table i s)
    (hInfo : table.mutexes m = some info)
    (hRoom : HasRoom table s t m)
    {timed : Bool}
    (hTimed : timed = true → ¬ Relocks table s t m)
    (hSection :
      lockSection table info s t m timed = some (s', outcome)) :
    (outcome = some (.code .ok) ∧ ¬ Relocks table s t m ∧
        Inv table (i.set m t (i.depth m t + 1) (i.entry t))
          s') ∨
      (outcome = some (.code .EDEADLK) ∧ Inv table i s') := by
  unfold lockSection at hSection
  split at hSection
  case h_1 => cases hSection
  case h_2 held ret hLock =>
    rcases Prod.mk.inj (Option.some.inj hSection) with
      ⟨rfl, rfl⟩
    rcases PosixMutex.lock_cases hLock with
      ⟨rfl, hChanges, hOwn⟩ | ⟨-, -, hRecursive, hFull⟩ |
        ⟨rfl, rfl, hRecursive, hOwn⟩
    · left
      refine ⟨?_, ?_, ?_⟩
      · cases timed <;> rfl
      · rw [relocks_iff hInfo]
        rintro ⟨hPos, hNot⟩
        rw [hOwn (Nat.ne_of_gt hPos)] at hNot
        cases hNot
      · rw [hInv.depth] at hChanges
        exact hInv.returns hInfo hChanges _
    · have hLe := hRoom info hInfo hRecursive
      omega
    · right
      have hRelocks : Relocks table s t m :=
        (relocks_iff hInfo).mpr
          ⟨Nat.pos_of_ne_zero hOwn, hRecursive⟩
      refine ⟨?_, hInv.returns_same _⟩
      cases timed with
      | false => rfl
      | true => exact absurd hRelocks (hTimed rfl)

/- A wait that returns has what it had. -/
theorem inv_relockSection
    (hInv : Inv table i s)
    (hInfo : table.mutexes m = some info)
    (hEntry :
      i.entry t = i.depth m t + 1 ∧
        ∀ info, table.mutexes m = some info →
          i.entry t ≤ table.nested + 1 ∧
            (info.isRecursive = false → i.entry t ≤ 1))
    {timedOut : Bool}
    (hSection :
      relockSection table info s t m timedOut =
        some (s', outcome)) :
    outcome = some (condWaitOutcome timedOut) ∧
      Inv table (i.set m t (i.entry t) (i.entry t)) s' := by
  rcases hEntry with ⟨hOne, hBound⟩
  rcases hBound info hInfo with ⟨hRoom, hOnce⟩
  unfold relockSection at hSection
  split at hSection
  case h_1 => cases hSection
  case h_2 held ret hLock =>
    rcases Prod.mk.inj (Option.some.inj hSection) with
      ⟨rfl, rfl⟩
    refine ⟨rfl, ?_⟩
    rcases PosixMutex.lock_cases hLock with
      ⟨-, hChanges, -⟩ | ⟨-, -, hRecursive, hFull⟩ |
        ⟨-, -, hRecursive, hOwn⟩
    · rw [hInv.depth, ← hOne] at hChanges
      exact hInv.returns hInfo hChanges _
    · rw [hInv.depth] at hFull
      omega
    · rw [hInv.depth] at hOwn
      have hLe := hOnce hRecursive
      omega

theorem step_cases
    {e : MutexEvent T M C}
    (hStep : Step table s e s') :
    (s.phase e.op.thread = .outside ∧
        call table s e.op = some (s', e.outcome)) ∨
      resume table s e.op = some (s', e.outcome) := by
  unfold Step exec at hStep
  split at hStep
  case isTrue => cases hStep
  case isFalse =>
    split at hStep
    case isTrue hOutside => exact .inl ⟨hOutside, hStep⟩
    case isFalse => exact .inr hStep

omit [DecidableEq M] in
theorem not_relocks_of_none
    (hNone : table.mutexes m = none) :
    ¬ Relocks table s t m := by
  rintro ⟨-, info, hInfo, -⟩
  rw [hNone] at hInfo
  cases hInfo

variable (hInv : Inv table i s)

include hInv

/- `sys_mutex_lock`. -/
theorem inv_lock
    {timeout : Nat}
    (hAdmissible :
      Admissible table s ⟨.lock t m timeout, outcome⟩ s')
    (hStep : Step table s ⟨.lock t m timeout, outcome⟩ s') :
    Inv table (i.step table ⟨.lock t m timeout, outcome⟩) s' ∧
      Answers table s ⟨.lock t m timeout, outcome⟩ s' := by
  rcases hAdmissible with ⟨hRoom, hTimed⟩
  rcases step_cases hStep with ⟨hOutside, hCall⟩ | hResume
  · unfold call at hCall
    dsimp only at hCall
    split at hCall
    case h_1 hNone =>
      rcases Prod.mk.inj (Option.some.inj hCall) with ⟨rfl, rfl⟩
      refine ⟨hInv, ?_, ?_⟩
      · intro hEq
        cases hEq
      · intro hRelocks
        exact absurd hRelocks (not_relocks_of_none hNone)
    case h_2 info hInfo =>
      split at hCall
      case h_1 hBlocks =>
        rcases Prod.mk.inj (Option.some.inj hCall) with
          ⟨rfl, rfl⟩
        -- the owner does not block
        have hZero : depth t (s.held m) = 0 := by
          by_contra hOwn
          unfold lockSection at hBlocks
          split at hBlocks
          case h_1 hLock =>
            exact
              PosixMutex.lock_of_depth_pos
                (Nat.pos_of_ne_zero hOwn) hLock
          case h_2 => cases hBlocks
        refine ⟨?_, ?_, ?_⟩
        · refine hInv.same ?_ rfl rfl
          rw [hInv.depth] at hZero
          exact hZero
        · intro hEq
          cases hEq
        · intro hRelocks
          have hPos := hRelocks.1
          omega
      case h_2 result hSection =>
        rw [Option.some.inj hCall] at hSection
        have hNotTimed :
            (timeout != 0) = true → ¬ Relocks table s t m :=
          fun hNe => hTimed (bne_iff_ne.mp hNe)
        rcases
          inv_lockSection hInv hInfo hRoom hNotTimed hSection
          with
          ⟨rfl, hNot, hInv'⟩ | ⟨rfl, hInv'⟩
        · refine ⟨hInv', ?_, fun hRelocks => absurd hRelocks hNot⟩
          intro hEq
          cases hEq
        · refine ⟨hInv', ?_, fun _ => rfl⟩
          intro hEq
          cases hEq
  · cases hResume

/- A blocked lock is acquired. -/
theorem inv_acquire
    (hStep : Step table s ⟨.acquire t m, outcome⟩ s') :
    Inv table (i.step table ⟨.acquire t m, outcome⟩) s' ∧
      Answers table s ⟨.acquire t m, outcome⟩ s' := by
  rcases step_cases hStep with ⟨-, hCall⟩ | hResume
  · cases hCall
  · unfold resume at hResume
    dsimp only at hResume
    split at hResume
    case h_1 k timed info hPhase hInfo =>
      split at hResume
      case isTrue hMutex =>
        subst hMutex
        have hZero := hInv.phase t
        rw [hPhase] at hZero
        change i.depth k t = 0 at hZero
        rw [← hInv.depth] at hZero
        have hRoom : HasRoom table s t k := by
          intro _ _ _
          rw [hZero]
          exact Nat.zero_le _
        have hNot : ¬ Relocks table s t k := by
          rintro ⟨hPos, -⟩
          omega
        rcases
          inv_lockSection hInv hInfo hRoom (fun _ => hNot)
            hResume with
          ⟨rfl, -, hInv'⟩ | ⟨rfl, hInv'⟩
        · refine ⟨hInv', ?_, trivial⟩
          intro hEq
          cases hEq
        · refine ⟨hInv', ?_, trivial⟩
          intro hEq
          cases hEq
      case isFalse => cases hResume
    case h_2 => cases hResume

theorem inv_expire
    (hStep : Step table s ⟨.expire t m, outcome⟩ s') :
    Inv table (i.step table ⟨.expire t m, outcome⟩) s' ∧
      Answers table s ⟨.expire t m, outcome⟩ s' := by
  rcases step_cases hStep with ⟨-, hCall⟩ | hResume
  · cases hCall
  · unfold resume at hResume
    dsimp only at hResume
    split at hResume
    case isTrue =>
      rcases Prod.mk.inj (Option.some.inj hResume) with
        ⟨rfl, rfl⟩
      refine ⟨hInv.returns_same _, ?_, trivial⟩
      intro hEq
      cases hEq
    case isFalse => cases hResume

/- `sys_mutex_trylock`. -/
theorem inv_trylock
    (hAdmissible :
      Admissible table s ⟨.trylock t m, outcome⟩ s')
    (hStep : Step table s ⟨.trylock t m, outcome⟩ s') :
    Inv table (i.step table ⟨.trylock t m, outcome⟩) s' ∧
      Answers table s ⟨.trylock t m, outcome⟩ s' := by
  rcases hAdmissible with ⟨hRoom, hTypes⟩
  rcases step_cases hStep with ⟨-, hCall⟩ | hResume
  · unfold call at hCall
    dsimp only at hCall
    split at hCall
    case h_1 hNone =>
      rcases Prod.mk.inj (Option.some.inj hCall) with ⟨rfl, rfl⟩
      refine ⟨hInv, ?_, ?_, ?_⟩
      · intro hEq
        cases hEq
      · intro hRelocks
        exact absurd hRelocks (not_relocks_of_none hNone)
      · rintro ⟨⟨info, hInfo⟩, -⟩
        rw [hNone] at hInfo
        cases hInfo
    case h_2 info hInfo =>
      rcases hTypes info hInfo with ⟨hOwn, hOther⟩
      rcases Prod.mk.inj (Option.some.inj hCall) with ⟨hS, hO⟩
      rcases
        @PosixMutex.trylock_cases _ _ t (s.held m) table.nested
          info.isRecursive with
        ⟨hRet, hChanges, hFree⟩ | ⟨-, -, hRecursive, hFull⟩ |
          ⟨hRet, hSame, hOwner⟩
      · rw [hRet] at hO hS
        subst hO hS
        rw [hInv.depth] at hChanges
        refine ⟨hInv.returns hInfo hChanges _, ?_, ?_, ?_⟩
        · intro hEq
          cases hEq
        · intro hRelocks
          rcases (relocks_iff hInfo).mp hRelocks with
            ⟨hPos, hNot⟩
          rw [(hFree t (Nat.ne_of_gt hPos)).2] at hNot
          cases hNot
        · rintro ⟨-, u, hNe, hPos⟩
          exact absurd (hFree u (Nat.ne_of_gt hPos)).1 hNe
      · have hLe := hRoom info hInfo hRecursive
        omega
      · rw [hRet, hSame] at hS
        rw [hRet] at hO
        subst hO hS
        have hInv' : Inv table i (s.returns t m (s.held m)
            (trylockOutcome info.attrType .EBUSY)).1 :=
          hInv.returns_same _
        by_cases hType : info.attrType = .recursive
        · -- the mutex is owned by another thread
          have hCode :
              trylockOutcome info.attrType .EBUSY =
                .code .EBUSY :=
            if_pos hType
          rw [hCode] at hInv' ⊢
          refine ⟨hInv', ?_, ?_, fun _ => rfl⟩
          · intro hEq
            cases hEq
          · intro hRelocks
            exact absurd hType (hOwn hRelocks)
        · have hCode :
              trylockOutcome info.attrType .EBUSY =
                .code .EDEADLK :=
            if_neg hType
          rw [hCode] at hInv' ⊢
          refine ⟨hInv', ?_, fun _ => rfl, ?_⟩
          · intro hEq
            cases hEq
          · intro hOwned
            exact absurd (hOther hOwned) hType
  · cases hResume

/- `sys_mutex_unlock`. -/
theorem inv_unlock
    (hStep : Step table s ⟨.unlock t m, outcome⟩ s') :
    Inv table (i.step table ⟨.unlock t m, outcome⟩) s' ∧
      Answers table s ⟨.unlock t m, outcome⟩ s' := by
  rcases step_cases hStep with ⟨-, hCall⟩ | hResume
  · unfold call at hCall
    dsimp only at hCall
    split at hCall
    case h_1 hNone =>
      rcases Prod.mk.inj (Option.some.inj hCall) with ⟨rfl, rfl⟩
      refine ⟨hInv, ?_, ?_⟩
      · intro hEq
        cases hEq
      · intro hEq
        cases hEq
    case h_2 info hInfo =>
      rcases Prod.mk.inj (Option.some.inj hCall) with ⟨hS, hO⟩
      rcases
        @PosixMutex.unlock_cases _ _ t (s.held m) table.nested
          info.isRecursive with
        ⟨hRet, hPos, hChanges⟩ | ⟨hRet, hSame, hZero⟩
      · rw [hRet] at hO hS
        subst hO hS
        rw [hInv.depth] at hChanges
        refine
          ⟨hInv.returns hInfo hChanges _, ?_, fun _ => hPos⟩
        intro hEq
        cases hEq
      · rw [hRet, hSame] at hS
        rw [hRet] at hO
        subst hO hS
        refine ⟨hInv.returns_same _, ?_, ?_⟩
        · intro hEq
          cases hEq
        · intro hEq
          cases hEq
  · cases hResume

/- `sys_cond_wait` gives one level of the mutex back. -/
theorem inv_condWait
    {c : C}
    {timeout : Nat}
    (hAdmissible :
      Admissible table s ⟨.condWait t c timeout, outcome⟩ s')
    (hStep :
      Step table s ⟨.condWait t c timeout, outcome⟩ s') :
    Inv table (i.step table ⟨.condWait t c timeout, outcome⟩)
        s' ∧
      Answers table s ⟨.condWait t c timeout, outcome⟩ s' := by
  rcases step_cases hStep with ⟨-, hCall⟩ | hResume
  · unfold call at hCall
    dsimp only at hCall
    split at hCall
    case h_1 hNone =>
      rcases Prod.mk.inj (Option.some.inj hCall) with ⟨rfl, rfl⟩
      refine ⟨hInv, ?_, trivial⟩
      intro hEq
      cases hEq
    case h_2 m hCond =>
      rcases Prod.mk.inj (Option.some.inj hCall) with ⟨hS, hO⟩
      have hPos := hAdmissible m hCond
      have hIdeal :
          i.step table ⟨.condWait t c timeout, none⟩ =
            i.set m t (i.depth m t - 1) (i.depth m t) := by
        unfold MutexIdeal.step
        dsimp only
        rw [hCond]
      subst hO
      rw [hIdeal]
      refine ⟨?_, ?_, trivial⟩
      · rw [← hInv.depth]
        -- the recursion of the mutex, if there is one
        have hRecursive :
            ∃ recursive, ∀ info, table.mutexes m = some info →
              info.isRecursive = recursive := by
          cases hMutexes : table.mutexes m with
          | none =>
              refine ⟨true, ?_⟩
              intro info hInfo
              cases hInfo
          | some info =>
              refine ⟨info.isRecursive, ?_⟩
              intro other hOther
              cases hOther
              rfl
        rcases hRecursive with ⟨recursive, hRecursive⟩
        rcases
          @PosixMutex.unlock_cases _ _ t (s.held m) table.nested
            recursive with
          ⟨-, -, hChanges⟩ | ⟨-, -, hZero⟩
        · refine
            @Inv.change _ _ _ _ _ _ _ _ _ hInv t m _ _ _
              (.waiting m (timeout != 0)) _ hRecursive hChanges
              ?_ (by rw [← hS]) (by rw [← hS])
          unfold PhaseOk
          dsimp only
          rw [depth_set_self, entry_set_self]
          exact
            ⟨by omega, fun info hInfo => hInv.bound m info hInfo t⟩
        · omega
      · intro hEq
        cases hEq
  · cases hResume

/- The wait is over, and the guard locks the mutex. -/
theorem inv_wake
    {timedOut : Bool}
    (hStep : Step table s ⟨.wake t m timedOut, outcome⟩ s') :
    Inv table (i.step table ⟨.wake t m timedOut, outcome⟩)
        s' ∧
      Answers table s ⟨.wake t m timedOut, outcome⟩ s' := by
  rcases step_cases hStep with ⟨-, hCall⟩ | hResume
  · cases hCall
  · unfold resume at hResume
    dsimp only at hResume
    split at hResume
    case h_1 k timed info hPhase hInfo =>
      have hEntry := hInv.phase t
      rw [hPhase] at hEntry
      split at hResume
      case isTrue hMutex =>
        obtain rfl := hMutex.1
        split at hResume
        case h_1 =>
          rcases Prod.mk.inj (Option.some.inj hResume) with
            ⟨rfl, rfl⟩
          refine ⟨hInv.same ?_ rfl rfl, ?_, trivial⟩
          · exact hEntry
          · intro hEq
            cases hEq
        case h_2 result hSection =>
          rw [Option.some.inj hResume] at hSection
          rcases inv_relockSection hInv hInfo hEntry hSection with
            ⟨rfl, hInv'⟩
          refine ⟨hInv', ?_, trivial⟩
          intro hEq
          cases timedOut <;> cases hEq
      case isFalse => cases hResume
    case h_2 => cases hResume

theorem inv_relock
    (hStep : Step table s ⟨.relock t m, outcome⟩ s') :
    Inv table (i.step table ⟨.relock t m, outcome⟩) s' ∧
      Answers table s ⟨.relock t m, outcome⟩ s' := by
  rcases step_cases hStep with ⟨-, hCall⟩ | hResume
  · cases hCall
  · unfold resume at hResume
    dsimp only at hResume
    split at hResume
    case h_1 k timedOut info hPhase hInfo =>
      have hEntry := hInv.phase t
      rw [hPhase] at hEntry
      split at hResume
      case isTrue hMutex =>
        subst hMutex
        rcases inv_relockSection hInv hInfo hEntry hResume with
          ⟨rfl, hInv'⟩
        refine ⟨hInv', ?_, trivial⟩
        intro hEq
        cases timedOut <;> cases hEq
      case isFalse => cases hResume
    case h_2 => cases hResume

/- An admissible step is right, and keeps the invariant. -/
theorem inv_step
    {e : MutexEvent T M C}
    (hAdmissible : Admissible table s e s')
    (hStep : Step table s e s') :
    Inv table (i.step table e) s' ∧ Answers table s e s' := by
  rcases e with ⟨op, outcome⟩
  cases op with
  | lock => exact inv_lock hInv hAdmissible hStep
  | acquire => exact inv_acquire hInv hStep
  | expire => exact inv_expire hInv hStep
  | trylock => exact inv_trylock hInv hAdmissible hStep
  | unlock => exact inv_unlock hInv hStep
  | condWait => exact inv_condWait hInv hAdmissible hStep
  | wake => exact inv_wake hInv hStep
  | relock => exact inv_relock hInv hStep

end

/- Admissible runs keep the ownership of every mutex. -/
theorem owns_of_admissible
    {table : MutexTable M C}
    {events : List (MutexEvent T M C)}
    (hAdmissible :
      EveryStep (Step table) (Admissible table) start events) :
    Owns table events := by
  have hStates :
      EveryState (Step table)
        (fun before s =>
          Inv table (MutexIdeal.after table before) s)
        start events := by
    refine hAdmissible.everyState ?_ (inv_start table)
    intro before s e s' hInv hRight hStep
    unfold MutexIdeal.after
    rw [List.foldl_append]
    exact (inv_step hInv hRight hStep).1
  constructor
  · intro before rest s hEvents hRun
    exact (hStates before rest s hEvents hRun).sound
  · intro before e rest s s' hEvents hRun hStep
    exact
      (inv_step (hStates _ _ _ hEvents hRun)
        (hAdmissible _ _ _ _ _ hEvents hRun hStep) hStep).2

/- One mutex with one condition variable. -/
def oneMutex
    (isRecursive : Bool)
    (attrType : PthreadType) : MutexTable Unit Unit where
  mutexes := fun _ => some ⟨isRecursive, attrType⟩
  conds := fun _ => some ()
  nested := 1

/- A thread locks the mutex, waits with it and unlocks it. -/
def ownerWaits : List (MutexEvent Nat Unit Unit) :=
  [⟨.lock 1 () 0, some (.code .ok)⟩, ⟨.condWait 1 () 0, none⟩,
    ⟨.wake 1 () false, some (.code .ok)⟩,
    ⟨.unlock 1 (), some (.code .ok)⟩]

theorem owns_of_admissible_wait :
    Owns (oneMutex false .normal) ownerWaits := by
  apply owns_of_admissible
  refine .cons ?_
  intro s hLock
  rcases Prod.mk.inj (Option.some.inj hLock) with ⟨rfl, -⟩
  refine ⟨⟨?_, fun hTimed => absurd rfl hTimed⟩, .cons ?_⟩
  · intro info hInfo hRecursive
    exact Nat.zero_le _
  · intro t _
    refine ⟨?_, .cons fun u _ => ⟨trivial, .cons ?_⟩⟩
    · intro m _
      exact Nat.one_pos
    · intro v _
      exact ⟨trivial, .nil v⟩

/-
  The owner of a mutex that is not recursive locks it with a
  time-out, and an assertion fails.
-/
def timedRelock : List (MutexEvent Nat Unit Unit) :=
  [⟨.lock 1 () 0, some (.code .ok)⟩,
    ⟨.lock 1 () 10, some .assertion⟩]

theorem timedRelock_aborts :
    (∃ s, Run (Step (oneMutex false .normal)) start timedRelock
        s) ∧
      ¬ Owns (oneMutex false .normal) timedRelock := by
  have hRun :
      ∃ s t,
        Run (Step (oneMutex false .normal)) start
            [⟨.lock 1 () 0, some (.code .ok)⟩] s ∧
          Step (oneMutex false .normal) s
            ⟨.lock 1 () 10, some .assertion⟩ t :=
    ⟨_, _, .snoc .nil (by exact rfl), by exact rfl⟩
  rcases hRun with ⟨s, t, hFirst, hSecond⟩
  refine ⟨⟨t, .snoc hFirst hSecond⟩, ?_⟩
  rintro ⟨-, hAnswers⟩
  exact (hAnswers _ _ [] s t rfl hFirst hSecond).1 rfl

end Mutexes

end Ps3emu
