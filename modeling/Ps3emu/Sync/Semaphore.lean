import Mathlib.Logic.Function.Basic
import Ps3emu.Library.Transition

/-
  The semaphores of `sys.cpp`: a value under a lock, posts
  that raise it up to a maximum, and waits that lower it.

  Key definitions include:
    * `CellSemaphore`, `CellSemaphore.exec`
    * `CellSemaphore.Accounts`, `CellSemaphore.Proper`
    * `CellSemaphore.Admissible`

  Key theorems include:
    * `CellSemaphore.accounts_step`
    * `CellSemaphore.proper_step`
    * `CellSemaphore.keepsCount_iff`
-/

------------------------------------------------------------
-- Semaphores
------------------------------------------------------------

namespace Ps3emu

/-
  A thread in the loop of `wait` sleeps in `timed_wait`, with
  the time-out of its call.
-/
structure CellSemaphore (T : Type) where
  val : BitVec 32
  max : BitVec 32
  sleeping : T → Option (BitVec 64)

/-
  The sections under the lock.  A sleeper wakes up when its
  time is over, or because of a notification or for no reason.
-/
inductive SemaphoreOp (T : Type) where
  | wait (thread : T) (timeout : BitVec 64)
  | trywait (thread : T)
  | wake (thread : T) (elapsed : Bool)
  | post (thread : T) (val : BitVec 32)
  | getValue (thread : T)
deriving DecidableEq

/-
  `CELL_OK`, with the value that `sys_semaphore_get_value`
  stores, `CELL_ETIMEDOUT` and `CELL_EBUSY`.
-/
inductive SemaphoreResult where
  | ok
  | value (val : BitVec 32)
  | timedOut
  | busy
deriving DecidableEq

/- A section, and what is returned after it, if anything is. -/
structure SemaphoreEvent (T : Type) where
  op : SemaphoreOp T
  result : Option SemaphoreResult
deriving DecidableEq

namespace CellSemaphore

variable {T : Type} [DecidableEq T]

/- `sys_semaphore_create`. -/
def create (initial max : BitVec 32) : CellSemaphore T where
  val := initial
  max := max
  sleeping := fun _ => none

/-
  The test of the loop of `wait`, which does not look at what
  `timed_wait` has returned.
-/
def test
    (s : CellSemaphore T)
    (thread : T)
    (timeout : BitVec 64) : CellSemaphore T × Option Bool :=
  if s.val = 0 then
    ({ s with
      sleeping :=
        Function.update s.sleeping thread (some timeout) },
      none)
  else
    ({ s with
      val := s.val - 1
      sleeping := Function.update s.sleeping thread none },
      some true)

/- `sys_semaphore_wait`, from the result of `wait`. -/
def waitResult : Bool → SemaphoreResult
  | true => .ok
  | false => .timedOut

def sectionOfWait
    (s : CellSemaphore T)
    (thread : T)
    (timeout : BitVec 64) :
    CellSemaphore T × Option SemaphoreResult :=
  let (t, returned) := s.test thread timeout
  (t, returned.map waitResult)

def post
    (s : CellSemaphore T)
    (val : BitVec 32) : CellSemaphore T × Bool :=
  if s.val = s.max then (s, false)
  else ({ s with val := s.val + val }, true)

/- `sys_semaphore_post`, from the result of `post`. -/
def postResult : Bool → SemaphoreResult
  | true => .ok
  | false => .busy

def exec
    (s : CellSemaphore T) :
    SemaphoreOp T →
      Option (CellSemaphore T × Option SemaphoreResult)
  | .wait thread timeout =>
      match s.sleeping thread with
      | none => some (s.sectionOfWait thread timeout)
      | some _ => none
  | .trywait thread =>
      match s.sleeping thread with
      | none => some (s.sectionOfWait thread 0)
      | some _ => none
  | .wake thread _ =>
      match s.sleeping thread with
      | none => none
      | some timeout => some (s.sectionOfWait thread timeout)
  | .post thread val =>
      match s.sleeping thread with
      | none =>
          let (t, returned) := s.post val
          some (t, some (postResult returned))
      | some _ => none
  | .getValue thread =>
      match s.sleeping thread with
      | none => some (s, some (.value s.val))
      | some _ => none

def Step
    (s : CellSemaphore T)
    (e : SemaphoreEvent T)
    (t : CellSemaphore T) : Prop :=
  s.exec e.op = some (t, e.result)

end CellSemaphore

------------------------------------------------------------
-- Specification and Sections
------------------------------------------------------------

/- What an accepted post adds. -/
def SemaphoreEvent.posted
    {T : Type}
    (e : SemaphoreEvent T) : Nat :=
  match e.op, e.result with
  | .post _ val, some .ok => val.toNat
  | _, _ => 0

/- A wait is successful. -/
def SemaphoreEvent.acquired
    {T : Type}
    (e : SemaphoreEvent T) : Bool :=
  match e.op, e.result with
  | .wait _ _, some .ok => true
  | .trywait _, some .ok => true
  | .wake _ _, some .ok => true
  | _, _ => false

namespace CellSemaphore

open Transition

variable {T : Type} [DecidableEq T]

/- The value is in its bounds, and what the events make it. -/
structure Accounts
    (initial max : BitVec 32)
    (events : List (SemaphoreEvent T))
    (s : CellSemaphore T) : Prop where
  bound : s.val.toNat ≤ max.toNat
  sum :
    s.val.toNat + events.countP SemaphoreEvent.acquired =
      events.foldl (fun n e => n + e.posted) initial.toNat

/-
  A post beyond the maximum is refused, and a post that is
  refused leaves the value.  A `trywait`, and a wait when its
  time is over, fails if the value is zero and leaves it.
-/
def Proper
    (s : CellSemaphore T)
    (e : SemaphoreEvent T)
    (t : CellSemaphore T) : Prop :=
  match e.op with
  | .post _ val =>
      (s.max.toNat < s.val.toNat + val.toNat →
          e.result = some .busy) ∧
        (e.result = some .busy → t.val = s.val)
  | .trywait _ | .wake _ true =>
      s.val = 0 → e.result = some .timedOut ∧ t.val = s.val
  | _ => True

def KeepsCount
    (initial max : BitVec 32)
    (events : List (SemaphoreEvent T)) : Prop :=
  EveryState Step (Accounts initial max) (create initial max)
      events ∧
    EveryStep Step Proper (create initial max) events

/-
  A post comes when the value is at its maximum or stays
  below it, and no thread tries, and no time ends, when the
  value is zero.
-/
def Admissible
    (s : CellSemaphore T)
    (e : SemaphoreEvent T)
    (_ : CellSemaphore T) : Prop :=
  match e.op with
  | .post _ val =>
      s.val = s.max ∨
        s.val.toNat + val.toNat ≤ s.max.toNat
  | .trywait _ | .wake _ true => s.val ≠ 0
  | _ => True

/- The sections of a wait. -/
inductive Waits : SemaphoreOp T → Prop where
  | wait {thread : T} {timeout : BitVec 64} :
      Waits (.wait thread timeout)
  | trywait {thread : T} : Waits (.trywait thread)
  | wake {thread : T} {elapsed : Bool} :
      Waits (.wake thread elapsed)

/- What a section does. -/
inductive Effect
    (s : CellSemaphore T)
    (e : SemaphoreEvent T)
    (t : CellSemaphore T) : Prop where
  | takes :
      Waits e.op → s.val ≠ 0 → e.result = some .ok →
        t.val = s.val - 1 → t.max = s.max → Effect s e t
  | sleeps :
      Waits e.op → s.val = 0 → e.result = none →
        t.val = s.val → t.max = s.max → Effect s e t
  | posts {thread : T} {val : BitVec 32} :
      e.op = .post thread val → s.val ≠ s.max →
        e.result = some .ok → t.val = s.val + val →
          t.max = s.max → Effect s e t
  | refuses {thread : T} {val : BitVec 32} :
      e.op = .post thread val → s.val = s.max →
        e.result = some .busy → t = s → Effect s e t
  | reads {thread : T} :
      e.op = .getValue thread → t = s → Effect s e t

variable {e : SemaphoreEvent T} {s t : CellSemaphore T}

theorem effect_of_sectionOfWait
    {thread : T}
    {timeout : BitVec 64}
    (hWaits : Waits e.op)
    (hSection :
      s.sectionOfWait thread timeout = (t, e.result)) :
    Effect s e t := by
  unfold sectionOfWait test at hSection
  by_cases hZero : s.val = 0
  · rw [if_pos hZero] at hSection
    rcases Prod.mk.inj hSection with ⟨rfl, hResult⟩
    exact .sleeps hWaits hZero hResult.symm rfl rfl
  · rw [if_neg hZero] at hSection
    rcases Prod.mk.inj hSection with ⟨rfl, hResult⟩
    exact .takes hWaits hZero hResult.symm rfl rfl

theorem effect_of_step
    (hStep : Step s e t) :
    Effect s e t := by
  unfold Step exec at hStep
  cases hOp : e.op with
  | wait thread timeout =>
      rw [hOp] at hStep
      have hWaits : Waits e.op := hOp ▸ .wait
      dsimp only at hStep
      split at hStep
      case h_1 =>
        exact
          effect_of_sectionOfWait hWaits (Option.some.inj hStep)
      case h_2 => cases hStep
  | trywait thread =>
      rw [hOp] at hStep
      have hWaits : Waits e.op := hOp ▸ .trywait
      dsimp only at hStep
      split at hStep
      case h_1 =>
        exact
          effect_of_sectionOfWait hWaits (Option.some.inj hStep)
      case h_2 => cases hStep
  | wake thread elapsed =>
      rw [hOp] at hStep
      have hWaits : Waits e.op := hOp ▸ .wake
      dsimp only at hStep
      split at hStep
      case h_1 => cases hStep
      case h_2 =>
        exact
          effect_of_sectionOfWait hWaits (Option.some.inj hStep)
  | post thread val =>
      rw [hOp] at hStep
      dsimp only at hStep
      split at hStep
      case h_1 =>
        unfold post at hStep
        split at hStep
        case isTrue hMax =>
          rcases Prod.mk.inj (Option.some.inj hStep) with
            ⟨rfl, hResult⟩
          exact .refuses hOp hMax hResult.symm rfl
        case isFalse hMax =>
          rcases Prod.mk.inj (Option.some.inj hStep) with
            ⟨rfl, hResult⟩
          exact .posts hOp hMax hResult.symm rfl rfl
      case h_2 => cases hStep
  | getValue thread =>
      rw [hOp] at hStep
      dsimp only at hStep
      split at hStep
      case h_1 =>
        rcases Prod.mk.inj (Option.some.inj hStep) with
          ⟨rfl, hResult⟩
        exact .reads hOp rfl
      case h_2 => cases hStep

omit [DecidableEq T] in
/- What the counts make of the sections of a wait. -/
theorem Waits.counts
    (hWaits : Waits e.op) :
    e.posted = 0 ∧
      (e.result = some .ok → e.acquired = true) ∧
        (e.result = none → e.acquired = false) := by
  rcases e with ⟨op, result⟩
  cases hWaits with
  | wait => exact ⟨rfl, by rintro rfl; rfl, by rintro rfl; rfl⟩
  | trywait =>
      exact ⟨rfl, by rintro rfl; rfl, by rintro rfl; rfl⟩
  | wake => exact ⟨rfl, by rintro rfl; rfl, by rintro rfl; rfl⟩

------------------------------------------------------------
-- Counts
------------------------------------------------------------

omit [DecidableEq T] in
theorem counts_append
    (events : List (SemaphoreEvent T))
    (e : SemaphoreEvent T)
    (n : Nat) :
    (events ++ [e]).foldl (fun n e => n + e.posted) n =
        events.foldl (fun n e => n + e.posted) n + e.posted ∧
      (events ++ [e]).countP SemaphoreEvent.acquired =
        events.countP SemaphoreEvent.acquired +
          e.acquired.toNat := by
  constructor
  · rw [List.foldl_append, List.foldl_cons, List.foldl_nil]
  · rw [List.countP_append]
    cases hAcquired : e.acquired with
    | false => simp [hAcquired]
    | true => simp [hAcquired]

/-
  An admissible section keeps the bounds and the sum: a post
  that is accepted does not wrap.
-/
theorem accounts_step
    {initial max : BitVec 32}
    {before : List (SemaphoreEvent T)}
    (hAccounts : s.max = max ∧ Accounts initial max before s)
    (hAdmissible : Admissible s e t)
    (hStep : Step s e t) :
    t.max = max ∧ Accounts initial max (before ++ [e]) t := by
  rcases hAccounts with ⟨rfl, hBound, hSum⟩
  have hMaxLt := s.max.isLt
  rcases counts_append before e initial.toNat with
    ⟨hPosted, hAcquired⟩
  have hNew :
      ∀ {posted acquired : Nat},
        e.posted = posted → e.acquired.toNat = acquired →
          t.val.toNat ≤ s.max.toNat →
            t.val.toNat + acquired = s.val.toNat + posted →
              Accounts initial s.max (before ++ [e]) t := by
    intro posted acquired hPost hAcquire hLe hEq
    refine ⟨hLe, ?_⟩
    rw [hPosted, hAcquired, hPost, hAcquire, ← hSum]
    omega
  cases effect_of_step hStep with
  | takes hWaits hNonzero hResult hVal hMax =>
      rcases hWaits.counts with ⟨hPost, hTakes, -⟩
      have hPos : s.val.toNat ≠ 0 :=
        fun hZero => hNonzero (BitVec.eq_of_toNat_eq hZero)
      have hDec : t.val.toNat = s.val.toNat - 1 := by
        have hLt := s.val.isLt
        rw [hVal, BitVec.toNat_sub]
        change (2 ^ 32 - 1 + s.val.toNat) % 2 ^ 32 = _
        omega
      refine ⟨hMax, hNew hPost rfl ?_ ?_⟩
      · omega
      · rw [hTakes hResult, hDec]
        change _ + 1 = _
        omega
  | sleeps hWaits hZero hResult hVal hMax =>
      rcases hWaits.counts with ⟨hPost, -, hSleeps⟩
      refine ⟨hMax, hNew hPost rfl ?_ ?_⟩
      · rw [hVal]
        exact hBound
      · rw [hSleeps hResult, hVal]
        rfl
  | @posts thread val hOp hBelow hResult hVal hMax =>
      -- the value is not at its maximum, so the post fits
      have hFits :
          s.val.toNat + val.toNat ≤ s.max.toNat := by
        unfold Admissible at hAdmissible
        rw [hOp] at hAdmissible
        exact hAdmissible.resolve_left hBelow
      have hAdd : t.val.toNat = s.val.toNat + val.toNat := by
        rw [hVal, BitVec.toNat_add, Nat.mod_eq_of_lt]
        omega
      have hPost : e.posted = val.toNat := by
        unfold SemaphoreEvent.posted
        rw [hOp, hResult]
      have hAcquire : e.acquired = false := by
        unfold SemaphoreEvent.acquired
        rw [hOp, hResult]
      refine ⟨hMax, hNew hPost rfl ?_ ?_⟩
      · rw [hAdd]
        exact hFits
      · rw [hAcquire, hAdd]
        rfl
  | refuses hOp hFull hResult hSame =>
      have hPost : e.posted = 0 := by
        unfold SemaphoreEvent.posted
        rw [hOp, hResult]
      have hAcquire : e.acquired = false := by
        unfold SemaphoreEvent.acquired
        rw [hOp, hResult]
      rw [hSame]
      rw [hSame] at hNew
      refine ⟨rfl, hNew hPost rfl hBound ?_⟩
      rw [hAcquire]
      rfl
  | reads hOp hSame =>
      have hPost : e.posted = 0 := by
        unfold SemaphoreEvent.posted
        rw [hOp]
      have hAcquire : e.acquired = false := by
        unfold SemaphoreEvent.acquired
        rw [hOp]
      rw [hSame]
      rw [hSame] at hNew
      refine ⟨rfl, hNew hPost rfl hBound ?_⟩
      rw [hAcquire]
      rfl

/- The sections that answer as they should. -/
theorem proper_step
    (hStep : Step s e t) :
    Proper s e t ↔ Admissible s e t := by
  rcases e with ⟨op, result⟩
  cases effect_of_step hStep with
  | takes hWaits hNonzero hResult hVal hMax =>
      cases hWaits with
      | wait => exact Iff.rfl
      | trywait =>
          exact
            iff_of_true (fun hZero => absurd hZero hNonzero)
              hNonzero
      | @wake thread elapsed =>
          cases elapsed with
          | false => exact Iff.rfl
          | true =>
              exact
                iff_of_true (fun hZero => absurd hZero hNonzero)
                  hNonzero
  | sleeps hWaits hZero hResult hVal hMax =>
      obtain rfl : result = none := hResult
      -- the section should have failed
      have hSleeps :
          ¬ (s.val = 0 →
            (none : Option SemaphoreResult) = some .timedOut ∧
              t.val = s.val) := by
        intro hFails
        cases (hFails hZero).1
      cases hWaits with
      | wait => exact Iff.rfl
      | trywait => exact iff_of_false hSleeps (not_not.mpr hZero)
      | @wake thread elapsed =>
          cases elapsed with
          | false => exact Iff.rfl
          | true =>
              exact iff_of_false hSleeps (not_not.mpr hZero)
  | @posts thread val hOp hBelow hResult hVal hMax =>
      obtain rfl : op = .post thread val := hOp
      obtain rfl : result = some .ok := hResult
      change
        (_ → some SemaphoreResult.ok = some .busy) ∧
            (some SemaphoreResult.ok = some .busy → _) ↔
          s.val = s.max ∨ _
      constructor
      · rintro ⟨hRefused, -⟩
        right
        by_contra hBeyond
        cases hRefused (Nat.lt_of_not_le hBeyond)
      · intro hFits
        have hLe := hFits.resolve_left hBelow
        refine ⟨?_, ?_⟩
        · intro hBeyond
          omega
        · intro hBusy
          cases hBusy
  | refuses hOp hFull hResult hSame =>
      obtain rfl := hOp
      rw [hSame]
      exact
        iff_of_true ⟨fun _ => hResult, fun _ => rfl⟩
          (.inl hFull)
  | reads hOp hSame =>
      obtain rfl := hOp
      exact Iff.rfl

/-
  A semaphore keeps its count in exactly the runs that start
  within the bounds and whose sections are all admissible.
-/
theorem keepsCount_iff
    (initial max : BitVec 32)
    (events : List (SemaphoreEvent T)) :
    KeepsCount initial max events ↔
      initial.toNat ≤ max.toNat ∧
        EveryStep Step Admissible (create initial max)
          events := by
  unfold KeepsCount
  rw [EveryStep.congr (fun _ _ _ hStep => proper_step hStep)]
  constructor
  · rintro ⟨hAccounts, hAdmissible⟩
    exact ⟨(hAccounts [] events _ rfl .nil).bound, hAdmissible⟩
  · rintro ⟨hInitial, hAdmissible⟩
    refine ⟨?_, hAdmissible⟩
    have hStates :
        EveryState Step
          (fun before s =>
            s.max = max ∧ Accounts initial max before s)
          (create initial max) events :=
      hAdmissible.everyState
        (fun _ _ _ _ hOld hRight hStep =>
          accounts_step hOld hRight hStep)
        ⟨rfl, hInitial, rfl⟩
    intro before after s hEvents hBefore
    exact (hStates before after s hEvents hBefore).2

/- A post of five is accepted below a maximum of three. -/
theorem post_beyond_max :
    (∃ s : CellSemaphore Nat,
        Run Step (create 0 3) [⟨.post 1 5, some .ok⟩] s ∧
          s.val = 5) ∧
      ¬ KeepsCount (T := Nat) 0 3
          [⟨.post 1 5, some .ok⟩] := by
  have hRun :
      ∃ s : CellSemaphore Nat,
        Run Step (create 0 3) [⟨.post 1 5, some .ok⟩] s ∧
          s.val = 5 :=
    ⟨_, .snoc .nil (by exact rfl), rfl⟩
  refine ⟨hRun, ?_⟩
  rintro ⟨hAccounts, -⟩
  rcases hRun with ⟨s, hRun, hVal⟩
  have hBound :=
    (hAccounts _ [] s (List.append_nil _).symm hRun).bound
  rw [hVal] at hBound
  revert hBound
  decide

end CellSemaphore

end Ps3emu
