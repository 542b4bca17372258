import Mathlib.Tactic.Common

/-
  Mutexes of POSIX threads of the kinds that check for errors
  or that can be locked again by their owner.

  Key definitions include:
    * `PosixMutex.Held`, `PosixMutex.depth`
    * `PosixMutex.lock`, `PosixMutex.trylock`
    * `PosixMutex.unlock`

  Key theorems include:
    * `PosixMutex.owner_unique`
    * `PosixMutex.lock_cases`
    * `PosixMutex.trylock_cases`
    * `PosixMutex.unlock_cases`
-/

------------------------------------------------------------
-- Mutexes
------------------------------------------------------------

namespace Ps3emu

namespace PosixMutex

/- What the functions return. -/
inductive Ret where
  | ok
  | EDEADLK
  | EBUSY
  | ETIMEDOUT
  | EPERM
  | EAGAIN
deriving DecidableEq

/- The owner, and how many more times it has the lock. -/
abbrev Held (T : Type) := Option (T × Nat)

variable {T : Type} [DecidableEq T]

/- How many times a thread has the lock. -/
def depth (t : T) : Held T → Nat
  | none => 0
  | some (u, n) => if u = t then n + 1 else 0

/-
  The owner of a recursive mutex may lock it again, up to a
  number of times.  A thread blocks if another is the owner.
-/
def lock
    (nested : Nat)
    (recursive : Bool)
    (t : T) : Held T → Option (Held T × Ret)
  | none => some (some (t, 0), .ok)
  | some (u, n) =>
      if u = t then
        if recursive then
          if n < nested then some (some (t, n + 1), .ok)
          else some (some (u, n), .EAGAIN)
        else some (some (u, n), .EDEADLK)
      else none

def trylock
    (nested : Nat)
    (recursive : Bool)
    (t : T) : Held T → Held T × Ret
  | none => (some (t, 0), .ok)
  | some (u, n) =>
      if u = t ∧ recursive = true then
        if n < nested then (some (t, n + 1), .ok)
        else (some (u, n), .EAGAIN)
      else (some (u, n), .EBUSY)

def unlock (t : T) : Held T → Held T × Ret
  | none => (none, .EPERM)
  | some (u, n) =>
      if u = t then
        match n with
        | 0 => (none, .ok)
        | n + 1 => (some (u, n), .ok)
      else (some (u, n), .EPERM)

------------------------------------------------------------
-- Ownership
------------------------------------------------------------

variable {t u : T} {h h' : Held T} {nested : Nat} {recursive : Bool}
variable {ret : Ret}

theorem depth_self (t : T) (n : Nat) :
    depth t (some (t, n)) = n + 1 :=
  if_pos rfl

theorem depth_of_ne
    (hNe : u ≠ t)
    (n : Nat) :
    depth t (some (u, n)) = 0 :=
  if_neg hNe

theorem depth_le (t u : T) (n : Nat) :
    depth u (some (t, n)) ≤ n + 1 := by
  by_cases hOwner : t = u
  · subst hOwner
    exact Nat.le_of_eq (depth_self t n)
  · rw [depth_of_ne hOwner]
    exact Nat.zero_le _

/- A thread that has the lock is the owner. -/
theorem eq_of_depth_pos
    (hPos : 0 < depth t h) :
    ∃ n, h = some (t, n) ∧ depth t h = n + 1 := by
  cases h with
  | none => cases hPos
  | some owner =>
      rcases owner with ⟨u, n⟩
      by_cases hOwner : u = t
      · subst hOwner
        exact ⟨n, rfl, depth_self u n⟩
      · rw [depth_of_ne hOwner] at hPos
        cases hPos

/- At most one thread is the owner. -/
theorem owner_unique
    (hFirst : 0 < depth t h)
    (hSecond : 0 < depth u h) :
    t = u := by
  rcases eq_of_depth_pos hFirst with ⟨n, rfl, -⟩
  rcases eq_of_depth_pos hSecond with ⟨m, hEq, -⟩
  exact congrArg Prod.fst (Option.some.inj hEq)

/-
  The depths after a call of a thread: its own, and those of
  the others, which stay.  The bounds of the depth are kept.
-/
structure Changes
    (nested : Nat)
    (recursive : Bool)
    (t : T)
    (d : Nat)
    (h h' : Held T) : Prop where
  own : depth t h' = d
  other : ∀ u, u ≠ t → depth u h' = depth u h
  bound :
    (∀ u, depth u h ≤ nested + 1 ∧
        (recursive = false → depth u h ≤ 1)) →
      ∀ u, depth u h' ≤ nested + 1 ∧
        (recursive = false → depth u h' ≤ 1)

theorem Changes.refl (h : Held T) :
    Changes nested recursive t (depth t h) h h :=
  ⟨rfl, fun _ _ => rfl, fun hBound => hBound⟩

/- A free mutex is taken. -/
theorem Changes.take :
    Changes nested recursive t 1 none (some (t, 0)) where
  own := depth_self t 0
  other u hNe := depth_of_ne (fun hEq => hNe hEq.symm) 0
  bound _ u := by
    have hLe := depth_le t u 0
    exact ⟨by omega, fun _ => hLe⟩

/- A recursive mutex is locked again. -/
theorem Changes.again
    {n : Nat}
    (hRecursive : recursive = true)
    (hLt : n < nested) :
    Changes nested recursive t (n + 2) (some (t, n))
      (some (t, n + 1)) where
  own := depth_self t (n + 1)
  other u hNe := by
    rw [depth_of_ne (fun hEq => hNe hEq.symm),
      depth_of_ne (fun hEq => hNe hEq.symm)]
  bound _ u := by
    rw [hRecursive]
    have hLe := depth_le t u (n + 1)
    exact ⟨by omega, fun hFalse => by cases hFalse⟩

/- What a call of `lock` that does not block does. -/
theorem lock_cases
    (hLock : lock nested recursive t h = some (h', ret)) :
    (ret = .ok ∧
        Changes nested recursive t (depth t h + 1) h h' ∧
          (depth t h ≠ 0 → recursive = true)) ∨
      (ret = .EAGAIN ∧ h' = h ∧ recursive = true ∧
          nested < depth t h) ∨
        (ret = .EDEADLK ∧ h' = h ∧ recursive = false ∧
          depth t h ≠ 0) := by
  cases h with
  | none =>
      cases hLock
      exact .inl ⟨rfl, .take, fun hNe => absurd rfl hNe⟩
  | some owner =>
      rcases owner with ⟨u, n⟩
      unfold lock at hLock
      dsimp only at hLock
      split at hLock
      case isTrue hOwner =>
        subst hOwner
        rw [depth_self]
        split at hLock
        case isTrue hRecursive =>
          split at hLock
          case isTrue hLt =>
            cases hLock
            exact
              .inl
                ⟨rfl, .again hRecursive hLt,
                  fun _ => hRecursive⟩
          case isFalse hFull =>
            cases hLock
            exact .inr (.inl ⟨rfl, rfl, hRecursive, by omega⟩)
        case isFalse hRecursive =>
          cases hLock
          exact
            .inr
              (.inr
                ⟨rfl, rfl, Bool.eq_false_iff.mpr hRecursive,
                  Nat.succ_ne_zero n⟩)
      case isFalse => cases hLock

/- The owner does not block. -/
theorem lock_of_depth_pos
    (hPos : 0 < depth t h) :
    lock nested recursive t h ≠ none := by
  rcases eq_of_depth_pos hPos with ⟨n, rfl, -⟩
  unfold lock
  dsimp only
  rw [if_pos rfl]
  split
  case isTrue =>
    split
    case isTrue => exact Option.some_ne_none _
    case isFalse => exact Option.some_ne_none _
  case isFalse => exact Option.some_ne_none _

theorem trylock_cases :
    ((trylock nested recursive t h).2 = .ok ∧
        Changes nested recursive t (depth t h + 1) h
            (trylock nested recursive t h).1 ∧
          (∀ u, depth u h ≠ 0 → u = t ∧ recursive = true)) ∨
      ((trylock nested recursive t h).2 = .EAGAIN ∧
          (trylock nested recursive t h).1 = h ∧
            recursive = true ∧ nested < depth t h) ∨
        ((trylock nested recursive t h).2 = .EBUSY ∧
          (trylock nested recursive t h).1 = h ∧
            ((∃ u, u ≠ t ∧ depth u h ≠ 0) ∨
              (depth t h ≠ 0 ∧ recursive = false))) := by
  cases h with
  | none =>
      exact .inl ⟨rfl, .take, fun u hNe => absurd rfl hNe⟩
  | some owner =>
      rcases owner with ⟨u, n⟩
      unfold trylock
      by_cases hAgain : u = t ∧ recursive = true
      · rcases hAgain with ⟨rfl, rfl⟩
        dsimp only
        rw [depth_self, if_pos ⟨rfl, rfl⟩]
        by_cases hLt : n < nested
        · rw [if_pos hLt]
          refine .inl ⟨rfl, .again rfl hLt, ?_⟩
          intro v hNe
          refine ⟨?_, rfl⟩
          by_contra hOther
          exact hNe (depth_of_ne (fun hEq => hOther hEq.symm) n)
        · rw [if_neg hLt]
          exact .inr (.inl ⟨rfl, rfl, rfl, by omega⟩)
      · dsimp only
        rw [if_neg hAgain]
        refine .inr (.inr ⟨rfl, rfl, ?_⟩)
        by_cases hOwner : u = t
        · subst hOwner
          right
          rw [depth_self]
          refine ⟨Nat.succ_ne_zero n, ?_⟩
          exact
            Bool.eq_false_iff.mpr
              (fun hTrue => hAgain ⟨rfl, hTrue⟩)
        · left
          refine ⟨u, hOwner, ?_⟩
          rw [depth_self]
          exact Nat.succ_ne_zero n

theorem unlock_cases
    (nested : Nat)
    (recursive : Bool) :
    ((unlock t h).2 = .ok ∧ 0 < depth t h ∧
        Changes nested recursive t (depth t h - 1) h
          (unlock t h).1) ∨
      ((unlock t h).2 = .EPERM ∧ (unlock t h).1 = h ∧
          depth t h = 0) := by
  cases h with
  | none => exact .inr ⟨rfl, rfl, rfl⟩
  | some owner =>
      rcases owner with ⟨u, n⟩
      unfold unlock
      by_cases hOwner : u = t
      · subst hOwner
        left
        dsimp only
        rw [if_pos rfl, depth_self]
        cases n with
        | zero =>
            refine ⟨rfl, Nat.one_pos, rfl, ?_, ?_⟩
            · intro v hNe
              rw [depth_of_ne (fun hEq => hNe hEq.symm)]
              rfl
            · intro _ v
              exact ⟨Nat.zero_le _, fun _ => Nat.zero_le _⟩
        | succ n =>
            refine
              ⟨rfl, Nat.succ_pos _, depth_self u n, ?_, ?_⟩
            · intro v hNe
              rw [depth_of_ne (fun hEq => hNe hEq.symm),
                depth_of_ne (fun hEq => hNe hEq.symm)]
            · intro hBound v
              have hOwn := hBound v
              unfold depth at hOwn ⊢
              dsimp only at hOwn ⊢
              split
              case isTrue hSame =>
                rw [if_pos hSame] at hOwn
                exact
                  ⟨by omega,
                    fun hFalse => by
                      have hLe := hOwn.2 hFalse
                      omega⟩
              case isFalse =>
                exact ⟨Nat.zero_le _, fun _ => Nat.zero_le _⟩
      · right
        dsimp only
        rw [if_neg hOwner]
        exact ⟨rfl, rfl, depth_of_ne hOwner n⟩

end PosixMutex

end Ps3emu
