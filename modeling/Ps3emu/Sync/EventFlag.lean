import Ps3emu.Library.Monitor

/-
  The event flags of `event_flag.cpp`: a word of 64 bits that
  threads set and clear, and that they wait for.

  Key definitions include:
    * `EventFlag.holds`
    * `EventFlag.act`, `EventFlag.flag`
    * `EventFlag.named`
    * `EventFlag.consumes`, `EventFlag.raises`

  Key theorems include:
    * `EventFlag.not_missed_of_run`
    * `EventFlag.waits_of_run`
-/

------------------------------------------------------------
-- Flags and Their Meaning
------------------------------------------------------------

namespace Ps3emu

namespace EventFlag

open Transition

def SYS_EVENT_FLAG_WAIT_AND : BitVec 32 := 0x000001
def SYS_EVENT_FLAG_WAIT_CLEAR : BitVec 32 := 0x000010
def SYS_EVENT_FLAG_WAIT_CLEAR_ALL : BitVec 32 := 0x000020

/- A wait has no timeout, as an assertion says. -/
inductive Op where
  | wait (bitptn : BitVec 64) (mode : BitVec 32) (result : Bool)
  | set (bitptn : BitVec 64)
  | get
  | clear (bitptn : BitVec 64)
deriving DecidableEq

/-
  A wait returns what it stores through `result`, if there is
  one; the value of its last test is recorded.
-/
inductive Value where
  | ok
  | read (value : BitVec 64)
  | woken (value : BitVec 64) (stored : Option (BitVec 64))
deriving DecidableEq

/- The predicate of the wait. -/
def holds
    (bitptn : BitVec 64)
    (mode : BitVec 32)
    (value : BitVec 64) : Bool :=
  let masked := value &&& bitptn
  if mode &&& SYS_EVENT_FLAG_WAIT_AND ≠ 0 then
    masked = bitptn
  else masked ≠ 0

variable {T : Type}

def act (_ : T) :
    Op → BitVec 64 → Option (BitVec 64 × Value)
  | .wait bitptn mode result, value =>
      if holds bitptn mode value then
        let stored := if result then some value else none
        if mode &&& SYS_EVENT_FLAG_WAIT_CLEAR ≠ 0 then
          some (value &&& ~~~bitptn, .woken value stored)
        else if mode &&& SYS_EVENT_FLAG_WAIT_CLEAR_ALL ≠ 0 then
          some (0, .woken value stored)
        else some (value, .woken value stored)
      else none
  | .set bitptn, value => some (value ||| bitptn, .ok)
  | .get, value => some (value, .read value)
  | .clear bitptn, value => some (value &&& bitptn, .ok)

def notifies : Op → Value → Bool
  | .set _, _ => true
  | _, _ => false

def flag (T : Type) : Monitor T (BitVec 64) Op Value where
  enter _ _ value := value
  act := act
  notifies := notifies

abbrev State (T : Type) := Monitor.State T (BitVec 64) Op

abbrev Event (T : Type) := Monitor.Event T Op Value

/- All or some of the bits of the pattern are set. -/
def Satisfied
    (bitptn : BitVec 64)
    (mode : BitVec 32)
    (value : BitVec 64) : Prop :=
  if mode &&& SYS_EVENT_FLAG_WAIT_AND ≠ 0 then
    ∀ bit, bitptn.getLsbD bit = true →
      value.getLsbD bit = true
  else
    ∃ bit, bitptn.getLsbD bit = true ∧
      value.getLsbD bit = true

/- The bits that a wait of a mode removes. -/
def named
    (bitptn : BitVec 64)
    (mode : BitVec 32)
    (bit : Nat) : Bool :=
  if mode &&& SYS_EVENT_FLAG_WAIT_CLEAR ≠ 0 then
    bitptn.getLsbD bit
  else mode &&& SYS_EVENT_FLAG_WAIT_CLEAR_ALL ≠ 0

/- A wait finds the bit set, and removes it. -/
def consumes (bit : Nat) (e : Event T) : Bool :=
  match e.op, e.value with
  | .wait bitptn mode _, some (.woken value _) =>
      value.getLsbD bit && named bitptn mode bit
  | _, _ => false

/- A call sets the bit. -/
def raises (bit : Nat) (e : Event T) : Bool :=
  match e.op with
  | .set bitptn => bitptn.getLsbD bit
  | _ => false

variable {bitptn : BitVec 64} {mode : BitVec 32}

theorem holds_iff
    {value : BitVec 64} :
    holds bitptn mode value = true ↔
      Satisfied bitptn mode value := by
  unfold holds Satisfied
  dsimp only
  split
  case isTrue =>
    rw [decide_eq_true_eq]
    constructor
    · intro hMasked bit hBit
      rw [← hMasked, BitVec.getLsbD_and] at hBit
      exact (Bool.and_eq_true_iff.mp hBit).1
    · intro hAll
      refine BitVec.eq_of_getLsbD_eq ?_
      intro bit _
      rw [BitVec.getLsbD_and]
      cases hBit : bitptn.getLsbD bit with
      | false => exact Bool.and_false _
      | true => rw [hAll bit hBit]; rfl
  case isFalse =>
    rw [decide_eq_true_eq]
    constructor
    · intro hMasked
      by_contra hNone
      refine hMasked (BitVec.eq_of_getLsbD_eq ?_)
      intro bit _
      by_contra hBit
      have hZero : (0 : BitVec 64).getLsbD bit = false :=
        BitVec.getLsbD_zero
      rw [hZero, Bool.not_eq_false, BitVec.getLsbD_and,
        Bool.and_eq_true_iff] at hBit
      exact hNone ⟨bit, hBit.2, hBit.1⟩
    · rintro ⟨bit, hPattern, hValue⟩ hZero
      have hBit : (value &&& bitptn).getLsbD bit = false := by
        rw [hZero]
        exact BitVec.getLsbD_zero
      rw [BitVec.getLsbD_and, hPattern, hValue] at hBit
      cases hBit

------------------------------------------------------------
-- Sections
------------------------------------------------------------

variable {thread : T}

/- A wait that returns. -/
theorem act_wait
    {bitptn after value : BitVec 64}
    {mode : BitVec 32}
    {result : Bool}
    {v : Value}
    (hAct :
      act thread (.wait bitptn mode result) value =
        some (after, v)) :
    Satisfied bitptn mode value ∧
      v = .woken value (if result then some value else none) ∧
        ∀ bit,
          after.getLsbD bit =
            (value.getLsbD bit && !named bitptn mode bit) := by
  unfold act at hAct
  dsimp only at hAct
  unfold named
  split at hAct
  case isTrue hHolds =>
    refine ⟨holds_iff.mp hHolds, ?_⟩
    split at hAct
    case isTrue hClear =>
      cases hAct
      refine ⟨rfl, ?_⟩
      intro bit
      rw [if_pos hClear, BitVec.getLsbD_and, BitVec.getLsbD_not]
      by_cases hBit : bit < 64
      · simp [hBit]
      · rw [BitVec.getLsbD_of_ge value bit (by omega)]
        rfl
    case isFalse hClear =>
      split at hAct
      case isTrue hAll =>
        cases hAct
        refine ⟨rfl, ?_⟩
        intro bit
        rw [if_neg hClear, decide_eq_true hAll, Bool.not_true,
          Bool.and_false]
        exact BitVec.getLsbD_zero
      case isFalse hAll =>
        cases hAct
        refine ⟨rfl, ?_⟩
        intro bit
        rw [if_neg hClear, decide_eq_false hAll, Bool.not_false,
          Bool.and_true]
  case isFalse => cases hAct

/- A bit that is consumed was set, and is not any more. -/
theorem bit_of_act
    {op : Op}
    {value after : BitVec 64}
    {v : Value}
    (hAct : act thread op value = some (after, v))
    (move : Monitor.Move)
    (bit : Nat) :
    (consumes bit ⟨thread, op, move, some v⟩).toNat +
        (after.getLsbD bit).toNat ≤
      (raises bit ⟨thread, op, move, some v⟩).toNat +
        (value.getLsbD bit).toNat := by
  cases op with
  | wait bitptn mode result =>
      rcases act_wait hAct with ⟨-, rfl, hBits⟩
      unfold consumes raises
      dsimp only
      rw [hBits]
      cases value.getLsbD bit with
      | false => simp
      | true =>
          cases named bitptn mode bit with
          | false => decide
          | true => decide
  | set bitptn =>
      cases hAct
      unfold consumes raises
      dsimp only
      rw [BitVec.getLsbD_or]
      cases value.getLsbD bit with
      | false => simp
      | true => simp
  | get =>
      cases hAct
      exact Nat.le_refl _
  | clear bitptn =>
      cases hAct
      unfold consumes raises
      dsimp only
      rw [BitVec.getLsbD_and]
      cases value.getLsbD bit with
      | false => simp
      | true => simp [Bool.toNat_le]

variable [DecidableEq T]

omit [DecidableEq T] in
theorem value_of_begins
    {s : State T}
    {e : Event T}
    {value : BitVec 64}
    (hBegins : Monitor.Begins (flag T) s e value) :
    value = s.shared := by
  cases hBegins with
  | call => rfl
  | wakeup => rfl

theorem bit_of_step
    {s t : State T}
    {e : Event T}
    (hStep : (flag T).Step s e t)
    (bit : Nat) :
    (consumes bit e).toNat + (t.shared.getLsbD bit).toNat ≤
      (raises bit e).toNat + (s.shared.getLsbD bit).toNat := by
  rcases e with ⟨thread, op, move, value⟩
  cases Monitor.effect_of_step hStep with
  | acts hBegins hAct hValue =>
      cases hValue
      rw [value_of_begins hBegins] at hAct
      exact bit_of_act hAct move bit
  | sleeps hBegins _ hValue =>
      cases hValue
      have hQuiet :
          consumes bit
              (⟨thread, op, move, none⟩ : Event T) = false := by
        cases op with
        | _ => rfl
      rw [hQuiet, value_of_begins hBegins]
      simp

------------------------------------------------------------
-- Runs
------------------------------------------------------------

omit [DecidableEq T] in
theorem act_eq_none
    {op : Op}
    {value : BitVec 64}
    (hNone : act thread op value = none) :
    ∃ bitptn mode result,
      op = .wait bitptn mode result ∧
        ¬ Satisfied bitptn mode value := by
  cases op with
  | wait bitptn mode result =>
      refine ⟨bitptn, mode, result, rfl, ?_⟩
      intro hSatisfied
      unfold act at hNone
      dsimp only at hNone
      rw [if_pos (holds_iff.mpr hSatisfied)] at hNone
      split at hNone
      case isTrue => cases hNone
      case isFalse =>
        split at hNone
        case isTrue => cases hNone
        case isFalse => cases hNone
  | set bitptn => cases hNone
  | get => cases hNone
  | clear bitptn => cases hNone

omit [DecidableEq T] in
theorem act_wait_eq_none
    {bitptn value : BitVec 64}
    {mode : BitVec 32}
    {result : Bool}
    (hNot : ¬ Satisfied bitptn mode value) :
    act thread (.wait bitptn mode result) value = none := by
  unfold act
  exact if_neg (fun hHolds => hNot (holds_iff.mp hHolds))

/- More bits keep a wait satisfied. -/
theorem Satisfied.mono
    {bitptn value after : BitVec 64}
    (hSatisfied : Satisfied bitptn mode after)
    (hMore :
      ∀ bit, after.getLsbD bit = true →
        value.getLsbD bit = true) :
    Satisfied bitptn mode value := by
  unfold Satisfied at hSatisfied ⊢
  split
  case isTrue hAnd =>
    rw [if_pos hAnd] at hSatisfied
    intro bit hBit
    exact hMore bit (hSatisfied bit hBit)
  case isFalse hOr =>
    rw [if_neg hOr] at hSatisfied
    rcases hSatisfied with ⟨bit, hPattern, hBit⟩
    exact ⟨bit, hPattern, hMore bit hBit⟩

omit [DecidableEq T] in
/- Only a set puts bits into the flag. -/
theorem less_of_quiet
    {op : Op}
    {value after : BitVec 64}
    {v : Value}
    (hAct : act thread op value = some (after, v))
    (hQuiet : notifies op v = false)
    (bit : Nat)
    (hBit : after.getLsbD bit = true) :
    value.getLsbD bit = true := by
  cases op with
  | wait bitptn mode result =>
      rcases act_wait hAct with ⟨-, -, hBits⟩
      rw [hBits] at hBit
      exact (Bool.and_eq_true_iff.mp hBit).1
  | set bitptn => cases hQuiet
  | get =>
      cases hAct
      exact hBit
  | clear bitptn =>
      cases hAct
      rw [BitVec.getLsbD_and] at hBit
      exact (Bool.and_eq_true_iff.mp hBit).1

omit [DecidableEq T] in
/- Only a set can satisfy a wait, and it notifies. -/
theorem notifying :
    (flag T).Notifying (fun _ => True) where
  enter _ _ _ _ _ _ _ hNone := hNone
  act thread op other op' value after v _ _ hAct hQuiet
      hNone := by
    rcases @act_eq_none T other _ _ hNone with
      ⟨bitptn, mode, result, rfl, hNot⟩
    refine @act_wait_eq_none T other _ _ _ _ ?_
    intro hSatisfied
    refine hNot (hSatisfied.mono ?_)
    exact @less_of_quiet T thread _ _ _ _ hAct hQuiet

/- No wait sleeps on while its condition holds. -/
theorem not_missed_of_run
    {init : BitVec 64}
    {events : List (Event T)}
    {t : State T}
    (hRun : Run (flag T).Step (Monitor.start init) events t)
    {result : Bool}
    (hPhase :
      t.phase thread =
        .blocked (.wait bitptn mode result) false) :
    ¬ Satisfied bitptn mode t.shared := by
  have hNone :=
    notifying.run
      ⟨fun _ _ _ h => h, fun _ _ _ _ _ h _ => h⟩ trivial hRun
      _ _ hPhase
  rcases
    @act_eq_none T thread (.wait bitptn mode result) t.shared
      hNone with
    ⟨bitptn', mode', result', hOp, hNot⟩
  cases hOp
  exact hNot

/-
  A wait returns when its condition holds, stores the value
  before its own clearing, and removes the bits that it names;
  and no bit is consumed more often than it was set.
-/
theorem waits_of_run
    (init : BitVec 64)
    (events : List (Event T))
    (t : State T)
    (hRun : Run (flag T).Step (Monitor.start init) events t) :
    (∀ before thread bitptn mode result move value stored after,
        events =
            before ++
              ⟨thread, .wait bitptn mode result, move,
                some (.woken value stored)⟩ :: after →
          ∃ s u,
            Run (flag T).Step (Monitor.start init) before s ∧
              (flag T).Step s
                ⟨thread, .wait bitptn mode result, move,
                  some (.woken value stored)⟩ u ∧
              Satisfied bitptn mode s.shared ∧
              value = s.shared ∧
              stored =
                (if result then some s.shared else none) ∧
              ∀ bit,
                u.shared.getLsbD bit =
                  (s.shared.getLsbD bit &&
                    !named bitptn mode bit)) ∧
      ∀ bit,
        events.countP (consumes bit) ≤
          events.countP (raises bit) +
            (init.getLsbD bit).toNat := by
  refine ⟨?_, ?_⟩
  · intro before thread bitptn mode result move value stored
      after hEvents
    rw [hEvents] at hRun
    rcases hRun.step_of_mem with ⟨s, u, hBefore, hStep⟩
    refine ⟨s, u, hBefore, hStep, ?_⟩
    cases Monitor.effect_of_step hStep with
    | acts hBegins hAct hValue =>
        cases hValue
        rw [value_of_begins hBegins] at hAct
        rcases @act_wait T thread _ _ _ _ _ _ hAct with
          ⟨hHolds, hWoken, hBits⟩
        cases hWoken
        exact ⟨hHolds, rfl, rfl, hBits⟩
    | sleeps _ _ hValue => cases hValue
  · intro bit
    have hBound :=
      hRun.bounded (fun s => (s.shared.getLsbD bit).toNat)
        (raises bit) (consumes bit)
        (fun _ _ _ hStep => bit_of_step hStep bit)
    change _ ≤ _ + (init.getLsbD bit).toNat at hBound
    omega

/- A thread sets a bit and one of two waiters consumes it. -/
theorem waits_of_run_clear :
    List.countP (consumes (T := Nat) 0)
        [⟨1, .wait 1 0x12 true, .call, none⟩,
          ⟨2, .wait 1 0x11 true, .call, none⟩,
          ⟨3, .set 1, .call, some .ok⟩,
          ⟨2, .wait 1 0x11 true, .wakeup,
            some (.woken 1 (some 1))⟩] ≤
      List.countP (raises (T := Nat) 0)
          [⟨1, .wait 1 0x12 true, .call, none⟩,
            ⟨2, .wait 1 0x11 true, .call, none⟩,
            ⟨3, .set 1, .call, some .ok⟩,
            ⟨2, .wait 1 0x11 true, .wakeup,
              some (.woken 1 (some 1))⟩] +
        ((0 : BitVec 64).getLsbD 0).toNat :=
  (waits_of_run 0 _ _
    (.snoc
      (.snoc
        (.snoc (.snoc .nil (by exact rfl)) (by exact rfl))
        (by exact rfl))
      (by exact rfl))).2 0

end EventFlag

end Ps3emu
