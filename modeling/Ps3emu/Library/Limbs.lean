import Mathlib.Data.Nat.Digits.Defs
import Mathlib.Tactic.Ring

/-
  Numbers of several limbs, and the chains of steps with a
  carry that compute them.

  Key definitions include:
    * `value`
    * `Linked`, `finalCarry`

  Key theorems include:
    * `linked_value`
    * `value_increment_iff`
-/

------------------------------------------------------------
-- Limbs
------------------------------------------------------------

namespace Ps3emu

namespace Limbs

variable {w : Nat}

/- The number that some limbs stand for, the least one first. -/
def value (limbs : List (BitVec w)) : Nat :=
  Nat.ofDigits (2 ^ w) (limbs.map BitVec.toNat)

@[simp] theorem value_nil :
    value ([] : List (BitVec w)) = 0 :=
  rfl

@[simp] theorem value_cons
    (a : BitVec w)
    (rest : List (BitVec w)) :
    value (a :: rest) = a.toNat + 2 ^ w * value rest :=
  Nat.ofDigits_cons

theorem value_lt (limbs : List (BitVec w)) :
    value limbs < (2 ^ w) ^ limbs.length := by
  induction limbs with
  | nil => exact Nat.one_pos
  | cons a rest hRest =>
      have hLimb := a.isLt
      rw [value_cons, List.length_cons, Nat.pow_succ']
      calc
        a.toNat + 2 ^ w * value rest
          < 2 ^ w * (value rest + 1) := by
            rw [Nat.mul_succ]
            omega
        _ ≤ 2 ^ w * (2 ^ w) ^ rest.length :=
            Nat.mul_le_mul_left _ hRest

/- Limbs and their complements add up to all ones. -/
theorem value_not (limbs : List (BitVec w)) :
    value (limbs.map (fun a => ~~~a)) + value limbs + 1 =
      (2 ^ w) ^ limbs.length := by
  induction limbs with
  | nil => rfl
  | cons a rest hRest =>
      have hLimb : (~~~a).toNat + a.toNat + 1 = 2 ^ w := by
        have hLt := a.isLt
        rw [BitVec.toNat_not]
        omega
      rw [List.map_cons, value_cons, value_cons,
        List.length_cons, Nat.pow_succ', ← hRest,
        Nat.mul_succ, Nat.mul_add, ← hLimb]
      omega

theorem toNat_succ_of_ne_allOnes
    {a : BitVec w}
    (hNe : a ≠ BitVec.allOnes w) :
    (a + 1#w).toNat = a.toNat + 1 := by
  have hLt := a.isLt
  have hNat : a.toNat ≠ 2 ^ w - 1 := by
    rw [← BitVec.toNat_allOnes]
    exact fun hEq => hNe (BitVec.eq_of_toNat_eq hEq)
  rw [BitVec.toNat_add, BitVec.toNat_ofNat,
    Nat.add_mod_mod, Nat.mod_eq_of_lt (by omega)]

/- Adding one to every limb, with a carry out of the last. -/
theorem value_increment_iff (limbs : List (BitVec w)) :
    value limbs + 1 =
        value (limbs.map (fun a => a + 1#w)) +
          (2 ^ w) ^ limbs.length ↔
      ∀ a ∈ limbs, a = BitVec.allOnes w := by
  induction limbs with
  | nil => simp
  | cons a rest hRest =>
      have hBase : 0 < 2 ^ w := Nat.two_pow_pos w
      have hLt := value_lt rest
      rw [List.forall_mem_cons, ← hRest, List.map_cons,
        value_cons, value_cons, List.length_cons,
        Nat.pow_succ']
      by_cases hOnes : a = BitVec.allOnes w
      · subst hOnes
        -- The limb becomes zero and passes its carry on.
        have hZero :
            (BitVec.allOnes w + 1#w).toNat = 0 := by
          rw [BitVec.toNat_add, BitVec.toNat_allOnes,
            BitVec.toNat_ofNat, Nat.add_mod_mod,
            Nat.sub_add_cancel hBase, Nat.mod_self]
        have hSum :
            2 ^ w - 1 + 2 ^ w * value rest + 1 =
              2 ^ w * (value rest + 1) := by
          rw [Nat.mul_succ]
          omega
        rw [hZero, BitVec.toNat_allOnes, hSum, Nat.zero_add,
          ← Nat.mul_add, Nat.mul_right_inj hBase.ne']
        exact (and_iff_right rfl).symm
      · have hSmall := toNat_succ_of_ne_allOnes hOnes
        refine iff_of_false (fun hEq => ?_)
          (fun hBoth => hOnes hBoth.1)
        have hMul :
            2 ^ w * value rest =
              2 ^ w *
                (value (rest.map (fun a => a + 1#w)) +
                  (2 ^ w) ^ rest.length) := by
          rw [Nat.mul_add]
          omega
        have hTail := Nat.eq_of_mul_eq_mul_left hBase hMul
        omega

------------------------------------------------------------
-- Chains
------------------------------------------------------------

section Chain

variable {α : Type} (carryIn carryOut : α → Bool)

/- Every step takes the carry that the step before it left. -/
def Linked (c : Bool) : List α → Prop
  | [] => True
  | a :: rest => carryIn a = c ∧ Linked (carryOut a) rest

/- The carry that is left after all steps. -/
def finalCarry (c : Bool) : List α → Bool
  | [] => c
  | a :: rest => finalCarry (carryOut a) rest

variable {carryIn carryOut}

/-
  When every step adds its operand and its carry exactly, a
  chain adds the number of all operands exactly.
-/
theorem linked_value
    (operand : α → Nat)
    (result : α → BitVec w)
    {c : Bool}
    {steps : List α}
    (hSteps : ∀ a ∈ steps,
      operand a + (carryIn a).toNat =
        (result a).toNat + 2 ^ w * (carryOut a).toNat)
    (hLinked : Linked carryIn carryOut c steps) :
    Nat.ofDigits (2 ^ w) (steps.map operand) + c.toNat =
      value (steps.map result) +
        (2 ^ w) ^ steps.length *
          (finalCarry carryOut c steps).toNat := by
  induction steps generalizing c with
  | nil => simp [finalCarry]
  | cons a rest hRest =>
      rcases hLinked with ⟨hCarry, hLinked⟩
      have hStep := hSteps a List.mem_cons_self
      have hTail :=
        hRest
          (fun b hB => hSteps b (List.mem_cons_of_mem _ hB))
          hLinked
      rw [hCarry] at hStep
      rw [List.map_cons, List.map_cons, List.length_cons,
        value_cons, Nat.ofDigits_cons, Nat.pow_succ',
        finalCarry]
      calc
        operand a +
              2 ^ w * Nat.ofDigits (2 ^ w)
                (rest.map operand) + c.toNat
          = (operand a + c.toNat) +
              2 ^ w * Nat.ofDigits (2 ^ w)
                (rest.map operand) := by ring
        _ = (result a).toNat +
              2 ^ w * (Nat.ofDigits (2 ^ w)
                (rest.map operand) + (carryOut a).toNat) := by
            rw [hStep]
            ring
        _ = (result a).toNat + 2 ^ w *
                value (rest.map result) +
              2 ^ w * (2 ^ w) ^ rest.length *
                (finalCarry carryOut (carryOut a)
                  rest).toNat := by
            rw [hTail]
            ring

/- A sum and its halves, the upper one being a carry. -/
theorem eq_add_carry_iff
    {s b t : Nat}
    (c : Bool)
    (hS : s < b)
    (hT : t < 2 * b) :
    t = s + b * c.toNat ↔
      s = t % b ∧ (c = true ↔ b ≤ t) := by
  by_cases hLe : b ≤ t
  · have hMod : t % b = t - b := by
      rw [Nat.mod_eq_sub_mod hLe,
        Nat.mod_eq_of_lt (by omega)]
    rw [hMod]
    cases c with
    | false => simp [hLe]; omega
    | true => simp [hLe]; omega
  · rw [Nat.mod_eq_of_lt (Nat.not_le.mp hLe)]
    cases c with
    | false => simp [hLe, eq_comm]
    | true => simp [hLe]; omega

/- Operands that are sums give the sum of two numbers. -/
theorem ofDigits_add
    (left right : α → BitVec w)
    (steps : List α) :
    Nat.ofDigits (2 ^ w)
        (steps.map (fun a =>
          (left a).toNat + (right a).toNat)) =
      value (steps.map left) + value (steps.map right) := by
  induction steps with
  | nil => rfl
  | cons a rest hRest =>
      rw [List.map_cons, List.map_cons, List.map_cons,
        Nat.ofDigits_cons, hRest, value_cons, value_cons]
      ring

end Chain

end Limbs

end Ps3emu
