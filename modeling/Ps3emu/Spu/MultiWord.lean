import Ps3emu.Library.Limbs
import Ps3emu.Spu.Storage

/-
  Sums and differences of numbers of several words, one in
  each lane, by the instructions that take a carry from their
  old target and those that leave one.

  Key definitions include:
    * `Operation`
    * `Executed`, `Stage`
    * `Operation.Exact`

  Key theorems include:
    * `sum_result`, `carry_result`
    * `chain_exact`
-/

------------------------------------------------------------
-- Chains
------------------------------------------------------------

namespace Ps3emu

namespace Spu

open Lanes Sse Limbs
open Ppu (LaneSpec words word)

/- A difference is taken from the second operand. -/
inductive Operation where
  | sum
  | difference

namespace Operation

/- The instructions for the lowest word. -/
def first : Operation → ComputeInstr
  | sum => .a
  | difference => .sf

def firstCarry : Operation → ComputeInstr
  | sum => .cg
  | difference => .bg

/- The instructions for the other words. -/
def next : Operation → ComputeInstr
  | sum => .addx
  | difference => .sfx

def nextCarry : Operation → ComputeInstr
  | sum => .cgx
  | difference => .bgx

/- A difference adds a complement and one. -/
def augend (op : Operation) (left : BitVec 32) : BitVec 32 :=
  match op with
  | sum => left
  | difference => ~~~left

def initial : Operation → Bool
  | sum => false
  | difference => true

end Operation

/- A carry in a lane. -/
def boolWord (c : Bool) : BitVec 32 :=
  (BitVec.ofBool c).setWidth 32

/- The last bit of a lane, bit 31 of the word. -/
def carryBit (value : R128) (n : Nat) : Bool :=
  (word value n).getLsbD 0

variable (base : Env (FlatMemory 18))

/- An instruction on registers that a thread has executed. -/
structure Executed (j : ComputeInstr) where
  word : BitVec 32
  cia : BitVec 32
  before : Thread (FlatMemory 18)
  after : Thread (FlatMemory 18)
  hDecode : decode word = some (.compute j)
  hRun : SPUDasm (spuEnv base) word cia before = .ok after

namespace Executed

variable {base} {j : ComputeInstr}

def left (e : Executed base j) : R128 :=
  e.before.regs.r (ra e.word)

def right (e : Executed base j) : R128 :=
  e.before.regs.r (rb e.word)

/- The target before and after. -/
def old (e : Executed base j) : R128 :=
  e.before.regs.r (rt e.word)

def result (e : Executed base j) : R128 :=
  e.after.regs.r (rt e.word)

theorem after_eq
    (e : Executed base j)
    {f : RegisterFile → RegisterFile}
    (hBody : emulateCompute j e.word = some f) :
    e.after.regs.r = f e.before.regs.r := by
  have hRun := e.hRun
  rw [SPUDasm, e.hDecode] at hRun
  have hStep :=
    emulateInstr_compute base hBody (e.cia.setWidth 64)
      e.before
  exact
    congrArg (fun t => t.regs.r)
      (Except.ok.inj (hRun.symm.trans hStep))

/- The lanes of the target. -/
theorem result_of_sets
    (e : Executed base j)
    {f : RegisterFile → RegisterFile}
    {lanes : Nat → BitVec 32}
    (hBody : emulateCompute j e.word = some f)
    (hSets :
      Sets (rt e.word) (words lanes) e.before.regs.r
        (f e.before.regs.r))
    {n : Nat}
    (hN : n < 4) :
    Ppu.word e.result n = lanes n := by
  rw [result, e.after_eq hBody]
  exact word_of_sets hSets hN

end Executed

/- The two instructions for one word of a number. -/
structure Stage (j k : ComputeInstr) where
  add : Executed base j
  carry : Executed base k
  left : add.left = carry.left
  right : add.right = carry.right

/-
  In a lane, both instructions for a word find the carry of
  the word below in their old target.
-/
def Chained
    {base : Env (FlatMemory 18)}
    {op : Operation}
    (first : Stage base op.first op.firstCarry)
    (rest : List (Stage base op.next op.nextCarry))
    (n : Nat) : Prop :=
  Linked (fun s => carryBit s.add.old n)
      (fun s => carryBit s.carry.result n)
      (carryBit first.carry.result n) rest ∧
    Linked (fun s => carryBit s.carry.old n)
      (fun s => carryBit s.carry.result n)
      (carryBit first.carry.result n) rest

section Numbers

variable {base} {op : Operation}
  (first : Stage base op.first op.firstCarry)
  (rest : List (Stage base op.next op.nextCarry))
  (n : Nat)

/- The numbers in a lane, their lowest word first. -/
def leftNumber : List (BitVec 32) :=
  word first.add.left n ::
    rest.map (fun s => word s.add.left n)

def rightNumber : List (BitVec 32) :=
  word first.add.right n ::
    rest.map (fun s => word s.add.right n)

def resultNumber : List (BitVec 32) :=
  word first.add.result n ::
    rest.map (fun s => word s.add.result n)

/- The carry that the last word leaves. -/
def carryWord : BitVec 32 :=
  match rest.getLast? with
  | some s => word s.carry.result n
  | none => word first.carry.result n

end Numbers

/-
  The sum of numbers of `k` words, and whether it carries, or
  the difference, and whether it does not borrow.
-/
def Operation.Exact
    (op : Operation)
    (k left right result : Nat)
    (carry : BitVec 32) : Prop :=
  match op with
  | sum =>
      result = (left + right) % 2 ^ (32 * k) ∧
        carry =
          boolWord (decide (2 ^ (32 * k) ≤ left + right))
  | difference =>
      (result : Int) =
          ((right : Int) - left) % 2 ^ (32 * k) ∧
        carry = boolWord (decide (left ≤ right))

------------------------------------------------------------
-- Carries of Words
------------------------------------------------------------

@[simp] theorem toNat_boolWord (c : Bool) :
    (boolWord c).toNat = c.toNat := by
  cases c <;> rfl

@[simp] theorem getLsbD_boolWord (c : Bool) :
    (boolWord c).getLsbD 0 = c := by
  cases c <;> rfl

theorem and_one_eq (v : BitVec 32) :
    v &&& 1#32 = boolWord (v.getLsbD 0) :=
  BitVec.and_one_eq_setWidth_ofBool_getLsbD

/- The sign bit of a comparison, moved to the other end. -/
theorem ones_shift (c : Bool) :
    (if c then BitVec.allOnes 32 else 0#32) >>> 31 =
      boolWord c := by
  cases c <;> decide

/- A sum of words is smaller than a summand if it carries. -/
theorem ult_add_eq (a b : BitVec 32) :
    (a + b).ult a = decide (2 ^ 32 ≤ a.toNat + b.toNat) := by
  have hA := a.isLt
  have hB := b.isLt
  rw [BitVec.ult, BitVec.toNat_add]
  apply decide_eq_decide.mpr
  omega

/- The carry out of a sum of three. -/
def carries (a b : BitVec 32) (c : Bool) : Bool :=
  decide (2 ^ 32 ≤ a.toNat + b.toNat + c.toNat)

theorem add_eq_carries
    (a b : BitVec 32)
    (c : Bool) :
    a.toNat + b.toNat + c.toNat =
      (a + b + boolWord c).toNat +
        2 ^ 32 * (carries a b c).toNat := by
  have hA := a.isLt
  have hB := b.isLt
  have hC := Bool.toNat_lt c
  refine
    (eq_add_carry_iff (carries a b c)
      (a + b + boolWord c).isLt (by omega)).mpr ⟨?_, ?_⟩
  · rw [BitVec.toNat_add, BitVec.toNat_add, toNat_boolWord,
      Nat.mod_add_mod]
  · exact decide_eq_true_iff

/- A complement is what is left of all ones. -/
theorem carries_not
    (a b : BitVec 32)
    (c : Bool) :
    carries (~~~a) b c =
      if c then a.ule b else a.ult b := by
  have hA := a.isLt
  have hB := b.isLt
  unfold carries
  rw [BitVec.toNat_not]
  cases c with
  | false =>
      simp only [Bool.false_eq_true, if_false, Bool.toNat_false,
        BitVec.ult]
      apply decide_eq_decide.mpr
      omega
  | true =>
      simp only [if_true, Bool.toNat_true, BitVec.ule]
      apply decide_eq_decide.mpr
      omega

/- The carry is bit 32 of a sum of doublewords. -/
theorem carry_of_wide_sum
    (a b : BitVec 32)
    (c : Bool) :
    (((b.setWidth 64 + a.setWidth 64 +
          (boolWord c).signExtend 64) >>> 32) &&&
        1#64).setWidth 32 =
      boolWord (carries a b c) := by
  have hA := a.isLt
  have hB := b.isLt
  have hC := Bool.toNat_lt c
  have hBit :
      (boolWord c).signExtend 64 =
        (BitVec.ofBool c).setWidth 64 := by
    cases c <;> rfl
  have hSum :
      (b.setWidth 64 + a.setWidth 64 +
          (BitVec.ofBool c).setWidth 64).toNat =
        a.toNat + b.toNat + c.toNat := by
    simp only [BitVec.toNat_add, BitVec.toNat_setWidth,
      BitVec.toNat_ofBool]
    omega
  have hOne : (1#64) = BitVec.ofNat 64 (2 ^ 1 - 1) := rfl
  apply BitVec.eq_of_toNat_eq
  rw [hBit, BitVec.toNat_setWidth, hOne,
    Masks.toNat_and_low _ _ (by decide), BitVec.toNat_ushiftRight,
    hSum, toNat_boolWord, Nat.shiftRight_eq_div_pow, carries]
  by_cases hCarry : 2 ^ 32 ≤ a.toNat + b.toNat + c.toNat
  · simp only [hCarry, decide_true, Bool.toNat_true]
    omega
  · simp only [hCarry, decide_false, Bool.toNat_false]
    omega

------------------------------------------------------------
-- Instructions
------------------------------------------------------------

section Instructions

variable (ra rb rt : BitVec 7) (r : RegisterFile)

theorem sets_a :
    Sets rt
      (words fun n => word (r ra) n + word (r rb) n) r
      (Macro.a ra rb rt r) :=
  sets_setXmm fun _ hN => laneBE_zipLanes 32 4 _ _ _ hN

theorem sets_sf :
    Sets rt
      (words fun n => word (r rb) n - word (r ra) n) r
      (Macro.sf ra rb rt r) :=
  sets_setXmm fun _ hN => laneBE_zipLanes 32 4 _ _ _ hN

theorem word_and_one
    (v : R128)
    {n : Nat}
    (hN : n < 4) :
    word (v &&& set1 32 4 1#32) n =
      boolWord (carryBit v n) := by
  refine (lane_and 32 v (set1 32 4 1#32) _).trans ?_
  rw [lane_set1 32 4 _ (by omega)]
  exact and_one_eq _

theorem sets_addx :
    Sets rt
      (words fun n =>
        word (r ra) n + word (r rb) n +
          boolWord (carryBit (r rt) n))
      r (Macro.addx ra rb rt r) := by
  apply sets_setXmm
  intro n hN
  refine (laneBE_zipLanes 32 4 _ _ _ hN).trans ?_
  rw [add, laneBE_zipLanes 32 4 _ _ _ hN]
  exact congrArg _ (word_and_one (r rt) hN)

/- An unsigned comparison, and its sign bit. -/
theorem word_cmpgtUnsigned
    (a b : R128)
    {n : Nat}
    (hN : n < 4) :
    word
        (Ppu.cmpgtUnsigned 32 4 (BitVec.intMin 32) a b rfl)
        n =
      if (word b n).ult (word a n) then BitVec.allOnes 32
      else 0#32 := by
  refine (Ppu.laneBE_cmpgtUnsigned rfl a b hN).trans ?_
  simp only [BitVec.ult, BitVec.lt_def, decide_eq_true_eq]
  rfl

theorem sets_cg :
    Sets rt
      (words fun n =>
        boolWord (carries (word (r ra) n) (word (r rb) n)
          false))
      r (Macro.cg ra rb rt r) := by
  apply sets_setXmm
  intro n hN
  have hSum :
      word (add 32 4 (r ra) (r rb)) n =
        word (r ra) n + word (r rb) n :=
    laneBE_zipLanes 32 4 _ _ _ hN
  refine (laneBE_mapLanes 32 4 _ _ hN).trans ?_
  refine
    (congrArg (fun v : BitVec 32 => v >>> 31)
      (word_cmpgtUnsigned _ _ hN)).trans ?_
  rw [hSum, ult_add_eq]
  exact ones_shift _

theorem sets_bg :
    Sets rt
      (words fun n =>
        boolWord (carries (~~~word (r ra) n) (word (r rb) n)
          true))
      r (Macro.bg ra rb rt r) := by
  apply sets_setXmm
  intro n hN
  have hNot :
      ∀ c : Bool,
        ~~~(if c then BitVec.allOnes 32 else 0#32) >>> 31 =
          boolWord (!c) := by
    decide
  have hCarry :
      carries (~~~word (r ra) n) (word (r rb) n) true =
        !(word (r rb) n).ult (word (r ra) n) := by
    rw [carries_not, if_pos rfl, BitVec.ule_eq_not_ult]
  refine (laneBE_mapLanes 32 4 _ _ hN).trans ?_
  rw [laneBE, lane_not 32 _ (by omega)]
  refine
    (congrArg (fun v : BitVec 32 => ~~~v >>> 31)
      (word_cmpgtUnsigned _ _ hN)).trans ?_
  rw [hNot, ← hCarry]
  rfl

theorem sets_cgx :
    Sets rt
      (words fun n =>
        boolWord (carries (word (r ra) n) (word (r rb) n)
          (carryBit (r rt) n)))
      r (Macro.cgx ra rb rt r) := by
  apply sets_eachW
  intro n _ r' hSame
  dsimp only
  rw [untouched_word hSame, and_one_eq]
  exact carry_of_wide_sum _ _ _

theorem sets_sfx :
    Sets rt
      (words fun n =>
        ~~~word (r ra) n + word (r rb) n +
          boolWord (carryBit (r rt) n))
      r (Macro.sfx ra rb rt r) := by
  apply sets_eachW
  intro n _ r' hSame
  dsimp only
  rw [untouched_word hSame, and_one_eq,
    BitVec.setWidth_add _ _ (by decide),
    BitVec.setWidth_add _ _ (by decide),
    setWidth_signExtend _ (by decide),
    setWidth_signExtend _ (by decide),
    setWidth_signExtend _ (by decide), BitVec.signExtend_eq,
    BitVec.signExtend_eq, BitVec.signExtend_eq,
    BitVec.add_comm (R128.w _ _)]
  rfl

theorem sets_bgx :
    Sets rt
      (words fun n =>
        boolWord (carries (~~~word (r ra) n) (word (r rb) n)
          (carryBit (r rt) n)))
      r (Macro.bgx ra rb rt r) := by
  apply sets_eachW
  intro n _ r' hSame
  have hIff :
      word (r rt) n &&& 1#32 ≠ 0#32 ↔
        carryBit (r rt) n = true := by
    rw [and_one_eq, carryBit]
    cases (word (r rt) n).getLsbD 0 <;> decide
  dsimp only
  rw [untouched_word hSame, carries_not, if_congr hIff rfl rfl]
  rfl

end Instructions

------------------------------------------------------------
-- Words
------------------------------------------------------------

section Words

variable {base} {op : Operation} {n : Nat}

/- The lowest word takes no carry. -/
theorem first_result
    (e : Executed base op.first)
    (hN : n < 4) :
    word e.result n =
      op.augend (word e.left n) + word e.right n +
        boolWord op.initial := by
  cases op with
  | sum =>
      rw [e.result_of_sets rfl (sets_a _ _ _ _) hN]
      exact (BitVec.add_zero _).symm
  | difference =>
      rw [e.result_of_sets rfl (sets_sf _ _ _ _) hN,
        BitVec.sub_eq_add_neg, BitVec.neg_eq_not_add,
        ← BitVec.add_assoc, BitVec.add_comm (word _ _)]
      rfl

theorem firstCarry_result
    (e : Executed base op.firstCarry)
    (hN : n < 4) :
    word e.result n =
      boolWord
        (carries (op.augend (word e.left n)) (word e.right n)
          op.initial) := by
  cases op with
  | sum => exact e.result_of_sets rfl (sets_cg _ _ _ _) hN
  | difference =>
      exact e.result_of_sets rfl (sets_bg _ _ _ _) hN

/- The other words take that of their old target. -/
theorem next_result
    (e : Executed base op.next)
    (hN : n < 4) :
    word e.result n =
      op.augend (word e.left n) + word e.right n +
        boolWord (carryBit e.old n) := by
  cases op with
  | sum => exact e.result_of_sets rfl (sets_addx _ _ _ _) hN
  | difference =>
      exact e.result_of_sets rfl (sets_sfx _ _ _ _) hN

theorem nextCarry_result
    (e : Executed base op.nextCarry)
    (hN : n < 4) :
    word e.result n =
      boolWord
        (carries (op.augend (word e.left n)) (word e.right n)
          (carryBit e.old n)) := by
  cases op with
  | sum => exact e.result_of_sets rfl (sets_cgx _ _ _ _) hN
  | difference =>
      exact e.result_of_sets rfl (sets_bgx _ _ _ _) hN

end Words

------------------------------------------------------------
-- Numbers
------------------------------------------------------------

/- One word of a lane, with its carries. -/
structure LaneStep where
  augend : BitVec 32
  right : BitVec 32
  result : BitVec 32
  carryIn : Bool
  carryOut : Bool

def LaneStep.Adds (s : LaneStep) : Prop :=
  s.augend.toNat + s.right.toNat + s.carryIn.toNat =
    s.result.toNat + 2 ^ 32 * s.carryOut.toNat

section Numbers

variable {base} {op : Operation}
  (first : Stage base op.first op.firstCarry)
  (rest : List (Stage base op.next op.nextCarry))

def firstStep (n : Nat) : LaneStep where
  augend := op.augend (word first.add.left n)
  right := word first.add.right n
  result := word first.add.result n
  carryIn := op.initial
  carryOut := carryBit first.carry.result n

def nextStep
    (n : Nat)
    (s : Stage base op.next op.nextCarry) : LaneStep where
  augend := op.augend (word s.add.left n)
  right := word s.add.right n
  result := word s.add.result n
  carryIn := carryBit s.add.old n
  carryOut := carryBit s.carry.result n

def steps (n : Nat) : List LaneStep :=
  firstStep first n :: rest.map (nextStep n)

variable {first rest} {n : Nat}

theorem firstStep_adds (hN : n < 4) :
    (firstStep first n).Adds := by
  have hCarry := firstCarry_result first.carry hN
  rw [← first.left, ← first.right] at hCarry
  have hSum :=
    add_eq_carries (op.augend (word first.add.left n))
      (word first.add.right n) op.initial
  rw [← first_result first.add hN,
    ← getLsbD_boolWord (carries _ _ _), ← hCarry] at hSum
  exact hSum

/- Both instructions have found the same carry. -/
theorem nextStep_adds
    {s : Stage base op.next op.nextCarry}
    (hOld : carryBit s.carry.old n = carryBit s.add.old n)
    (hN : n < 4) :
    (nextStep n s).Adds := by
  have hCarry := nextCarry_result s.carry hN
  rw [← s.left, ← s.right, hOld] at hCarry
  have hSum :=
    add_eq_carries (op.augend (word s.add.left n))
      (word s.add.right n) (carryBit s.add.old n)
  rw [← next_result s.add hN,
    ← getLsbD_boolWord (carries _ _ _), ← hCarry] at hSum
  exact hSum

theorem linked_nextSteps
    {c : Bool}
    (hLinked :
      Linked
        (fun s : Stage base op.next op.nextCarry =>
          carryBit s.add.old n)
        (fun s => carryBit s.carry.result n) c rest) :
    Linked LaneStep.carryIn LaneStep.carryOut c
      (rest.map (nextStep n)) := by
  induction rest generalizing c with
  | nil => trivial
  | cons s rest hRest =>
      exact ⟨hLinked.1, hRest hLinked.2⟩

theorem nextSteps_add
    {c : Bool}
    (hN : n < 4)
    (hAdd :
      Linked
        (fun s : Stage base op.next op.nextCarry =>
          carryBit s.add.old n)
        (fun s => carryBit s.carry.result n) c rest)
    (hCarry :
      Linked
        (fun s : Stage base op.next op.nextCarry =>
          carryBit s.carry.old n)
        (fun s => carryBit s.carry.result n) c rest) :
    ∀ s ∈ rest.map (nextStep n), s.Adds := by
  induction rest generalizing c with
  | nil => simp
  | cons s rest hRest =>
      rw [List.map_cons, List.forall_mem_cons]
      refine ⟨?_, hRest hAdd.2 hCarry.2⟩
      exact nextStep_adds (hCarry.1.trans hAdd.1.symm) hN

/- A word that is a carry has nothing but its last bit. -/
theorem word_eq_carryBit
    {v : R128}
    {c : Bool}
    (hWord : word v n = boolWord c) :
    word v n = boolWord (carryBit v n) := by
  rw [carryBit, hWord, getLsbD_boolWord]

theorem finalCarry_nextSteps
    (c : Bool)
    (rest : List (Stage base op.next op.nextCarry)) :
    finalCarry LaneStep.carryOut c (rest.map (nextStep n)) =
      match rest.getLast? with
      | some s => carryBit s.carry.result n
      | none => c := by
  induction rest generalizing c with
  | nil => rfl
  | cons s rest hRest =>
      rw [List.map_cons, finalCarry, hRest,
        List.getLast?_cons]
      cases rest.getLast? <;> rfl

/- The carry that the last word leaves, as a word. -/
theorem carryWord_eq (hN : n < 4) :
    carryWord first rest n =
      boolWord
        (finalCarry LaneStep.carryOut op.initial
          (steps first rest n)) := by
  rw [steps, finalCarry, finalCarry_nextSteps, carryWord]
  cases rest.getLast? with
  | none =>
      exact
        word_eq_carryBit (firstCarry_result first.carry hN)
  | some s =>
      exact word_eq_carryBit (nextCarry_result s.carry hN)

/- Every word adds exactly, and so does the chain. -/
theorem chain_value
    (hChained : Chained first rest n)
    (hN : n < 4) :
    value ((steps first rest n).map LaneStep.augend) +
          value (rightNumber first rest n) +
        op.initial.toNat =
      value (resultNumber first rest n) +
        2 ^ (32 * (rest.length + 1)) *
          (finalCarry LaneStep.carryOut op.initial
            (steps first rest n)).toNat := by
  have hAdds : ∀ s ∈ steps first rest n, s.Adds := by
    rw [steps, List.forall_mem_cons]
    exact
      ⟨firstStep_adds hN,
        nextSteps_add hN hChained.1 hChained.2⟩
  have hLinked :
      Linked LaneStep.carryIn LaneStep.carryOut op.initial
        (steps first rest n) :=
    ⟨rfl, linked_nextSteps hChained.1⟩
  have hValue := linked_value _ LaneStep.result hAdds hLinked
  have hRight :
      (steps first rest n).map LaneStep.right =
        rightNumber first rest n := by
    rw [steps, List.map_cons, List.map_map]
    rfl
  have hResult :
      (steps first rest n).map LaneStep.result =
        resultNumber first rest n := by
    rw [steps, List.map_cons, List.map_map]
    rfl
  have hLength : (steps first rest n).length =
      rest.length + 1 := by
    rw [steps, List.length_cons, List.length_map]
  rwa [ofDigits_add, hRight, hResult, hLength, ← Nat.pow_mul]
    at hValue

theorem steps_augend :
    (steps first rest n).map LaneStep.augend =
      (leftNumber first rest n).map op.augend := by
  rw [steps, leftNumber, List.map_cons, List.map_cons,
    List.map_map, List.map_map]
  rfl

end Numbers

/- What the value of a chain says of a sum. -/
theorem sum_exact
    {k left right result : Nat}
    {c : Bool}
    (hLeft : left < 2 ^ (32 * k))
    (hRight : right < 2 ^ (32 * k))
    (hResult : result < 2 ^ (32 * k))
    (hValue :
      left + right + 0 = result + 2 ^ (32 * k) * c.toNat) :
    Operation.sum.Exact k left right result (boolWord c) := by
  have hSplit :=
    (eq_add_carry_iff c hResult (by omega)).mp hValue
  refine ⟨hSplit.1, congrArg boolWord ?_⟩
  rw [Bool.eq_iff_iff, decide_eq_true_iff]
  exact hSplit.2

/- And of a difference, with the complement of one number. -/
theorem difference_exact
    {k left right result complement : Nat}
    {c : Bool}
    (hLeft : left < 2 ^ (32 * k))
    (hRight : right < 2 ^ (32 * k))
    (hResult : result < 2 ^ (32 * k))
    (hNot : complement + left + 1 = 2 ^ (32 * k))
    (hValue :
      complement + right + 1 =
        result + 2 ^ (32 * k) * c.toNat) :
    Operation.difference.Exact k left right result
      (boolWord c) := by
  have hTotal :
      right + 2 ^ (32 * k) - left =
        result + 2 ^ (32 * k) * c.toNat := by
    omega
  have hSplit :=
    (eq_add_carry_iff c hResult (by omega)).mp hTotal
  constructor
  · have hCast :
        ((right + 2 ^ (32 * k) - left : Nat) : Int) =
          (right : Int) - left + (2 ^ (32 * k) : Nat) := by
      omega
    rw [hSplit.1, Int.natCast_emod, hCast,
      Int.add_emod_right]
    rw [Int.natCast_pow]
    rfl
  · refine congrArg boolWord ?_
    rw [Bool.eq_iff_iff, decide_eq_true_iff, hSplit.2]
    omega

/-
  In every lane, a chain computes the number of several
  words, and its last carry.
-/
theorem chain_exact
    {op : Operation}
    (first : Stage base op.first op.firstCarry)
    (rest : List (Stage base op.next op.nextCarry))
    {n : Nat}
    (hN : n < 4)
    (hChained : Chained first rest n) :
    op.Exact (rest.length + 1)
      (value (leftNumber first rest n))
      (value (rightNumber first rest n))
      (value (resultNumber first rest n))
      (carryWord first rest n) := by
  have hValue := chain_value hChained hN
  have hLeft := value_lt (leftNumber first rest n)
  have hRight := value_lt (rightNumber first rest n)
  have hResult := value_lt (resultNumber first rest n)
  have hLength :
      (leftNumber first rest n).length = rest.length + 1 ∧
        (rightNumber first rest n).length =
          rest.length + 1 ∧
        (resultNumber first rest n).length =
          rest.length + 1 := by
    simp [leftNumber, rightNumber, resultNumber]
  rw [hLength.1, ← Nat.pow_mul] at hLeft
  rw [hLength.2.1, ← Nat.pow_mul] at hRight
  rw [hLength.2.2, ← Nat.pow_mul] at hResult
  rw [steps_augend] at hValue
  rw [carryWord_eq hN]
  cases op with
  | sum =>
      have hSame :
          (leftNumber first rest n).map
              Operation.sum.augend =
            leftNumber first rest n :=
        List.map_id _
      rw [hSame] at hValue
      exact sum_exact hLeft hRight hResult hValue
  | difference =>
      have hNot := value_not (leftNumber first rest n)
      rw [hLength.1, ← Nat.pow_mul] at hNot
      exact
        difference_exact hLeft hRight hResult hNot hValue

/- An execution on given registers. -/
def executedOn
    {j : ComputeInstr}
    {x : BitVec 32}
    {f : RegisterFile → RegisterFile}
    (hDecode : decode x = some (.compute j))
    (hBody : emulateCompute j x = some f)
    (r : RegisterFile) : Executed bareEnv j where
  word := x
  cia := 0#32
  before := threadOf r
  after := threadOf (f r)
  hDecode := hDecode
  hRun := by
    rw [SPUDasm, hDecode]
    exact emulateInstr_compute bareEnv hBody _ _

/- All ones, but for a target with carries. -/
def onesFile : RegisterFile := fun i =>
  if i = 2#7 then set1 32 4 1#32 else BitVec.allOnes 128

/- `a $2, $0, $1` and `cg $2, $0, $1`. -/
def lowStage :
    Stage bareEnv Operation.sum.first
      Operation.sum.firstCarry where
  add :=
    @executedOn .a 0x18004002#32 _ (by decide) rfl onesFile
  carry :=
    @executedOn .cg 0x18404002#32 _ (by decide) rfl onesFile
  left :=
    congrArg onesFile
      (show ra 0x18004002#32 = ra 0x18404002#32 by decide)
  right :=
    congrArg onesFile
      (show rb 0x18004002#32 = rb 0x18404002#32 by decide)

/- `addx $2, $0, $1` and `cgx $2, $0, $1`. -/
def highStage :
    Stage bareEnv Operation.sum.next
      Operation.sum.nextCarry where
  add :=
    @executedOn .addx 0x68004002#32 _ (by decide) rfl onesFile
  carry :=
    @executedOn .cgx 0x68404002#32 _ (by decide) rfl onesFile
  left :=
    congrArg onesFile
      (show ra 0x68004002#32 = ra 0x68404002#32 by decide)
  right :=
    congrArg onesFile
      (show rb 0x68004002#32 = rb 0x68404002#32 by decide)

/- The sum of two numbers that are all ones. -/
theorem chain_exact_ones :
    Operation.sum.Exact 2
      (value (leftNumber lowStage [highStage] 0))
      (value (rightNumber lowStage [highStage] 0))
      (value (resultNumber lowStage [highStage] 0))
      (carryWord lowStage [highStage] 0) :=
  @chain_exact bareEnv .sum lowStage [highStage] 0 (by decide)
    ⟨⟨by decide, trivial⟩, ⟨by decide, trivial⟩⟩

end Spu

end Ps3emu
