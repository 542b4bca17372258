import Mathlib.Tactic.LinearCombination
import Ps3emu.Spu.Storage

/-
  The products of halfwords, and the product of two words
  that is made from them.

  Key definitions include:
    * `highHalf`, `lowHalf`
    * `multiplied`
    * `WordProduct`

  Key theorems include:
    * `multiply_sets`
    * `product_of_words`
    * `multiply_exact`
-/

------------------------------------------------------------
-- The Architecture
------------------------------------------------------------

namespace Ps3emu

namespace Spu

open Lanes Sse
open Ppu (LaneSpec words word halfword)

/- The halfwords of word `n`. -/
def highHalf (v : R128) (n : Nat) : BitVec 16 :=
  halfword v (2 * n)

def lowHalf (v : R128) (n : Nat) : BitVec 16 :=
  halfword v (2 * n + 1)

/- Both products fit into 32 bits. -/
def signedProduct (a b : BitVec 16) : BitVec 32 :=
  BitVec.ofInt 32 (a.toInt * b.toInt)

def unsignedProduct (a b : BitVec 16) : BitVec 32 :=
  BitVec.ofNat 32 (a.toNat * b.toNat)

/-
  The words that an instruction computes from the registers
  before it.
-/
def multiplied
    (j : ComputeInstr)
    (x : BitVec 32)
    (r : RegisterFile) : Option LaneSpec :=
  let a := r (ra x)
  let b := r (rb x)
  let imm := (i10 x).signExtend 16
  match j with
  | .mpy =>
      some (words fun n =>
        signedProduct (lowHalf a n) (lowHalf b n))
  | .mpyu =>
      some (words fun n =>
        unsignedProduct (lowHalf a n) (lowHalf b n))
  | .mpyi =>
      some (words fun n => signedProduct (lowHalf a n) imm)
  | .mpyui =>
      some (words fun n => unsignedProduct (lowHalf a n) imm)
  | .mpya =>
      some (words fun n =>
        signedProduct (lowHalf a n) (lowHalf b n) +
          word (r (rc x)) n)
  | .mpyh =>
      some (words fun n =>
        signedProduct (highHalf a n) (lowHalf b n) <<< 16)
  | .mpys =>
      some (words fun n =>
        BitVec.ofInt 32
          ((lowHalf a n).toInt * (lowHalf b n).toInt /
            2 ^ 16))
  | .mpyhh =>
      some (words fun n =>
        signedProduct (highHalf a n) (highHalf b n))
  | .mpyhha =>
      some (words fun n =>
        word (r (rt x)) n +
          signedProduct (highHalf a n) (highHalf b n))
  | .mpyhhu =>
      some (words fun n =>
        unsignedProduct (highHalf a n) (highHalf b n))
  | .mpyhhau =>
      some (words fun n =>
        word (r (rt x)) n +
          unsignedProduct (highHalf a n) (highHalf b n))
  | _ => none

/- One instruction has four operands. -/
def productTarget
    (j : ComputeInstr)
    (x : BitVec 32) : BitVec 7 :=
  match j with
  | .mpya => rtAbc x
  | _ => rt x

/-
  The results of three instructions on two registers add up
  to the product of the words, whatever their targets are.
-/
def WordProduct
    (ra rb : BitVec 7)
    (r : RegisterFile) : Prop :=
  ∀ t₁ t₂ t₃, ∀ n < 4,
    word (Macro.mpyh ra rb t₁ r t₁) n +
          word (Macro.mpyh rb ra t₂ r t₂) n +
        word (Macro.mpyu ra rb t₃ r t₃) n =
      word (r ra) n * word (r rb) n

------------------------------------------------------------
-- Halfwords and Products
------------------------------------------------------------

section Halves

variable (v : R128) {n : Nat} (hN : n < 4)
include hN

theorem lowHalf_eq :
    lowHalf v n = (word v n).setWidth 16 := by
  have hLane := @lane_lane 128 16 2 v (4 - 1 - n) 0 (by decide)
  have hIndex : 2 * (4 - 1 - n) + 0 = 8 - 1 - (2 * n + 1) := by
    omega
  rw [hIndex] at hLane
  refine hLane.symm.trans ?_
  exact (BitVec.setWidth_eq_extractLsb' (by decide)).symm

theorem highHalf_eq :
    highHalf v n = (word v n >>> 16).setWidth 16 := by
  have hLane := @lane_lane 128 16 2 v (4 - 1 - n) 1 (by decide)
  have hIndex : 2 * (4 - 1 - n) + 1 = 8 - 1 - 2 * n := by omega
  rw [hIndex] at hLane
  exact hLane.symm

end Halves

/- The upper halfword, extended either way. -/
theorem sshiftRight_half (w : BitVec 32) :
    w.sshiftRight 16 =
      ((w >>> 16).setWidth 16).signExtend 32 := by
  apply BitVec.eq_of_getLsbD_eq
  intro j hJ
  rw [BitVec.getLsbD_sshiftRight, BitVec.getLsbD_signExtend,
    BitVec.msb_eq_getLsbD_last, BitVec.msb_eq_getLsbD_last,
    BitVec.getLsbD_setWidth, BitVec.getLsbD_setWidth,
    BitVec.getLsbD_ushiftRight, BitVec.getLsbD_ushiftRight]
  by_cases hLow : j < 16
  · have hIn : 16 + j < 32 := by omega
    simp [hLow, hIn, hJ]
  · have hNot : ¬ 16 + j < 32 := by omega
    simp [hLow, hNot, hJ]

theorem ushiftRight_half (w : BitVec 32) :
    w >>> 16 = ((w >>> 16).setWidth 16).setWidth 32 := by
  have hW := w.isLt
  apply BitVec.eq_of_toNat_eq
  rw [BitVec.toNat_setWidth, BitVec.toNat_setWidth,
    BitVec.toNat_ushiftRight, Nat.shiftRight_eq_div_pow]
  omega

theorem and_half (w : BitVec 32) :
    w &&& 0xffff#32 = (w.setWidth 16).setWidth 32 := by
  have hW := w.isLt
  have hMask := @Masks.toNat_and_low 32 w 16 (by decide)
  apply BitVec.eq_of_toNat_eq
  rw [BitVec.toNat_setWidth, BitVec.toNat_setWidth]
  refine hMask.trans ?_
  omega

theorem mul_signExtend (a b : BitVec 16) :
    a.signExtend 32 * b.signExtend 32 = signedProduct a b :=
  (BitVec.ofInt_mul _ _).symm

theorem mul_setWidth (a b : BitVec 16) :
    a.setWidth 32 * b.setWidth 32 = unsignedProduct a b := by
  rw [unsignedProduct, BitVec.ofNat_mul, BitVec.ofNat_toNat,
    BitVec.ofNat_toNat]

theorem sshiftRight_signedProduct (a b : BitVec 16) :
    (signedProduct a b).sshiftRight 16 =
      BitVec.ofInt 32 (a.toInt * b.toInt / 2 ^ 16) := by
  have hBounds := product_bounds a b
  exact
    sshiftRight_ofInt (by decide) (by omega) (by omega) 16

theorem signExtend_imm (imm : BitVec 10) :
    (imm.signExtend 16).signExtend 32 = imm.signExtend 32 :=
  congrArg (BitVec.ofInt 32)
    (BitVec.toInt_signExtend_of_le (by decide))

/- Two extensions differ by a multiple of the base. -/
theorem signExtend_eq_add (x : BitVec 16) :
    ∃ k, x.signExtend 32 = x.setWidth 32 + 65536#32 * k := by
  refine ⟨if x.msb then 65535#32 else 0#32, ?_⟩
  apply BitVec.eq_of_toNat_eq
  have hX := x.isLt
  rw [BitVec.toNat_signExtend, BitVec.toNat_add,
    BitVec.toNat_setWidth]
  cases x.msb
  · simp
  · simp
    omega

theorem word_eq_halves (w : BitVec 32) :
    w =
      65536#32 * ((w >>> 16).setWidth 16).setWidth 32 +
        (w.setWidth 16).setWidth 32 := by
  have hW := w.isLt
  apply BitVec.eq_of_toNat_eq
  rw [← ushiftRight_half, BitVec.toNat_add, BitVec.toNat_mul,
    BitVec.toNat_ushiftRight, Nat.shiftRight_eq_div_pow,
    BitVec.toNat_setWidth, BitVec.toNat_setWidth,
    BitVec.toNat_ofNat]
  omega

/-
  What the signs of the halfwords add is a multiple of the
  square of the base.
-/
theorem product_of_words (a b : BitVec 32) :
    signedProduct ((a >>> 16).setWidth 16) (b.setWidth 16)
            <<< 16 +
          signedProduct ((b >>> 16).setWidth 16)
              (a.setWidth 16) <<< 16 +
        unsignedProduct (a.setWidth 16) (b.setWidth 16) =
      a * b := by
  have hBase : (65536#32 * 65536#32 : BitVec 32) = 0 := by
    decide
  have hShift :
      ∀ v : BitVec 32, v <<< 16 = 65536#32 * v := by
    intro v
    rw [BitVec.shiftLeft_eq_mul_twoPow, BitVec.mul_comm]
    rfl
  rcases signExtend_eq_add ((a >>> 16).setWidth 16) with
    ⟨ha, hHighA⟩
  rcases signExtend_eq_add ((b >>> 16).setWidth 16) with
    ⟨hb, hHighB⟩
  rcases signExtend_eq_add (a.setWidth 16) with ⟨la, hLowA⟩
  rcases signExtend_eq_add (b.setWidth 16) with ⟨lb, hLowB⟩
  have hA := word_eq_halves a
  have hB := word_eq_halves b
  rw [← mul_signExtend, ← mul_signExtend, ← mul_setWidth,
    hShift, hShift, hHighA, hHighB, hLowA, hLowB]
  generalize ((a >>> 16).setWidth 16).setWidth 32 = Ha at *
  generalize ((b >>> 16).setWidth 16).setWidth 32 = Hb at *
  generalize (a.setWidth 16).setWidth 32 = La at *
  generalize (b.setWidth 16).setWidth 32 = Lb at *
  rw [hA, hB]
  generalize 65536#32 = p at *
  linear_combination
    (Ha * lb + ha * Lb + p * ha * lb + Hb * la + hb * La +
      p * hb * la - Ha * Hb) * hBase

------------------------------------------------------------
-- Instructions
------------------------------------------------------------

section Operands

variable (v : R128) {n : Nat} (hN : n < 4)
include hN

theorem word_low_shifts :
    word (srai 32 4 16 (slli 32 4 16 v)) n =
      (lowHalf v n).signExtend 32 := by
  refine (laneBE_mapLanes 32 4 _ _ hN).trans ?_
  rw [slli, laneBE_mapLanes 32 4 _ _ hN, signExtend_low_half,
    lowHalf_eq v hN]
  rfl

theorem word_high_shift :
    word (srai 32 4 16 v) n = (highHalf v n).signExtend 32 := by
  refine (laneBE_mapLanes 32 4 _ _ hN).trans ?_
  rw [sshiftRight_half, highHalf_eq v hN]
  rfl

theorem word_low_mask :
    word (v &&& set1 32 4 0xffff#32) n =
      (lowHalf v n).setWidth 32 := by
  refine (lane_and 32 v (set1 32 4 0xffff#32) _).trans ?_
  rw [lane_set1 32 4 _ (by omega), and_half, lowHalf_eq v hN]
  rfl

theorem low_word :
    Macro.low (v.w n) = (lowHalf v n).signExtend 32 := by
  rw [lowHalf_eq v hN]
  rfl

theorem high_word :
    Macro.high (v.w n) = (highHalf v n).signExtend 32 := by
  rw [Macro.high, sshiftRight_half,
    setWidth_signExtend _ (by decide), BitVec.signExtend_eq,
    highHalf_eq v hN]
  rfl

theorem ushiftRight_word :
    v.w n >>> 16 = (highHalf v n).setWidth 32 := by
  rw [ushiftRight_half, highHalf_eq v hN]
  rfl

end Operands

section Instructions

variable {rt : BitVec 7} {r : RegisterFile}

/- The low halves of the products of words. -/
theorem sets_mullo
    {a b : R128}
    {f : Nat → BitVec 32}
    (hWord : ∀ n < 4, word a n * word b n = f n) :
    Sets rt (words f) r (r.setXmm rt (mullo 32 4 a b)) := by
  apply sets_setXmm
  intro n hN
  exact (laneBE_zipLanes 32 4 _ _ _ hN).trans (hWord n hN)

theorem sets_mpyh (ra rb : BitVec 7) :
    Sets rt
      (words fun n =>
        signedProduct (highHalf (r ra) n) (lowHalf (r rb) n)
          <<< 16)
      r (Macro.mpyh ra rb rt r) := by
  apply sets_setXmm
  intro n hN
  refine (laneBE_mapLanes 32 4 _ _ hN).trans ?_
  rw [mullo, laneBE_zipLanes 32 4 _ _ _ hN]
  refine congrArg (fun v : BitVec 32 => v <<< 16) ?_
  refine
    (congrArg₂ (fun a b : BitVec 32 => a * b)
      (word_high_shift _ hN) (word_low_shifts _ hN)).trans ?_
  exact mul_signExtend _ _

theorem sets_mpyu (ra rb : BitVec 7) :
    Sets rt
      (words fun n =>
        unsignedProduct (lowHalf (r ra) n) (lowHalf (r rb) n))
      r (Macro.mpyu ra rb rt r) := by
  apply sets_mullo
  intro n hN
  rw [word_low_mask _ hN, word_low_mask _ hN, mul_setWidth]

end Instructions

/- A product of halfwords, whatever the target is. -/
theorem multiply_sets
    {j : ComputeInstr}
    {x : BitVec 32}
    {r : RegisterFile}
    {s : LaneSpec}
    (hProduct : multiplied j x r = some s) :
    ∃ f,
      emulateCompute j x = some f ∧
        Sets (productTarget j x) s r (f r) := by
  cases j with
  | mpy =>
      cases hProduct
      refine ⟨_, rfl, sets_mullo ?_⟩
      intro n hN
      rw [word_low_shifts _ hN, word_low_shifts _ hN,
        mul_signExtend]
  | mpyu =>
      cases hProduct
      exact ⟨_, rfl, sets_mpyu _ _⟩
  | mpyi =>
      cases hProduct
      refine ⟨_, rfl, sets_mullo ?_⟩
      intro n hN
      have hImm :
          word (set1 32 4 ((i10 x).signExtend 32)) n =
            ((i10 x).signExtend 16).signExtend 32 := by
        rw [signExtend_imm]
        exact laneBE_set1 32 4 _ hN
      rw [word_low_shifts _ hN, hImm, mul_signExtend]
  | mpyui =>
      cases hProduct
      refine ⟨_, rfl, sets_mullo ?_⟩
      intro n hN
      have hImm :
          word
              (set1 32 4
                ((i10 x).signExtend 32 &&& 0xffff#32)) n =
            ((i10 x).signExtend 16).setWidth 32 := by
        refine (laneBE_set1 32 4 _ hN).trans ?_
        rw [and_half, setWidth_signExtend _ (by decide)]
      rw [word_low_mask _ hN, hImm, mul_setWidth]
  | mpya =>
      cases hProduct
      refine ⟨_, rfl, sets_eachW ?_⟩
      intro n hN r' hSame
      rw [low_word _ hN, low_word _ hN, mul_signExtend,
        untouched_word hSame]
  | mpyh =>
      cases hProduct
      exact ⟨_, rfl, sets_mpyh _ _⟩
  | mpys =>
      cases hProduct
      refine ⟨_, rfl, sets_eachW ?_⟩
      intro n hN r' _
      rw [low_word _ hN, low_word _ hN, mul_signExtend,
        sshiftRight_signedProduct]
  | mpyhh =>
      cases hProduct
      refine ⟨_, rfl, sets_eachW ?_⟩
      intro n hN r' _
      rw [high_word _ hN, high_word _ hN, mul_signExtend]
  | mpyhha =>
      cases hProduct
      refine ⟨_, rfl, sets_eachW ?_⟩
      intro n hN r' hSame
      rw [untouched_word hSame, high_word _ hN, high_word _ hN,
        mul_signExtend]
  | mpyhhu =>
      cases hProduct
      refine ⟨_, rfl, sets_eachW ?_⟩
      intro n hN r' _
      rw [ushiftRight_word _ hN, ushiftRight_word _ hN,
        mul_setWidth]
  | mpyhhau =>
      cases hProduct
      refine ⟨_, rfl, sets_eachW ?_⟩
      intro n hN r' hSame
      rw [untouched_word hSame, ushiftRight_word _ hN,
        ushiftRight_word _ hN, mul_setWidth]
  | _ => cases hProduct

theorem wordProduct
    (ra rb : BitVec 7)
    (r : RegisterFile) :
    WordProduct ra rb r := by
  intro t₁ t₂ t₃ n hN
  rw [word_of_sets (sets_mpyh ra rb) hN,
    word_of_sets (sets_mpyh rb ra) hN,
    word_of_sets (sets_mpyu ra rb) hN,
    highHalf_eq _ hN, highHalf_eq _ hN, lowHalf_eq _ hN,
    lowHalf_eq _ hN]
  exact product_of_words _ _

/-
  Every instruction is exact, and three of them make the
  product of two words.
-/
theorem multiply_exact (base : Env (FlatMemory 18)) :
    (∀ (j : ComputeInstr) (x : BitVec 32) (cia : BitVec 64)
        (t : Thread (FlatMemory 18)),
        Yields (multiplied j x t.regs.r) (productTarget j x) t
          (emulateInstr (spuEnv base) (.compute j) x cia
            t)) ∧
      ∀ (ra rb : BitVec 7) (r : RegisterFile),
        WordProduct ra rb r := by
  refine ⟨?_, wordProduct⟩
  intro j x cia t s hProduct
  rcases multiply_sets hProduct with ⟨f, hBody, hSets⟩
  exact ⟨_, emulateInstr_compute base hBody cia t, hSets⟩

end Spu

end Ps3emu
