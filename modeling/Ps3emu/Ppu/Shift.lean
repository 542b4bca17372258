import Ps3emu.Ppu.Rotate

/-
  The shift instructions, against the shifts of the
  instruction set, and the carry of the algebraic ones.

  Key definitions include:
    * `shiftResult`
    * `LostOnes`

  Key theorems include:
    * `shift_doubleword`, `shift_word`
    * `emulate_shift`
-/

------------------------------------------------------------
-- Bits of Rotated Values
------------------------------------------------------------

namespace Ps3emu

namespace Ppu

variable {R : Type}

theorem ne_zero_iff
    {w : Nat}
    (value : BitVec w) :
    value ≠ 0#w ↔ ∃ j < w, value.getLsbD j = true := by
  constructor
  · intro hNe
    by_contra hNone
    apply hNe
    apply BitVec.eq_of_getLsbD_eq
    intro j hJ
    cases hBit : value.getLsbD j with
    | false => simp
    | true => exact absurd ⟨j, hJ, hBit⟩ hNone
  · rintro ⟨j, -, hBit⟩ hZero
    rw [hZero] at hBit
    simp at hBit

variable {n j : Nat}

/- A rotation to the right by less than the width. -/
theorem getLsbD_rotate_64
    (value : BitVec 64)
    (hN : n < 64)
    (hJ : j < 64) :
    (value.rotateLeft (64 - n)).getLsbD j =
      if j + n < 64 then value.getLsbD (j + n)
      else value.getLsbD (j + n - 64) := by
  rw [BitVec.getLsbD_rotateLeft]
  by_cases hZero : n = 0
  · subst hZero
    simp [hJ]
  · have hMod : (64 - n) % 64 = 64 - n := by omega
    rw [hMod]
    by_cases hLt : j + n < 64
    · have hIn : j < 64 - n := by omega
      have hPos : 64 - (64 - n) + j = j + n := by omega
      simp [hIn, hLt, hPos]
    · have hOut : ¬ j < 64 - n := by omega
      have hPos : j - (64 - n) = j + n - 64 := by omega
      simp [hOut, hLt, hPos, hJ]

theorem getLsbD_rotate_32
    (value : BitVec 32)
    (hN : n < 32)
    (hJ : j < 32) :
    (value.rotateLeft (64 - n)).getLsbD j =
      if j + n < 32 then value.getLsbD (j + n)
      else value.getLsbD (j + n - 32) := by
  rw [BitVec.getLsbD_rotateLeft]
  by_cases hZero : n = 0
  · subst hZero
    simp [hJ]
  · have hMod : (64 - n) % 32 = 32 - n := by omega
    rw [hMod]
    by_cases hLt : j + n < 32
    · have hIn : j < 32 - n := by omega
      have hPos : 32 - (32 - n) + j = j + n := by omega
      simp [hIn, hLt, hPos]
    · have hOut : ¬ j < 32 - n := by omega
      have hPos : j - (32 - n) = j + n - 32 := by omega
      simp [hOut, hLt, hPos, hJ]

/- The mask of the low bits. -/
theorem getLsbD_mask_low
    (hN : n < 64)
    (j : Nat) :
    (mask 64 n 63).getLsbD j = decide (j + n < 64) := by
  unfold mask
  rw [if_neg (by omega),
    getLsbD_maskRange (Nat.le_refl _) (by decide),
    Bool.eq_iff_iff]
  simp only [decide_eq_true_eq]
  omega

theorem getLsbD_signFill
    (s : Bool)
    (m : BitVec 64)
    (hJ : j < 64) :
    (signFill s m).getLsbD j = (s && !m.getLsbD j) := by
  unfold signFill
  rw [BitVec.getLsbD_and, BitVec.getLsbD_not]
  cases s with
  | false => simp
  | true =>
      rw [if_pos rfl, BitVec.getLsbD_allOnes]
      simp [hJ]

------------------------------------------------------------
-- Algebraic Shifts
------------------------------------------------------------

theorem shift_doubleword
    (source : BitVec 64)
    (hN : n < 64) :
    (source.rotateLeft (64 - n) &&& mask 64 n 63) |||
        signFill source.msb (mask 64 n 63) =
      source.sshiftRight n := by
  apply BitVec.eq_of_getLsbD_eq
  intro j hJ
  rw [BitVec.getLsbD_or, BitVec.getLsbD_and,
    getLsbD_signFill _ _ hJ, getLsbD_mask_low hN,
    getLsbD_rotate_64 source hN hJ,
    BitVec.getLsbD_sshiftRight]
  by_cases hIn : j + n < 64
  · have hComm : n + j < 64 := by omega
    simp [hComm, hJ, Nat.add_comm]
  · have hComm : ¬ n + j < 64 := by omega
    simp [hIn, hComm, hJ]

theorem shift_word
    (source : BitVec 32)
    (hN : n < 32) :
    ((source.rotateLeft (64 - n)).setWidth 64 &&&
          mask 64 (n + 32) 63) |||
        signFill source.msb (mask 64 (n + 32) 63) =
      (source.sshiftRight n).signExtend 64 := by
  apply BitVec.eq_of_getLsbD_eq
  intro j hJ
  rw [BitVec.getLsbD_or, BitVec.getLsbD_and,
    getLsbD_signFill _ _ hJ,
    getLsbD_mask_low (show n + 32 < 64 by omega),
    BitVec.getLsbD_setWidth, BitVec.getLsbD_signExtend,
    BitVec.getLsbD_sshiftRight, BitVec.msb_sshiftRight]
  by_cases hLow : j < 32
  · rw [getLsbD_rotate_32 source hN hLow]
    by_cases hIn : j + n < 32
    · have hMask : j + (n + 32) < 64 := by omega
      have hComm : n + j < 32 := by omega
      simp [hMask, hComm, hJ, hLow, Nat.add_comm]
    · have hMask : ¬ j + (n + 32) < 64 := by omega
      have hComm : ¬ n + j < 32 := by omega
      simp [hMask, hComm, hJ, hLow]
  · have hMask : ¬ j + (n + 32) < 64 := by omega
    simp [hMask, hJ, hLow]

/- A negative value from which a one-bit is shifted out. -/
def LostOnes
    {w : Nat}
    (source : BitVec w)
    (n : Nat) : Prop :=
  source.msb = true ∧ ∃ k < n, source.getLsbD k = true

theorem carry_doubleword
    (source : BitVec 64)
    (hN : n < 64) :
    source.rotateLeft (64 - n) &&& ~~~mask 64 n 63 ≠ 0#64 ↔
      ∃ k < n, source.getLsbD k = true := by
  rw [ne_zero_iff]
  constructor
  · rintro ⟨j, hJ, hBit⟩
    rw [BitVec.getLsbD_and, BitVec.getLsbD_not,
      getLsbD_mask_low hN,
      getLsbD_rotate_64 source hN hJ] at hBit
    by_cases hIn : j + n < 64
    · simp [hIn] at hBit
    · refine ⟨j + n - 64, by omega, ?_⟩
      simpa [hIn, hJ] using hBit
  · rintro ⟨k, hK, hBit⟩
    refine ⟨k + 64 - n, by omega, ?_⟩
    rw [BitVec.getLsbD_and, BitVec.getLsbD_not,
      getLsbD_mask_low hN,
      getLsbD_rotate_64 source hN (by omega)]
    have hIn : ¬ k + 64 - n + n < 64 := by omega
    have hPos : k + 64 - n + n - 64 = k := by omega
    have hLt : k + 64 - n < 64 := by omega
    simp [hIn, hPos, hLt, hBit]

theorem carry_word
    (source : BitVec 32)
    (hN : n < 32) :
    (source.rotateLeft (64 - n)).setWidth 64 &&&
        ~~~mask 64 (n + 32) 63 ≠ 0#64 ↔
      ∃ k < n, source.getLsbD k = true := by
  rw [ne_zero_iff]
  constructor
  · rintro ⟨j, hJ, hBit⟩
    rw [BitVec.getLsbD_and, BitVec.getLsbD_not,
      getLsbD_mask_low (show n + 32 < 64 by omega),
      BitVec.getLsbD_setWidth] at hBit
    by_cases hLow : j < 32
    · rw [getLsbD_rotate_32 source hN hLow] at hBit
      by_cases hIn : j + n < 32
      · have hMask : j + (n + 32) < 64 := by omega
        simp [hMask] at hBit
      · refine ⟨j + n - 32, by omega, ?_⟩
        simp only [if_neg hIn, Bool.and_eq_true] at hBit
        exact hBit.1.2
    · rw [BitVec.getLsbD_of_ge _ _ (by omega)] at hBit
      simp at hBit
  · rintro ⟨k, hK, hBit⟩
    refine ⟨k + 32 - n, by omega, ?_⟩
    rw [BitVec.getLsbD_and, BitVec.getLsbD_not,
      getLsbD_mask_low (show n + 32 < 64 by omega),
      BitVec.getLsbD_setWidth,
      getLsbD_rotate_32 source hN (by omega)]
    have hIn : ¬ k + 32 - n + n < 32 := by omega
    have hMask : ¬ k + 32 - n + (n + 32) < 64 := by omega
    have hPos : k + 32 - n + n - 32 = k := by omega
    have hLt : k + 32 - n < 64 := by omega
    simp [hIn, hMask, hPos, hLt, hBit]

/- A shift by the width or more leaves the sign alone. -/
theorem sshiftRight_of_ge
    {w n : Nat}
    (source : BitVec w)
    (hN : w ≤ n) :
    source.sshiftRight n =
      if source.msb then BitVec.allOnes w else 0#w := by
  apply BitVec.eq_of_getLsbD_eq
  intro j hJ
  rw [BitVec.getLsbD_sshiftRight]
  have hOut : ¬ n + j < w := by omega
  cases source.msb <;> simp [hOut, hJ]

/- A negative value has its own sign to lose. -/
theorem lostOnes_of_ge
    {w n : Nat}
    (source : BitVec w)
    (hW : 0 < w)
    (hN : w ≤ n) :
    LostOnes source n ↔ source.msb = true := by
  constructor
  · intro hLost
    exact hLost.1
  · intro hMsb
    refine ⟨hMsb, w - 1, by omega, ?_⟩
    rw [BitVec.msb_eq_getLsbD_last] at hMsb
    exact hMsb

------------------------------------------------------------
-- Counts and Logical Shifts
------------------------------------------------------------

/- Whether a shift keeps the sign. -/
def algebraic : IntegerInstr → Bool
  | .srad | .sraw | .sradi | .srawi => true
  | _ => false

def IsShift : IntegerInstr → Prop
  | .sld | .slw | .srd | .srw => True
  | i => algebraic i = true

/-
  The result that the instruction set prescribes.  A count in
  a register is read modulo twice the width.
-/
def shiftResult
    (i : IntegerInstr)
    (x : BitVec 32)
    (r : Registers R) : BitVec 64 :=
  let source := r.gpr (rs x)
  let word := source.setWidth 32
  let count := (r.gpr (rb x)).toNat
  match i with
  | .sld => source <<< (count % 128)
  | .slw => (word <<< (count % 64)).setWidth 64
  | .srd => source >>> (count % 128)
  | .srw => (word >>> (count % 64)).setWidth 64
  | .srad => source.sshiftRight (count % 128)
  | .sraw => (word.sshiftRight (count % 64)).signExtend 64
  | .sradi => source.sshiftRight (shiftField x)
  | .srawi =>
      (word.sshiftRight (sh04 x).toNat).signExtend 64
  | _ => 0#64

/- When the carry of an algebraic shift is one. -/
def ShiftCarry
    (i : IntegerInstr)
    (x : BitVec 32)
    (r : Registers R) : Prop :=
  let source := r.gpr (rs x)
  let word := source.setWidth 32
  let count := (r.gpr (rb x)).toNat
  match i with
  | .srad => LostOnes source (count % 128)
  | .sraw => LostOnes word (count % 64)
  | .sradi => LostOnes source (shiftField x)
  | .srawi => LostOnes word (sh04 x).toNat
  | _ => False

theorem toNat_and_mask
    (k : Nat)
    (hK : k < 64)
    (count : BitVec 64) :
    (count &&& BitVec.ofNat 64 (2 ^ k - 1)).toNat =
      count.toNat % 2 ^ k := by
  have hLt : 2 ^ k - 1 < 2 ^ 64 := by
    have hPow : 2 ^ k < 2 ^ 64 :=
      Nat.pow_lt_pow_of_lt (by decide) hK
    omega
  rw [BitVec.toNat_and, BitVec.toNat_ofNat,
    Nat.mod_eq_of_lt hLt, Nat.and_two_pow_sub_one_eq_mod]

theorem toNat_and_127 (count : BitVec 64) :
    (count &&& 127#64).toNat = count.toNat % 128 :=
  toNat_and_mask 7 (by decide) count

theorem toNat_and_63 (count : BitVec 64) :
    (count &&& 63#64).toNat = count.toNat % 64 :=
  toNat_and_mask 6 (by decide) count

/- The bit of a count that says it reaches the width. -/
theorem and_twoPow_eq_zero_iff
    (count : BitVec 64)
    {k : Nat}
    (hK : k < 64) :
    count &&& BitVec.twoPow 64 k = 0#64 ↔
      count.toNat % 2 ^ (k + 1) < 2 ^ k := by
  rw [BitVec.and_twoPow]
  have hBit : count.getLsbD k = count.toNat.testBit k := rfl
  rw [hBit, Nat.testBit_eq_decide_div_mod_eq,
    Nat.mod_pow_succ]
  have hLow := Nat.mod_lt count.toNat (Nat.two_pow_pos k)
  have hTwo : count.toNat / 2 ^ k % 2 < 2 :=
    Nat.mod_lt _ (by decide)
  by_cases hOne : count.toNat / 2 ^ k % 2 = 1
  · have hNe : BitVec.twoPow 64 k ≠ 0#64 := by
      intro hZero
      have hAt := congrArg (fun v => v.getLsbD k) hZero
      simp [hK] at hAt
    simp [hOne, hNe]
  · have hZero : count.toNat / 2 ^ k % 2 = 0 := by omega
    simp [hZero, hLow]

/- A word that is cut out of a register. -/
theorem setWidth_and_low (value : BitVec 64) :
    (value &&& 0xffffffff#64).setWidth 32 =
      value.setWidth 32 := by
  have hLow :
      (value &&& 0xffffffff#64).toNat =
        value.toNat % 2 ^ 32 :=
    toNat_and_mask 32 (by decide) value
  apply BitVec.eq_of_toNat_eq
  rw [BitVec.toNat_setWidth, BitVec.toNat_setWidth, hLow,
    Nat.mod_mod]

theorem bitTest_word (value : BitVec 64) :
    bitTest (value &&& 0xffffffff#64) 64 32 =
      (value.setWidth 32).msb := by
  unfold bitTest
  rw [BitVec.msb_eq_getLsbD_last, BitVec.getLsbD_and,
    BitVec.getLsbD_setWidth]
  simp

theorem bitTest_sign (value : BitVec 64) :
    bitTest value 64 0 = value.msb := by
  unfold bitTest
  rw [BitVec.msb_eq_getLsbD_last]

@[simp] theorem setShifted_gpr_self
    (i : Gpr)
    (rc ca : Bool)
    (result : BitVec 64)
    (r : Registers R) :
    (setShifted i rc ca result r).gpr i = result := by
  unfold setShifted
  cases rc <;> simp

@[simp] theorem setShifted_getCA
    (i : Gpr)
    (rc ca : Bool)
    (result : BitVec 64)
    (r : Registers R) :
    (setShifted i rc ca result r).getCA = ca := by
  unfold setShifted
  cases rc with
  | false => exact Registers.getCA_setCA _ ca
  | true => exact Registers.getCA_setCA _ ca

theorem lt_and_127_iff (count : BitVec 64) :
    63#64 < count &&& 127#64 ↔ 64 ≤ count.toNat % 128 := by
  rw [BitVec.lt_def, toNat_and_127]
  exact Iff.rfl

theorem lt_and_63_iff (count : BitVec 64) :
    31#64 < count &&& 63#64 ↔ 32 ≤ count.toNat % 64 := by
  rw [BitVec.lt_def, toNat_and_63]
  exact Iff.rfl

/- A test of the count is not needed. -/
theorem ite_shiftLeft
    {w n : Nat}
    {P : Prop}
    [Decidable P]
    (hWide : P ↔ w ≤ n)
    (value : BitVec w) :
    (if P then 0#w else value <<< n) = value <<< n := by
  by_cases hP : P
  · rw [if_pos hP, BitVec.shiftLeft_eq_zero (hWide.mp hP)]
  · rw [if_neg hP]

theorem ite_ushiftRight
    {w n : Nat}
    {P : Prop}
    [Decidable P]
    (hWide : P ↔ w ≤ n)
    (value : BitVec w) :
    (if P then 0#w else value >>> n) = value >>> n := by
  by_cases hP : P
  · rw [if_pos hP, BitVec.ushiftRight_eq_zero (hWide.mp hP)]
  · rw [if_neg hP]

------------------------------------------------------------
-- Shift Instructions
------------------------------------------------------------

/- A count below the width, as it is passed to a rotation. -/
theorem toNat_rest_field
    (sh : BitVec 32)
    (hSh : sh.toNat ≤ 64) :
    (64#32 - sh).toNat = 64 - sh.toNat := by
  bv_omega

theorem toNat_rest_register
    (n : BitVec 64)
    (hN : n.toNat ≤ 64) :
    ((64#64 - n).setWidth 32).toNat = 64 - n.toNat := by
  rw [BitVec.toNat_setWidth]
  have hSub : (64#64 - n).toNat = 64 - n.toNat := by
    bv_omega
  rw [hSub]
  omega

/- The result and the carry of one algebraic shift. -/
theorem shifted_doubleword
    (source : BitVec 64)
    (hN : n < 64)
    (rotated m : BitVec 64)
    (hRotated : rotated = source.rotateLeft (64 - n))
    (hMask : m = mask 64 n 63) :
    (rotated &&& m) ||| signFill source.msb m =
        source.sshiftRight n ∧
      ((source.msb && (rotated &&& ~~~m) != 0#64) = true ↔
        LostOnes source n) := by
  subst hRotated hMask
  refine ⟨shift_doubleword source hN, ?_⟩
  rw [Bool.and_eq_true, bne_iff_ne,
    carry_doubleword source hN]
  exact Iff.rfl

theorem shifted_word
    (source : BitVec 32)
    (hN : n < 32)
    (rotated m : BitVec 64)
    (hRotated :
      rotated = (source.rotateLeft (64 - n)).setWidth 64)
    (hMask : m = mask 64 (n + 32) 63) :
    (rotated &&& m) ||| signFill source.msb m =
        (source.sshiftRight n).signExtend 64 ∧
      ((source.msb && (rotated &&& ~~~m) != 0#64) = true ↔
        LostOnes source n) := by
  subst hRotated hMask
  refine ⟨shift_word source hN, ?_⟩
  rw [Bool.and_eq_true, bne_iff_ne, carry_word source hN]
  exact Iff.rfl

/- Nothing is kept of a value that is shifted out whole. -/
theorem shifted_out
    {w : Nat}
    (hW : 0 < w)
    (source : BitVec w)
    (hN : w ≤ n)
    (rotated : BitVec 64)
    (hRotated : rotated = 0#64 → source = 0#w) :
    (rotated &&& 0#64) ||| signFill source.msb 0#64 =
        (source.sshiftRight n).signExtend 64 ∧
      ((source.msb && (rotated &&& ~~~0#64) != 0#64) = true ↔
        LostOnes source n) := by
  constructor
  · rw [sshiftRight_of_ge source hN]
    apply BitVec.eq_of_getLsbD_eq
    intro j hJ
    rw [BitVec.getLsbD_or, BitVec.getLsbD_and,
      getLsbD_signFill _ _ hJ, BitVec.getLsbD_signExtend]
    cases hMsb : source.msb with
    | false => simp
    | true =>
        by_cases hLow : j < w
        · simp [hJ, hLow]
        · simp [hJ, hLow, BitVec.msb_allOnes hW]
  · rw [lostOnes_of_ge source hW hN, Bool.and_eq_true,
      bne_iff_ne]
    constructor
    · intro hBoth
      exact hBoth.1
    · intro hMsb
      refine ⟨hMsb, ?_⟩
      intro hZero
      rw [BitVec.not_zero, BitVec.and_allOnes] at hZero
      rw [hRotated hZero] at hMsb
      simp at hMsb

/- The mask of a count in a register, which may be empty. -/
theorem srad_shifted
    (source count : BitVec 64) :
    let n := count &&& 0b111111#64
    let rotated := rol source ((64#64 - n).setWidth 32)
    let m :=
      if count &&& 0b1000000#64 = 0#64 then
        mask 64 n.toNat 63
      else 0#64
    (rotated &&& m) ||| signFill source.msb m =
        source.sshiftRight (count.toNat % 128) ∧
      ((source.msb && (rotated &&& ~~~m) != 0#64) = true ↔
        LostOnes source (count.toNat % 128)) := by
  intro n rotated m
  have hLow : n.toNat = count.toNat % 64 :=
    toNat_and_63 count
  have hRotated :
      rotated = source.rotateLeft (64 - n.toNat) := by
    rw [← toNat_rest_register n (by omega)]
    exact rol_64 source _
  have hWide :
      count &&& 0b1000000#64 = 0#64 ↔
        count.toNat % 128 < 64 :=
    and_twoPow_eq_zero_iff count (show 6 < 64 by decide)
  by_cases hIn : count.toNat % 128 < 64
  · have hCount : n.toNat = count.toNat % 128 := by omega
    have hMask : m = mask 64 (count.toNat % 128) 63 := by
      rw [← hCount]
      exact if_pos (hWide.mpr hIn)
    rw [hCount] at hRotated
    exact shifted_doubleword source hIn _ _ hRotated hMask
  · have hMask : m = 0#64 :=
      if_neg (fun hZero => hIn (hWide.mp hZero))
    have hOut :=
      shifted_out (by decide) source (Nat.not_lt.mp hIn)
        rotated (by
          rw [hRotated]
          exact (rotateLeft_eq_zero_iff _ _).mp)
    rw [BitVec.signExtend_eq] at hOut
    rw [hMask]
    exact hOut

theorem sraw_shifted
    (value count : BitVec 64) :
    let source := value &&& 0xffffffff#64
    let word := value.setWidth 32
    let n := count &&& 0b11111#64
    let rotated :=
      (rol (source.setWidth 32)
        ((64#64 - n).setWidth 32)).setWidth 64
    let m :=
      if count &&& 0b100000#64 = 0#64 then
        mask 64 (n.toNat + 32) 63
      else 0#64
    (rotated &&& m) ||| signFill word.msb m =
        (word.sshiftRight (count.toNat % 64)).signExtend 64 ∧
      ((word.msb && (rotated &&& ~~~m) != 0#64) = true ↔
        LostOnes word (count.toNat % 64)) := by
  intro source word n rotated m
  have hLow : n.toNat = count.toNat % 32 :=
    toNat_and_31 count
  have hRotated :
      rotated =
        (word.rotateLeft (64 - n.toNat)).setWidth 64 := by
    have hRol :=
      rol_32 word ((64#64 - n).setWidth 32)
    rw [toNat_rest_register n (by omega)] at hRol
    have hWord : source.setWidth 32 = word :=
      setWidth_and_low value
    rw [← hRol, ← hWord]
  have hWide :
      count &&& 0b100000#64 = 0#64 ↔
        count.toNat % 64 < 32 :=
    and_twoPow_eq_zero_iff count (show 5 < 64 by decide)
  by_cases hIn : count.toNat % 64 < 32
  · have hCount : n.toNat = count.toNat % 64 := by omega
    have hMask : m = mask 64 (count.toNat % 64 + 32) 63 := by
      rw [← hCount]
      exact if_pos (hWide.mpr hIn)
    rw [hCount] at hRotated
    exact shifted_word word hIn _ _ hRotated hMask
  · have hMask : m = 0#64 :=
      if_neg (fun hZero => hIn (hWide.mp hZero))
    have hZero : rotated = 0#64 → word = 0#32 := by
      intro hRot
      rw [hRotated] at hRot
      apply (rotateLeft_eq_zero_iff _ (64 - n.toNat)).mp
      apply BitVec.eq_of_toNat_eq
      have hNat := congrArg BitVec.toNat hRot
      rw [BitVec.toNat_setWidth,
        Nat.mod_eq_of_lt (by omega)] at hNat
      exact hNat
    rw [hMask]
    exact
      shifted_out (by decide) word (Nat.not_lt.mp hIn)
        rotated hZero

/- The carry of a word shift only looks at the low half. -/
theorem sraw_carry
    (word : BitVec 32)
    (m : BitVec 64) :
    (word.setWidth 64 &&& ~~~m) &&& 0xffffffff#64 =
      word.setWidth 64 &&& ~~~m := by
  have hOnes :
      (0xffffffff#64) = (BitVec.allOnes 32).setWidth 64 := by
    decide
  rw [hOnes, BitVec.and_assoc, BitVec.and_comm (~~~m),
    ← BitVec.and_assoc, ← BitVec.setWidth_and,
    BitVec.and_allOnes]

/-
  Every shift writes the result of the instruction set, and
  the algebraic ones their carry.
-/
theorem emulateInteger_shift
    {i : IntegerInstr}
    (hShift : IsShift i)
    (x : BitVec 32)
    (r : Registers R) :
    ∃ r', emulateInteger i x r = .ok r' ∧
      r'.gpr (ra x) = shiftResult i x r ∧
        (algebraic i = true →
          (r'.getCA = true ↔ ShiftCarry i x r)) := by
  cases i with
  | sld =>
      refine ⟨_, rfl, ?_, fun hNo => by cases hNo⟩
      simp only [emulateSld, setRecorded_gpr_self,
        shiftResult]
      rw [ite_shiftLeft, toNat_and_127]
      rw [lt_and_127_iff, toNat_and_127]
  | slw =>
      refine ⟨_, rfl, ?_, fun hNo => by cases hNo⟩
      simp only [emulateSlw, setRecorded_gpr_self,
        shiftResult]
      rw [ite_shiftLeft, toNat_and_63]
      rw [lt_and_63_iff, toNat_and_63]
  | srd =>
      refine ⟨_, rfl, ?_, fun hNo => by cases hNo⟩
      simp only [emulateSrd, setRecorded_gpr_self,
        shiftResult]
      rw [ite_ushiftRight, toNat_and_127]
      rw [lt_and_127_iff, toNat_and_127]
  | srw =>
      refine ⟨_, rfl, ?_, fun hNo => by cases hNo⟩
      simp only [emulateSrw, setRecorded_gpr_self,
        shiftResult]
      rw [ite_ushiftRight, toNat_and_63]
      rw [lt_and_63_iff, toNat_and_63]
  | srad =>
      have hShifted :=
        srad_shifted (r.gpr (rs x)) (r.gpr (rb x))
      refine ⟨_, rfl, ?_, fun _ => ?_⟩
      · simp only [emulateSrad, setShifted_gpr_self,
          bitTest_sign]
        exact hShifted.1
      · simp only [emulateSrad, setShifted_getCA,
          bitTest_sign]
        exact hShifted.2
  | sraw =>
      have hShifted :=
        sraw_shifted (r.gpr (rs x)) (r.gpr (rb x))
      refine ⟨_, rfl, ?_, fun _ => ?_⟩
      · simp only [emulateSraw, setShifted_gpr_self,
          bitTest_word]
        exact hShifted.1
      · simp only [emulateSraw, setShifted_getCA,
          bitTest_word, sraw_carry]
        exact hShifted.2
  | sradi =>
      have hSh :
          (getNBE (sh04 x) (sh5 x)).toNat = shiftField x := by
        rw [toNat_getNBE]
        rfl
      have hLt := shiftField_lt x
      have hWide :
          ((getNBE (sh04 x) (sh5 x)).setWidth 32).toNat =
            shiftField x := by
        rw [BitVec.toNat_setWidth, hSh]
        omega
      have hShifted :=
        shifted_doubleword (r.gpr (rs x)) hLt
          (rol (r.gpr (rs x))
            (64#32 - (getNBE (sh04 x) (sh5 x)).setWidth 32))
          (mask 64 (getNBE (sh04 x) (sh5 x)).toNat 63)
          (by
            rw [rol_64, toNat_rest_field _ (by omega), hWide])
          (by rw [hSh])
      refine ⟨_, rfl, ?_, fun _ => ?_⟩
      · simp only [emulateSradi, setShifted_gpr_self,
          bitTest_sign]
        exact hShifted.1
      · simp only [emulateSradi, setShifted_getCA,
          bitTest_sign]
        exact hShifted.2
  | srawi =>
      have hLt := (sh04 x).isLt
      have hWide :
          ((sh04 x).setWidth 32).toNat = (sh04 x).toNat := by
        rw [BitVec.toNat_setWidth]
        omega
      have hShifted :=
        shifted_word ((r.gpr (rs x)).setWidth 32) hLt
          ((rol ((r.gpr (rs x) &&& 0xffffffff#64).setWidth 32)
            (64#32 - (sh04 x).setWidth 32)).setWidth 64)
          (mask 64 ((sh04 x).toNat + 32) 63)
          (by
            rw [rol_32, toNat_rest_field _ (by omega), hWide,
              setWidth_and_low])
          rfl
      refine ⟨_, rfl, ?_, fun _ => ?_⟩
      · simp only [emulateSrawi, setShifted_gpr_self,
          bitTest_word]
        exact hShifted.1
      · simp only [emulateSrawi, setShifted_getCA,
          bitTest_word]
        exact hShifted.2
  | _ => cases hShift

/- The same of a word that decodes to the instruction. -/
theorem emulate_shift
    (env : Env R)
    (x : BitVec 32)
    (cia : BitVec 64)
    (t : PPUThread R)
    (i : IntegerInstr)
    (hDecode : decode x = some (.integer i))
    (hShift : IsShift i) :
    ∃ t', emulate env x cia t = .ok t' ∧
      t'.regs.gpr (ra x) = shiftResult i x t.regs ∧
        (algebraic i = true →
          (t'.regs.getCA = true ↔ ShiftCarry i x t.regs)) := by
  rcases emulateInteger_shift hShift x t.regs with
    ⟨r, hRun, hResult, hCarry⟩
  exact
    ⟨_, emulate_integer env hDecode cia hRun, hResult,
      hCarry⟩

/- srawi r4,r3,1. -/
theorem emulate_shift_srawi :
    ∃ t', emulate (idle Unit) 0x7c640e70#32 0#64 cleared =
        .ok t' ∧
      t'.regs.gpr (ra 0x7c640e70#32) =
          shiftResult .srawi 0x7c640e70#32 cleared.regs ∧
        (algebraic .srawi = true →
          (t'.regs.getCA = true ↔
            ShiftCarry .srawi 0x7c640e70#32
              cleared.regs)) :=
  emulate_shift (idle Unit) 0x7c640e70#32 0#64 cleared
    .srawi (by decide) rfl

end Ppu

end Ps3emu
