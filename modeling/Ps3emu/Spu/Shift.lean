import Mathlib.Tactic.IntervalCases
import Ps3emu.Spu.Storage

/-
  The shifts and rotates of an SPU, and what the interpreter
  does of them.

  A count is reduced to a number of bits that can be more
  than the width of a lane, so that nothing is left of it.
  The count of `shlhi` is not reduced.

  Key definitions include:
    * `quad`
    * `shifted`
    * `ImmediateFits`

  Key theorems include:
    * `toNat_count_neg`
    * `shuffle_rotateLeft`, `shiftLeftByBits_eq`
    * `shift_sets`
    * `shift_yields_iff`
-/

------------------------------------------------------------
-- The Architecture
------------------------------------------------------------

namespace Ps3emu

namespace Spu

open Lanes Sse
open Ppu (LaneSpec halfwords words halfword word rol
  byteShiftLeftShuffleControl)

theorem quad_full : 128 * 1 = 128 := rfl

/- The register as one number, its first byte the highest. -/
def quad (value : R128) : LaneSpec :=
  ⟨128, 1, quad_full, fun _ => value⟩

/-
  What a shift sets its target to.  The counts of the last
  three groups are negated.
-/
def shifted
    (j : ComputeInstr)
    (x : BitVec 32)
    (r : RegisterFile) : Option LaneSpec :=
  let a := r (ra x)
  let b := r (rb x)
  let i := (i7 x).toNat
  let c := (word b 0).toNat
  match j with
  -- to the left
  | .shlh =>
      some (halfwords fun n =>
        halfword a n <<< ((halfword b n).toNat % 32))
  | .shlhi =>
      some (halfwords fun n => halfword a n <<< (i % 32))
  | .shl =>
      some (words fun n =>
        word a n <<< ((word b n).toNat % 64))
  | .shli => some (words fun n => word a n <<< (i % 64))
  | .shlqbi => some (quad (a <<< (c % 8)))
  | .shlqbii => some (quad (a <<< (i % 8)))
  | .shlqby => some (quad (a <<< (8 * (c % 32))))
  | .shlqbyi => some (quad (a <<< (8 * (i % 32))))
  | .shlqbybi => some (quad (a <<< (8 * (c / 8 % 32))))
  -- around
  | .roth =>
      some (halfwords fun n =>
        (halfword a n).rotateLeft
          ((halfword b n).toNat % 16))
  | .rothi =>
      some (halfwords fun n =>
        (halfword a n).rotateLeft (i % 16))
  | .rot =>
      some (words fun n =>
        (word a n).rotateLeft ((word b n).toNat % 32))
  | .roti =>
      some (words fun n => (word a n).rotateLeft (i % 32))
  | .rotqby => some (quad (a.rotateLeft (8 * (c % 16))))
  | .rotqbyi => some (quad (a.rotateLeft (8 * (i % 16))))
  | .rotqbybi =>
      some (quad (a.rotateLeft (8 * (c / 8 % 16))))
  | .rotqbi => some (quad (a.rotateLeft (c % 8)))
  | .rotqbii => some (quad (a.rotateLeft (i % 8)))
  -- to the right, with zeros
  | .rothm =>
      some (halfwords fun n =>
        halfword a n >>> ((-halfword b n).toNat % 32))
  | .rothmi =>
      some (halfwords fun n =>
        halfword a n >>> ((-i7 x).toNat % 32))
  | .rotm =>
      some (words fun n =>
        word a n >>> ((-word b n).toNat % 64))
  | .rotmi =>
      some (words fun n => word a n >>> ((-i7 x).toNat % 64))
  | .rotqmby =>
      some (quad (a >>> (8 * ((-word b 0).toNat % 32))))
  | .rotqmbyi =>
      some (quad (a >>> (8 * ((-i7 x).toNat % 32))))
  | .rotqmbybi =>
      some
        (quad (a >>> (8 * ((-(word b 0 >>> 3)).toNat % 32))))
  | .rotqmbi => some (quad (a >>> ((-word b 0).toNat % 8)))
  | .rotqmbii => some (quad (a >>> ((-i7 x).toNat % 8)))
  -- to the right, with the sign
  | .rotmah =>
      some (halfwords fun n =>
        (halfword a n).sshiftRight
          ((-halfword b n).toNat % 32))
  | .rotmahi =>
      some (halfwords fun n =>
        (halfword a n).sshiftRight ((-i7 x).toNat % 32))
  | .rotma =>
      some (words fun n =>
        (word a n).sshiftRight ((-word b n).toNat % 64))
  | .rotmai =>
      some (words fun n =>
        (word a n).sshiftRight ((-i7 x).toNat % 64))
  | _ => none

/-
  The count of `shlhi` is reduced already, or nothing but
  zeros would stay in a halfword.
-/
def ImmediateFits
    (j : ComputeInstr)
    (x : BitVec 32)
    (r : RegisterFile) : Prop :=
  match j with
  | .shlhi =>
      (i7 x).toNat < 32 ∨
        ∀ n < 8,
          (halfword (r (ra x)) n).toNat %
            2 ^ (16 - (i7 x).toNat % 32) = 0
  | _ => True

------------------------------------------------------------
-- Counts and Lanes
------------------------------------------------------------

section Counts

variable {w v k : Nat} (b : BitVec w)

theorem toNat_count (hV : k ≤ v) :
    (b.setWidth v &&& BitVec.ofNat v (2 ^ k - 1)).toNat =
      b.toNat % 2 ^ k := by
  rw [Masks.toNat_and_low _ _ hV, toNat_setWidth_mod b hV]

theorem setWidth_signExtend_low
    (hW : k ≤ w)
    (hV : k ≤ v) :
    (b.signExtend v).setWidth k = b.setWidth k := by
  rw [setWidth_signExtend b hV,
    BitVec.signExtend_eq_setWidth_of_le b hW]

theorem toNat_count_signExtend
    (hW : k ≤ w)
    (hV : k ≤ v) :
    (b.signExtend v &&& BitVec.ofNat v (2 ^ k - 1)).toNat =
      b.toNat % 2 ^ k := by
  have hLow :=
    congrArg BitVec.toNat (setWidth_signExtend_low b hW hV)
  rw [BitVec.toNat_setWidth, BitVec.toNat_setWidth] at hLow
  rw [Masks.toNat_and_low _ _ hV, hLow]

/- The count is extended before it is negated. -/
theorem toNat_count_neg
    (hW : k ≤ w)
    (hV : k ≤ v) :
    (-b.signExtend v &&& BitVec.ofNat v (2 ^ k - 1)).toNat =
      (-b).toNat % 2 ^ k := by
  rw [Masks.toNat_and_low _ _ hV]
  exact
    toNat_neg_mod hV hW (setWidth_signExtend_low b hW hV)

end Counts

/- Either shift of a word leaves the same bits of the count. -/
theorem toNat_count_bytes (b : BitVec 32) :
    (-b.sshiftRight 3 &&& 0b11111#32).toNat =
      (-(b >>> 3)).toNat % 32 := by
  have hLow :
      (b.sshiftRight 3).setWidth 5 = (b >>> 3).setWidth 5 := by
    apply BitVec.eq_of_getLsbD_eq
    intro n hN
    have hIn : 3 + n < 32 := by omega
    have hNot : ¬ 32 ≤ n := by omega
    rw [BitVec.getLsbD_setWidth, BitVec.getLsbD_setWidth,
      BitVec.getLsbD_sshiftRight, BitVec.getLsbD_ushiftRight]
    simp [hIn, hNot]
  refine (@Masks.toNat_and_low 32 _ 5 (by decide)).trans ?_
  exact toNat_neg_mod (by decide) (by decide) hLow

theorem toNat_mul_eight
    {sh : BitVec 32}
    (hSh : sh.toNat < 32) :
    (sh * 8#32).toNat = 8 * sh.toNat := by
  rw [BitVec.toNat_mul, BitVec.toNat_ofNat,
    Nat.mod_eq_of_lt (by omega)]
  omega

theorem shlh_lane (a b : BitVec 16) :
    (let sh := b.setWidth 32 &&& 0b11111#32
      if 15#32 < sh then 0#16
      else (a.signExtend 32 <<< sh.toNat).setWidth 16) =
      a <<< (b.toNat % 32) := by
  have hSh :
      (b.setWidth 32 &&& 0b11111#32).toNat = b.toNat % 32 :=
    @toNat_count 16 32 5 b (by decide)
  rw [← hSh]
  generalize b.setWidth 32 &&& 0b11111#32 = sh
  dsimp only
  split
  case isTrue hAll =>
    exact (BitVec.shiftLeft_eq_zero hAll).symm
  case isFalse =>
    exact setWidth_shiftLeft_signExtend a (by decide) _

theorem rothmLane_eq
    (a : BitVec 16)
    (sh : BitVec 32) :
    Macro.rothmLane a sh = a >>> sh.toNat := by
  unfold Macro.rothmLane
  split
  case isTrue => rfl
  case isFalse hAll =>
    rw [BitVec.not_lt, BitVec.le_def] at hAll
    exact (BitVec.ushiftRight_eq_zero hAll).symm

theorem rotmLane_eq (a sh : BitVec 32) :
    Macro.rotmLane a sh = a >>> sh.toNat := by
  unfold Macro.rotmLane
  split
  case isTrue => rfl
  case isFalse hAll =>
    rw [BitVec.not_lt, BitVec.le_def] at hAll
    exact (BitVec.ushiftRight_eq_zero hAll).symm

/- The test of the sign. -/
theorem and_signBit (a : BitVec 32) (n : Nat) (hN : n < 32) :
    a &&& 1#32 <<< n ≠ 0#32 ↔ a.getLsbD n = true := by
  have hPow : 1#32 <<< n = BitVec.twoPow 32 n := rfl
  have hNe : BitVec.twoPow 32 n ≠ 0#32 := by
    intro hEq
    have hBit := congrArg (fun v => v.getLsbD n) hEq
    simp [hN] at hBit
  rw [hPow, BitVec.and_twoPow]
  cases a.getLsbD n <;> simp [hNe]

theorem rotmaLane_eq (a sh : BitVec 32) :
    Macro.rotmaLane a sh = a.sshiftRight sh.toNat := by
  unfold Macro.rotmaLane
  split
  case isTrue => rfl
  case isFalse hAll =>
    rw [BitVec.not_lt, BitVec.le_def] at hAll
    rw [sshiftRight_of_le a hAll, BitVec.msb_eq_getLsbD_last]
    exact if_congr (and_signBit a 31 (by decide)) rfl rfl

theorem rotmahLane_eq
    (a : BitVec 16)
    (sh : BitVec 32) :
    Macro.rotmahLane a sh = a.sshiftRight sh.toNat := by
  unfold Macro.rotmahLane
  dsimp only
  split
  case isTrue hSome =>
    exact setWidth_sshiftRight_signExtend a hSome
  case isFalse hAll =>
    have hSign :
        (a.signExtend 32).getLsbD 15 = a.msb := by
      rw [BitVec.getLsbD_signExtend,
        BitVec.msb_eq_getLsbD_last]
      rfl
    have hIff := and_signBit (a.signExtend 32) 15 (by decide)
    rw [hSign] at hIff
    rw [BitVec.not_lt, BitVec.le_def] at hAll
    rw [sshiftRight_of_le a hAll, if_congr hIff rfl rfl]
    cases a.msb <;> rfl

------------------------------------------------------------
-- Quadwords
------------------------------------------------------------

theorem lane_full (value : R128) :
    laneBE 128 1 value 0 = value := by
  simp [laneBE, lane]

theorem holds_quad (value : R128) :
    (quad value).Holds value := by
  intro n hN
  obtain rfl : n = 0 := Nat.lt_one_iff.mp hN
  exact lane_full value

theorem sets_quad
    {rt : BitVec 7}
    {v value : R128}
    (hEq : v = value)
    (r : RegisterFile) :
    Sets rt (quad value) r (r.setXmm rt v) := by
  subst hEq
  exact sets_setXmm (holds_quad v)

/- The doublewords of a number are put together again. -/
theorem u128_eq (a : R128) : Macro.u128 a = a := by
  apply @eq_of_lane 64 2
  intro i hI
  rw [Macro.u128, Macro.make128, lane_or,
    lane_shiftLeft 64 1 _ (by omega),
    lane_setWidth _ (by decide), lane_setWidth _ (by decide)]
  by_cases hLow : i = 0
  · subst hLow
    exact BitVec.zero_or
  · obtain rfl : i = 1 := by omega
    exact BitVec.or_zero

theorem lane_zero_eq
    {w n : Nat}
    (u : BitVec n) :
    lane w u 0 = u.setWidth w := by
  apply BitVec.eq_of_getLsbD_eq
  intro j hJ
  rw [getLsbD_lane, BitVec.getLsbD_setWidth, Nat.mul_zero,
    Nat.zero_add]

/- Both doublewords are replaced. -/
theorem setU128_eq
    (rt : BitVec 7)
    (u : BitVec 128)
    (r : RegisterFile) :
    Macro.setU128 rt u r = r.setXmm rt u := by
  have hHigh :
      (u >>> 64).setWidth 64 = laneBE 64 2 u 0 := by
    rw [← lane_zero_eq]
    exact lane_ushiftRight 64 1 u 0
  have hLow : u.setWidth 64 = laneBE 64 2 u 1 :=
    (lane_zero_eq u).symm
  unfold Macro.setU128
  dsimp only
  congr 1
  apply @eq_of_laneBE 128 64 2 rfl
  intro i hI
  rw [R128.set_dw, R128.set_dw,
    laneBE_setLane 64 2 _ (by decide) hI,
    laneBE_setLane 64 2 _ (by decide) hI, hHigh, hLow]
  by_cases hLast : i = 1
  · rw [if_pos hLast, hLast]
  · obtain rfl : i = 0 := by omega
    rfl

/- The rows of the table, those of ones only included. -/
theorem byteShiftLeft_row
    {sh : Nat}
    (hSh : sh < 32)
    {n : Nat}
    (hN : n < 16) :
    (byteShiftLeftShuffleControl.getD sh []).getD n 0 =
      if n + sh < 16 then BitVec.ofNat 8 (16 - 1 - (n + sh))
      else 255#8 := by
  by_cases hLow : sh < 16
  · exact Ppu.byteShiftLeftShuffleControl_row hLow hN
  · have hNot : ¬ n + sh < 16 := by omega
    rw [if_neg hNot]
    revert n
    revert sh
    decide

theorem byteRotateLeft_row
    {sh : Nat}
    (hSh : sh < 16)
    {n : Nat}
    (hN : n < 16) :
    (byteRotateLeftShuffleControl.getD sh []).getD n 0 =
      BitVec.ofNat 8 (15 - (n + sh) % 16) := by
  revert n
  revert sh
  decide

theorem shuffle_shiftLeft
    (a : R128)
    {sh : BitVec 32}
    (hSh : sh.toNat < 32) :
    shuffleEpi8 a
        (Macro.control byteShiftLeftShuffleControl sh) =
      a <<< (8 * sh.toNat) := by
  apply @eq_of_laneBE 128 8 16 rfl
  intro n hN
  rw [Macro.control, Ppu.laneBE_shuffle_setEpi8 _ _ hN,
    byteShiftLeft_row hSh hN, laneBE,
    lane_shiftLeft 8 _ a (by omega)]
  by_cases hIn : n + sh.toNat < 16
  · have hSelect :=
      @select_ofNat (16 - 1 - (n + sh.toNat)) (by omega)
    have hNot : ¬ 16 - 1 - n < sh.toNat := by omega
    have hIndex :
        16 - 1 - (n + sh.toNat) = 16 - 1 - n - sh.toNat := by
      omega
    rw [if_pos hIn, hSelect.1, hSelect.2, if_neg hNot, hIndex]
    rfl
  · have hOut : 16 - 1 - n < sh.toNat := by omega
    rw [if_neg hIn, if_pos hOut]
    rfl

theorem shuffle_rotateLeft
    (a : R128)
    {sh : BitVec 32}
    (hSh : sh.toNat < 16) :
    shuffleEpi8 a
        (Macro.control byteRotateLeftShuffleControl sh) =
      a.rotateLeft (8 * sh.toNat) := by
  apply @eq_of_laneBE 128 8 16 rfl
  intro n hN
  have hSelect :=
    @select_ofNat (15 - (n + sh.toNat) % 16) (by omega)
  have hIndex :
      15 - (n + sh.toNat) % 16 =
        (16 - 1 - n + (16 - sh.toNat)) % 16 := by
    omega
  have hLane :=
    @lane_rotateLeft 8 16 (by decide) a sh.toNat (16 - 1 - n)
      hSh (by omega)
  rw [Macro.control, Ppu.laneBE_shuffle_setEpi8 _ _ hN,
    byteRotateLeft_row hSh hN, hSelect.1, hSelect.2, hIndex]
  exact hLane.symm

theorem setEpi8_tail (t : BitVec 8) :
    setEpi8 [0, 0, 0, 0, 0, 0, 0, t, 0, 0, 0, 0, 0, 0, 0, 0] =
      t.setWidth 128 <<< 64 := by
  apply @eq_of_laneBE 128 8 16 rfl
  intro n hN
  rw [Ppu.laneBE_setEpi8 _ hN, laneBE]
  refine Eq.trans ?_ (lane_shiftLeft 8 8 _ (by omega)).symm
  rw [lane_setWidth _ (by decide)]
  interval_cases n <;> rfl

theorem getLsbD_sll
    (a count : R128)
    {j : Nat}
    (hJ : j < 128) :
    (sll 64 2 a count).getLsbD j =
      (!decide (j % 64 < (lane 64 count 0).toNat) &&
        a.getLsbD
          (64 * (j / 64) +
            (j % 64 - (lane 64 count 0).toNat))) := by
  have hLane :=
    congrArg (fun v => v.getLsbD (j % 64))
      (lane_mapLanes 64 2
        (fun x => x <<< (lane 64 count 0).toNat) a
        (show j / 64 < 2 by omega))
  have hIn : j % 64 < 64 := Nat.mod_lt _ (by decide)
  have hSub :
      j % 64 - (lane 64 count 0).toNat < 64 := by
    omega
  simp only [getLsbD_lane, Nat.div_add_mod, hIn, hSub,
    decide_true, Bool.true_and, BitVec.getLsbD_shiftLeft]
    at hLane
  exact hLane

/- The tail is what the low half loses at its high end. -/
theorem shiftLeftByBits_eq
    (a : R128)
    {sh : BitVec 32}
    (hSh : sh.toNat < 8) :
    Macro.shiftLeftByBits a sh = a <<< sh.toNat := by
  have hRest : (8#32 - sh).toNat = 8 - sh.toNat :=
    BitVec.toNat_sub_of_le (by
      rw [BitVec.le_def]
      exact Nat.le_of_lt hSh)
  have hCount :
      (lane 64 (setEpi64x 0#64 (sh.setWidth 64)) 0).toNat =
        sh.toNat := by
    rw [setEpi64x, lane_append_zero,
      BitVec.toNat_setWidth_of_le (by decide)]
  unfold Macro.shiftLeftByBits
  dsimp only
  rw [setEpi8_tail, hRest]
  apply BitVec.eq_of_getLsbD_eq
  intro j hJ
  rw [BitVec.getLsbD_or, getLsbD_sll a _ hJ, hCount,
    BitVec.getLsbD_shiftLeft, BitVec.getLsbD_shiftLeft,
    BitVec.getLsbD_setWidth, BitVec.getLsbD_setWidth,
    BitVec.getLsbD_ushiftRight, BitVec.getLsbD_setWidth,
    getLsbD_lane]
  have hTail : j - 64 < 128 := by omega
  have hByte : 8 - sh.toNat + (j - 64) < 8 → j - 64 < 8 := by
    omega
  by_cases hKept : j % 64 < sh.toNat
  · -- The doubleword has a zero here.
    by_cases hHigh : j < 64
    · have hBelow : j < sh.toNat := by omega
      simp [hKept, hHigh, hBelow]
    · have hIn : 8 - sh.toNat + (j - 64) < 8 := by omega
      have hWord : 8 - sh.toNat + (j - 64) < 32 := by omega
      have hAbove : ¬ j < sh.toNat := by omega
      have hIndex :
          8 * 7 + (8 - sh.toNat + (j - 64)) = j - sh.toNat := by
        omega
      simp [hKept, hHigh, hAbove, hIn, hWord, hByte hIn, hTail,
        hIndex, hJ]
  · have hAbove : ¬ j < sh.toNat := by
      have hMod := Nat.mod_le j 64
      omega
    have hIndex :
        64 * (j / 64) + (j % 64 - sh.toNat) = j - sh.toNat := by
      omega
    have hOut :
        ¬ (¬ j < 64 ∧ 8 - sh.toNat + (j - 64) < 8) := by
      omega
    rw [hIndex]
    by_cases hHigh : j < 64
    · simp [hKept, hHigh, hAbove, hJ]
    · have hPast : ¬ 8 - sh.toNat + (j - 64) < 8 :=
        fun hIn => hOut ⟨hHigh, hIn⟩
      simp [hKept, hAbove, hJ, hPast]

theorem shiftRightByBytes_eq
    (u : BitVec 128)
    {sh : BitVec 32}
    (hSh : sh.toNat < 32) :
    Macro.shiftRightByBytes u sh = u >>> (8 * sh.toNat) := by
  unfold Macro.shiftRightByBytes
  rw [toNat_mul_eight hSh]
  split
  case isTrue hAll =>
    have hPast : 15 < sh.toNat := hAll
    exact (BitVec.ushiftRight_eq_zero (by omega)).symm
  case isFalse => rfl

------------------------------------------------------------
-- Instructions
------------------------------------------------------------

theorem rol_16
    (a : BitVec 16)
    (count : BitVec 32) :
    rol a count = a.rotateLeft count.toNat :=
  @Ppu.rol_eq_rotateLeft 4 (by decide) a count

theorem rol_128
    (a : BitVec 128)
    (count : BitVec 32) :
    rol a count = a.rotateLeft count.toNat :=
  @Ppu.rol_eq_rotateLeft 7 (by decide) a count

/- What an instruction sets its target to, if it shifts. -/
def Shifts
    (j : ComputeInstr)
    (x : BitVec 32)
    (s : LaneSpec)
    (r : RegisterFile) : Prop :=
  ∃ f, emulateCompute j x = some f ∧ Sets (rt x) s r (f r)

section Instructions

variable {j : ComputeInstr} {x : BitVec 32}
  {r : RegisterFile} {s : LaneSpec}

/- The counts in an immediate and in the preferred word. -/
theorem toNat_imm
    (x : BitVec 32)
    {k : Nat}
    (hK : k ≤ 32) :
    ((i7 x).setWidth 32 &&&
        BitVec.ofNat 32 (2 ^ k - 1)).toNat =
      (i7 x).toNat % 2 ^ k :=
  toNat_count (i7 x) hK

theorem toNat_imm_neg
    (x : BitVec 32)
    {k : Nat}
    (hK : k ≤ 7) :
    (-(i7 x).signExtend 32 &&&
        BitVec.ofNat 32 (2 ^ k - 1)).toNat =
      (-i7 x).toNat % 2 ^ k :=
  toNat_count_neg (i7 x) hK (Nat.le_trans hK (by decide))

theorem toNat_word
    (b : BitVec 32)
    {k : Nat}
    (hK : k ≤ 32) :
    (b &&& BitVec.ofNat 32 (2 ^ k - 1)).toNat =
      b.toNat % 2 ^ k :=
  Masks.toNat_and_low b _ hK

theorem toNat_word_bytes
    (b : BitVec 32)
    {k : Nat}
    (hK : k ≤ 32) :
    (b >>> 3 &&& BitVec.ofNat 32 (2 ^ k - 1)).toNat =
      b.toNat / 8 % 2 ^ k := by
  rw [Masks.toNat_and_low _ _ hK, BitVec.toNat_ushiftRight,
    Nat.shiftRight_eq_div_pow]

theorem sets_halfwords
    {rt : BitVec 7}
    {f g : Nat → BitVec 16}
    (hLane : ∀ n, f n = g n)
    (r : RegisterFile) :
    Sets rt (halfwords g) r (eachHw rt (fun _ n => f n) r) :=
  sets_eachHw fun n _ _ _ => hLane n

theorem sets_words
    {rt : BitVec 7}
    {f g : Nat → BitVec 32}
    (hLane : ∀ n, f n = g n)
    (r : RegisterFile) :
    Sets rt (words g) r (eachW rt (fun _ n => f n) r) :=
  sets_eachW fun n _ _ _ => hLane n

theorem sets_setU128
    {rt : BitVec 7}
    {u value : BitVec 128}
    (hEq : u = value)
    (r : RegisterFile) :
    Sets rt (quad value) r (Macro.setU128 rt u r) := by
  rw [setU128_eq]
  exact sets_quad hEq r

theorem sets_shl (ra rb rt : BitVec 7) (r : RegisterFile) :
    Sets rt
      (words fun n =>
        word (r ra) n <<< ((word (r rb) n).toNat % 64))
      r (Macro.shl ra rb rt r) := by
  apply sets_setXmm
  intro n hN
  have hMask :
      lane 32 (set1 32 4 0b111111#32) (4 - 1 - n) =
        BitVec.ofNat 32 (2 ^ 6 - 1) :=
    lane_set1 32 4 _ (by omega)
  have hLane :=
    laneBE_zipLanes 32 4 (fun a b => a <<< b.toNat) (r ra)
      (r rb &&& set1 32 4 0b111111#32) hN
  rw [laneBE, laneBE, laneBE, lane_and, hMask,
    Masks.toNat_and_low _ _ (by decide)] at hLane
  exact hLane

theorem sets_shli
    (ra rt : BitVec 7)
    {i7 : BitVec 32}
    {k : Nat}
    (hCount : (i7 &&& 0b111111#32).toNat = k)
    (r : RegisterFile) :
    Sets rt (words fun n => word (r ra) n <<< k) r
      (Macro.shli ra rt i7 r) := by
  subst hCount
  unfold Macro.shli
  dsimp only
  split
  case isTrue hAll =>
    apply sets_setXmm
    intro n _
    refine (lane_zero 32 _).trans ?_
    exact (BitVec.shiftLeft_eq_zero hAll).symm
  case isFalse =>
    exact sets_setXmm fun n hN => laneBE_mapLanes 32 4 _ _ hN

section Quadwords

variable {rt : BitVec 7} {a : R128} {sh : BitVec 32} {k : Nat}

variable (hCount : sh.toNat = k)

include hCount

theorem sets_shiftLeftByBits
    (hK : k < 8)
    (r : RegisterFile) :
    Sets rt (quad (a <<< k)) r
      (r.setXmm rt (Macro.shiftLeftByBits a sh)) := by
  subst hCount
  exact sets_quad (shiftLeftByBits_eq a hK) r

theorem sets_shuffle_shiftLeft
    (hK : k < 32)
    (r : RegisterFile) :
    Sets rt (quad (a <<< (8 * k))) r
      (r.setXmm rt
        (shuffleEpi8 a
          (Macro.control byteShiftLeftShuffleControl sh))) := by
  subst hCount
  exact sets_quad (shuffle_shiftLeft a hK) r

theorem sets_shuffle_rotateLeft
    (hK : k < 16)
    (r : RegisterFile) :
    Sets rt (quad (a.rotateLeft (8 * k))) r
      (r.setXmm rt
        (shuffleEpi8 a
          (Macro.control byteRotateLeftShuffleControl
            sh))) := by
  subst hCount
  exact sets_quad (shuffle_rotateLeft a hK) r

theorem sets_shiftLeftByBytes
    (hK : k < 32)
    (r : RegisterFile) :
    Sets rt (quad (a <<< (8 * k))) r
      (Macro.setU128 rt
        (if 15#32 < sh then 0#128
          else Macro.u128 a <<< (sh * 8#32).toNat)
        r) := by
  subst hCount
  apply sets_setU128
  split
  case isTrue hAll =>
    have hPast : 15 < sh.toNat := hAll
    exact (BitVec.shiftLeft_eq_zero (by omega)).symm
  case isFalse => rw [u128_eq, toNat_mul_eight hK]

theorem sets_rol_128
    (r : RegisterFile) :
    Sets rt (quad (a.rotateLeft k)) r
      (Macro.setU128 rt (rol (Macro.u128 a) sh) r) := by
  subst hCount
  apply sets_setU128
  rw [u128_eq, rol_128]

theorem sets_shiftRightByBytes
    (hK : k < 32)
    (r : RegisterFile) :
    Sets rt (quad (a >>> (8 * k))) r
      (Macro.setU128 rt
        (Macro.shiftRightByBytes (Macro.u128 a) sh) r) := by
  subst hCount
  apply sets_setU128
  rw [u128_eq, shiftRightByBytes_eq a hK]

theorem sets_shiftRight
    (r : RegisterFile) :
    Sets rt (quad (a >>> k)) r
      (Macro.setU128 rt (Macro.u128 a >>> sh.toNat) r) := by
  subst hCount
  apply sets_setU128
  rw [u128_eq]

end Quadwords

/- The test is the other way round here. -/
theorem sets_rotqmbybi
    (ra rb rt : BitVec 7)
    (r : RegisterFile) :
    Sets rt
      (quad
        (r ra >>>
          (8 * ((-(word (r rb) 0 >>> 3)).toNat % 32))))
      r (Macro.rotqmbybi ra rb rt r) := by
  have hCount := toNat_count_bytes ((r rb).w 0)
  have hLt :
      (-((r rb).w 0).sshiftRight 3 &&& 0b11111#32).toNat <
        32 := by
    rw [hCount]
    exact Nat.mod_lt _ (by decide)
  apply sets_setU128
  change _ = r ra >>> (8 * ((-((r rb).w 0 >>> 3)).toNat % 32))
  rw [← hCount, toNat_mul_eight hLt, u128_eq]
  split
  case isTrue => rfl
  case isFalse hAll =>
    rw [BitVec.not_lt, BitVec.le_def] at hAll
    have hPast :
        16 ≤
          (-((r rb).w 0).sshiftRight 3 &&&
            0b11111#32).toNat :=
      hAll
    rw [BitVec.ushiftRight_eq_zero (by omega)]
    rfl

/- All but the count that is not reduced. -/
theorem shift_sets
    (hReduced : j ≠ .shlhi)
    (hShifted : shifted j x r = some s) :
    Shifts j x s r := by
  cases j with
  | shlh =>
      cases hShifted
      exact ⟨_, rfl, sets_halfwords (fun _ => shlh_lane _ _) r⟩
  | shlhi => exact absurd rfl hReduced
  | shl =>
      cases hShifted
      exact ⟨_, rfl, sets_shl _ _ _ r⟩
  | shli =>
      cases hShifted
      exact
        ⟨_, rfl,
          sets_shli _ _ (@toNat_imm x 6 (by decide)) r⟩
  | shlqbi =>
      cases hShifted
      exact
        ⟨_, rfl,
          sets_shiftLeftByBits
            (@toNat_word _ 3 (by decide))
            (Nat.mod_lt _ (by decide)) r⟩
  | shlqbii =>
      cases hShifted
      exact
        ⟨_, rfl,
          sets_shiftLeftByBits (@toNat_imm x 3 (by decide))
            (Nat.mod_lt _ (by decide)) r⟩
  | shlqby =>
      cases hShifted
      exact
        ⟨_, rfl,
          sets_shuffle_shiftLeft
            (@toNat_word _ 5 (by decide))
            (Nat.mod_lt _ (by decide)) r⟩
  | shlqbyi =>
      cases hShifted
      exact
        ⟨_, rfl,
          sets_shiftLeftByBytes (@toNat_imm x 5 (by decide))
            (Nat.mod_lt _ (by decide)) r⟩
  | shlqbybi =>
      cases hShifted
      exact
        ⟨_, rfl,
          sets_shuffle_shiftLeft
            (@toNat_word_bytes _ 5 (by decide))
            (Nat.mod_lt _ (by decide)) r⟩
  | roth =>
      cases hShifted
      refine ⟨_, rfl, sets_halfwords (fun n => ?_) r⟩
      exact (rol_16 _ _).trans
        (congrArg _
          (@toNat_count_signExtend 16 32 4 _ (by decide)
            (by decide)))
  | rothi =>
      cases hShifted
      refine ⟨_, rfl, sets_halfwords (fun n => ?_) r⟩
      exact (rol_16 _ _).trans
        (congrArg _ (@toNat_imm x 4 (by decide)))
  | rot =>
      cases hShifted
      refine ⟨_, rfl, sets_words (fun n => ?_) r⟩
      exact (Ppu.rol_32 _ _).trans
        (congrArg _ (@toNat_word _ 5 (by decide)))
  | roti =>
      cases hShifted
      refine ⟨_, rfl, sets_words (fun n => ?_) r⟩
      exact (Ppu.rol_32 _ _).trans
        (congrArg _ (@toNat_imm x 5 (by decide)))
  | rotqby =>
      cases hShifted
      exact
        ⟨_, rfl,
          sets_shuffle_rotateLeft
            (@toNat_word _ 4 (by decide))
            (Nat.mod_lt _ (by decide)) r⟩
  | rotqbyi =>
      cases hShifted
      exact
        ⟨_, rfl,
          sets_shuffle_rotateLeft (@toNat_imm x 4 (by decide))
            (Nat.mod_lt _ (by decide)) r⟩
  | rotqbybi =>
      cases hShifted
      exact
        ⟨_, rfl,
          sets_shuffle_rotateLeft
            (@toNat_word_bytes _ 4 (by decide))
            (Nat.mod_lt _ (by decide)) r⟩
  | rotqbi =>
      cases hShifted
      exact
        ⟨_, rfl, sets_rol_128 (@toNat_word _ 3 (by decide)) r⟩
  | rotqbii =>
      cases hShifted
      exact
        ⟨_, rfl, sets_rol_128 (@toNat_imm x 3 (by decide)) r⟩
  | rothm =>
      cases hShifted
      refine ⟨_, rfl, sets_halfwords (fun n => ?_) r⟩
      exact (rothmLane_eq _ _).trans
        (congrArg _
          (@toNat_count_neg 16 32 5 _ (by decide)
            (by decide)))
  | rothmi =>
      cases hShifted
      refine ⟨_, rfl, sets_halfwords (fun n => ?_) r⟩
      exact (rothmLane_eq _ _).trans
        (congrArg _ (@toNat_imm_neg x 5 (by decide)))
  | rotm =>
      cases hShifted
      refine ⟨_, rfl, sets_words (fun n => ?_) r⟩
      exact (rotmLane_eq _ _).trans
        (congrArg _ (@toNat_word _ 6 (by decide)))
  | rotmi =>
      cases hShifted
      refine ⟨_, rfl, sets_words (fun n => ?_) r⟩
      exact (rotmLane_eq _ _).trans
        (congrArg _ (@toNat_imm_neg x 6 (by decide)))
  | rotqmby =>
      cases hShifted
      exact
        ⟨_, rfl,
          sets_shiftRightByBytes
            (@toNat_word _ 5 (by decide))
            (Nat.mod_lt _ (by decide)) r⟩
  | rotqmbyi =>
      cases hShifted
      exact
        ⟨_, rfl,
          sets_shiftRightByBytes
            (@toNat_imm_neg x 5 (by decide))
            (Nat.mod_lt _ (by decide)) r⟩
  | rotqmbybi =>
      cases hShifted
      exact ⟨_, rfl, sets_rotqmbybi _ _ _ r⟩
  | rotqmbi =>
      cases hShifted
      exact
        ⟨_, rfl,
          sets_shiftRight (@toNat_word _ 3 (by decide)) r⟩
  | rotqmbii =>
      cases hShifted
      exact
        ⟨_, rfl,
          sets_shiftRight (@toNat_imm_neg x 3 (by decide)) r⟩
  | rotmah =>
      cases hShifted
      refine ⟨_, rfl, sets_halfwords (fun n => ?_) r⟩
      exact (rotmahLane_eq _ _).trans
        (congrArg _
          (@toNat_count_neg 16 32 5 _ (by decide)
            (by decide)))
  | rotmahi =>
      cases hShifted
      refine ⟨_, rfl, sets_halfwords (fun n => ?_) r⟩
      exact (rotmahLane_eq _ _).trans
        (congrArg _ (@toNat_imm_neg x 5 (by decide)))
  | rotma =>
      cases hShifted
      refine ⟨_, rfl, sets_words (fun n => ?_) r⟩
      exact (rotmaLane_eq _ _).trans
        (congrArg _ (@toNat_word _ 6 (by decide)))
  | rotmai =>
      cases hShifted
      refine ⟨_, rfl, sets_words (fun n => ?_) r⟩
      exact (rotmaLane_eq _ _).trans
        (congrArg _ (@toNat_imm_neg x 6 (by decide)))
  | _ => cases hShifted

theorem shlhi_shifts (x : BitVec 32) (r : RegisterFile) :
    Shifts .shlhi x
      (halfwords fun n =>
        halfword (r (ra x)) n <<< (i7 x).toNat) r := by
  have hCount :
      ((i7 x).setWidth 32).toNat = (i7 x).toNat :=
    BitVec.toNat_setWidth_of_le (by decide)
  refine ⟨_, rfl, ?_⟩
  rw [← hCount]
  exact sets_setXmm fun n hN => laneBE_mapLanes 16 8 _ _ hN

end Instructions

------------------------------------------------------------
-- The Count of `shlhi`
------------------------------------------------------------

/- Nothing but zeros stays in a lane. -/
theorem shiftLeft_eq_zero_iff
    {w : Nat}
    (v : BitVec w)
    (k : Nat) :
    v <<< k = 0#w ↔ v.toNat % 2 ^ (w - k) = 0 := by
  by_cases hAll : w ≤ k
  · have hSub : w - k = 0 := Nat.sub_eq_zero_of_le hAll
    simp [BitVec.shiftLeft_eq_zero hAll, hSub, Nat.mod_one]
  · have hPow : 2 ^ w = 2 ^ (w - k) * 2 ^ k := by
      rw [← Nat.pow_add, Nat.sub_add_cancel (by omega)]
    rw [← BitVec.toNat_inj, BitVec.toNat_shiftLeft,
      Nat.shiftLeft_eq, hPow, Nat.mul_mod_mul_right]
    simp

theorem shlhi_agrees_iff
    (v : Nat → BitVec 16)
    {i : Nat}
    (hI : i < 128) :
    (∀ n < 8, v n <<< i = v n <<< (i % 32)) ↔
      i < 32 ∨
        ∀ n < 8, (v n).toNat % 2 ^ (16 - i % 32) = 0 := by
  by_cases hSmall : i < 32
  · simp [hSmall, Nat.mod_eq_of_lt hSmall]
  · simp only [hSmall, false_or]
    apply forall₂_congr
    intro n _
    rw [BitVec.shiftLeft_eq_zero (by omega), eq_comm,
      shiftLeft_eq_zero_iff]

variable (base : Env (FlatMemory 18)) (x : BitVec 32)
  (cia : BitVec 64) (t : Thread (FlatMemory 18))

theorem shlhi_yields_iff :
    Yields (shifted .shlhi x t.regs.r) (rt x) t
        (emulateInstr (spuEnv base) (.compute .shlhi) x cia
          t) ↔
      ImmediateFits .shlhi x t.regs.r := by
  rcases shlhi_shifts x t.regs.r with ⟨f, hBody, hSets⟩
  rw [yields_iff base hBody]
  refine Iff.trans ?_ (shlhi_agrees_iff _ (i7 x).isLt)
  rw [← sets_iff_of_sets hSets]
  constructor
  · intro hAll
    exact hAll _ rfl
  · intro hOne s hSpec
    cases hSpec
    exact hOne

/-
  The shifts and rotates are exact, one of them where its
  count fits.
-/
theorem shift_yields_iff (j : ComputeInstr) :
    Yields (shifted j x t.regs.r) (rt x) t
        (emulateInstr (spuEnv base) (.compute j) x cia t) ↔
      ImmediateFits j x t.regs.r := by
  by_cases hReduced : j = .shlhi
  · subst hReduced
    exact shlhi_yields_iff base x cia t
  · have hFits : ImmediateFits j x t.regs.r := by
      unfold ImmediateFits
      split
      case h_1 => exact absurd rfl hReduced
      case h_2 => trivial
    refine iff_of_true ?_ hFits
    intro s hShifted
    rcases shift_sets hReduced hShifted with
      ⟨f, hBody, hSets⟩
    exact ⟨_, emulateInstr_compute base hBody cia t, hSets⟩

/- `shlhi $1, $0, 32` on halfwords that are 1. -/
theorem not_shift_yields :
    decode 0x0fe80001#32 = some (.compute .shlhi) ∧
      ¬ Yields
        (shifted .shlhi 0x0fe80001#32
          fun _ => set1 16 8 1#16)
        (rt 0x0fe80001#32)
        (threadOf fun _ => set1 16 8 1#16)
        (emulateInstr (spuEnv bareEnv) (.compute .shlhi)
          0x0fe80001#32 0#64
          (threadOf fun _ => set1 16 8 1#16)) := by
  refine ⟨by decide, ?_⟩
  intro hYields
  have hFits :=
    (shlhi_yields_iff bareEnv 0x0fe80001#32 0#64
      (threadOf fun _ => set1 16 8 1#16)).mp hYields
  rcases hFits with hSmall | hZero
  · exact absurd hSmall (by decide)
  · exact absurd (hZero 0 (by decide)) (by decide)

end Spu

end Ps3emu
