import Ps3emu.Library.LaneArithmetic
import Ps3emu.Ppu.Vector

/-
  What the vector instructions on integers compute in each
  lane of their result.

  Key definitions include:
    * `Interleaves`

  Key theorems include:
    * `laneBE_merge`, `laneBE_vsldoi`
    * `laneBE_cmpgtUnsigned`
    * `laneBE_vrlw`
    * `lane_narrow`
    * `laneBE_vmhraddshs`
    * `laneBE_vsum4ubs`
-/

------------------------------------------------------------
-- Permutations
------------------------------------------------------------

namespace Ps3emu

namespace Ppu

open Lanes Sse

variable {n : Nat}

/- A list of bytes has the first byte of the vector first. -/
theorem laneBE_setEpi8
    (bytes : List (BitVec 8))
    (hN : n < 16) :
    laneBE 8 16 (setEpi8 bytes) n = bytes.getD n 0 := by
  have hIndex : 15 - (16 - 1 - n) = n := by omega
  have hLane :=
    laneBE_pack 8 16 (fun i => bytes.getD (15 - i) 0) hN
  rw [hIndex] at hLane
  exact hLane

theorem laneBE_shuffle_setEpi8
    (a : M128)
    (bytes : List (BitVec 8))
    (hN : n < 16) :
    laneBE 8 16 (shuffleEpi8 a (setEpi8 bytes)) n =
      if (bytes.getD n 0).msb then 0#8
      else lane 8 a (bytes.getD n 0 &&& 15#8).toNat := by
  have hControl := laneBE_setEpi8 bytes hN
  rw [laneBE] at hControl
  rw [laneBE, lane_shuffleEpi8 _ _ (by omega), hControl]

/- The rows of the tables behind `vsldoi`. -/
theorem byteShiftLeftShuffleControl_row
    {sh : Nat}
    (hSh : sh < 16)
    (hN : n < 16) :
    (byteShiftLeftShuffleControl.getD sh []).getD n 0 =
      if n + sh < 16 then BitVec.ofNat 8 (16 - 1 - (n + sh))
      else 255#8 := by
  revert n
  revert sh
  decide

theorem byteShiftRightShuffleControl_row
    {sh : Nat}
    (hSh : sh < 16)
    (hN : n < 16) :
    (byteShiftRightShuffleControl.getD (16 - sh) []).getD n
        0 =
      if n + sh < 16 then 255#8
      else BitVec.ofNat 8 (16 - 1 - (n + sh - 16)) := by
  revert n
  revert sh
  decide

theorem laneBE_vsldoi
    (shb : BitVec 4)
    (a b : M128)
    (hN : n < 16) :
    laneBE 8 16 (vsldoi shb a b) n =
      if n + shb.toNat < 16 then laneBE 8 16 a (n + shb.toNat)
      else laneBE 8 16 b (n + shb.toNat - 16) := by
  have hSh : shb.toNat < 16 := shb.isLt
  unfold vsldoi
  dsimp only
  rw [laneBE, lane_or, ← laneBE, ← laneBE,
    laneBE_shuffle_setEpi8 _ _ hN,
    laneBE_shuffle_setEpi8 _ _ hN,
    byteShiftLeftShuffleControl_row hSh hN,
    byteShiftRightShuffleControl_row hSh hN]
  have hClear : (255#8).msb = true := by decide
  by_cases hFirst : n + shb.toNat < 16
  · have hSelect :=
      @select_ofNat (16 - 1 - (n + shb.toNat)) (by omega)
    simp only [hFirst, if_true, hClear, hSelect.1, hSelect.2,
      Bool.false_eq_true, if_false, BitVec.or_zero]
    rfl
  · have hSelect :=
      @select_ofNat (16 - 1 - (n + shb.toNat - 16)) (by omega)
    simp only [hFirst, if_true, hClear, hSelect.1, hSelect.2,
      Bool.false_eq_true, if_false, BitVec.zero_or]
    rfl

/- Rewritten code shifts the whole registers instead. -/
theorem vsldoiRewriter_eq
    (shb : BitVec 4)
    (a b : M128) :
    vsldoiRewriter shb a b = vsldoi shb a b := by
  have hSh : shb.toNat < 16 := shb.isLt
  apply @eq_of_laneBE 128 8 16 rfl
  intro n hN
  rw [laneBE_vsldoi shb a b hN, vsldoiRewriter, bslli, bsrli,
    laneBE, lane_or, lane_shiftLeft 8 _ a (by omega),
    lane_ushiftRight]
  by_cases hFirst : n + shb.toNat < 16
  · have hNot : ¬ 16 - 1 - n < shb.toNat := by omega
    have hIndex :
        16 - 1 - n - shb.toNat = 16 - 1 - (n + shb.toNat) := by
      omega
    have hBeyond :
        lane 8 b (16 - 1 - n + (16 - shb.toNat)) = 0#8 := by
      apply BitVec.eq_of_getLsbD_eq
      intro j hJ
      rw [getLsbD_lane, BitVec.getLsbD_of_ge b _ (by omega)]
      simp
    rw [if_pos hFirst, if_neg hNot, hBeyond, hIndex,
      BitVec.or_zero]
    rfl
  · have hBelow : 16 - 1 - n < shb.toNat := by omega
    have hIndex :
        16 - 1 - n + (16 - shb.toNat) =
          16 - 1 - (n + shb.toNat - 16) := by
      omega
    rw [if_neg hFirst, if_pos hBelow, hIndex, BitVec.zero_or]
    rfl

/-
  Two controls take turns: the lanes of even number come
  from the first vector, those of odd number from the second,
  in order from lane `start`.
-/
def Interleaves
    (k count start : Nat)
    (control₁ control₂ : M128) : Prop :=
  ∀ n < count,
    let i := count - 1 - n
    let j := count - 1 - (start + n / 2)
    if n % 2 = 0 then
      Moves k control₁ i j ∧ Clears k control₂ i
    else Clears k control₁ i ∧ Moves k control₂ i j

instance
    (k count start : Nat)
    (control₁ control₂ : M128) :
    Decidable (Interleaves k count start control₁ control₂) := by
  unfold Interleaves
  infer_instance

theorem laneBE_merge
    {k count start : Nat}
    {control₁ control₂ : M128}
    (hTable : Interleaves k count start control₁ control₂)
    (hFull : k * count = 16)
    (a b : M128)
    (hN : n < count) :
    laneBE (8 * k) count (merge control₁ control₂ a b) n =
      laneBE (8 * k) count (if n % 2 = 0 then a else b)
        (start + n / 2) := by
  have hFits : ∀ m, k * (count - 1 - m + 1) ≤ 16 := by
    intro m
    rw [← hFull]
    exact Nat.mul_le_mul_left k (by omega)
  have hTurn := hTable n hN
  dsimp only at hTurn
  rw [laneBE, merge, lane_or]
  split at hTurn
  case isTrue hEven =>
    rw [if_pos hEven,
      lane_shuffle_of_moves hTurn.1 (hFits _) (hFits _),
      lane_shuffle_of_clears hTurn.2 (hFits _),
      BitVec.or_zero]
    rfl
  case isFalse hOdd =>
    rw [if_neg hOdd,
      lane_shuffle_of_clears hTurn.1 (hFits _),
      lane_shuffle_of_moves hTurn.2 (hFits _) (hFits _),
      BitVec.zero_or]
    rfl

theorem interleaves_vmrghh :
    Interleaves 2 8 0 vmrghh1ShuffleControl
      vmrghh2ShuffleControl := by
  decide

theorem interleaves_vmrglh :
    Interleaves 2 8 4 vmrglh1ShuffleControl
      vmrglh2ShuffleControl := by
  decide

theorem interleaves_vmrghw :
    Interleaves 4 4 0 vmrghw1ShuffleControl
      vmrghw2ShuffleControl := by
  decide

theorem interleaves_vmrglw :
    Interleaves 4 4 2 vmrglw1ShuffleControl
      vmrglw2ShuffleControl := by
  decide

theorem vspltwShuffleControl_moves
    {u t : Nat}
    (hU : u < 4)
    (hT : t < 4) :
    Moves 4 (setEpi8 (vspltwShuffleControl.getD u [])) t
      (4 - 1 - u) := by
  revert t
  revert u
  decide

theorem vsplthShuffleControl_moves
    {u t : Nat}
    (hU : u < 8)
    (hT : t < 8) :
    Moves 2 (setEpi8 (vsplthShuffleControl.getD u [])) t
      (8 - 1 - u) := by
  revert t
  revert u
  decide

theorem laneBE_vspltw
    (uimm : BitVec 2)
    (b : M128)
    (hN : n < 4) :
    laneBE 32 4 (vspltw uimm b) n =
      laneBE 32 4 b uimm.toNat :=
  lane_shuffle_of_moves
    (@vspltwShuffleControl_moves _ (4 - 1 - n) uimm.isLt
      (by omega))
    (by omega) (by omega)

theorem laneBE_vsplth
    (uimm : BitVec 3)
    (b : M128)
    (hN : n < 8) :
    laneBE 16 8 (vsplth uimm b) n =
      laneBE 16 8 b uimm.toNat :=
  lane_shuffle_of_moves
    (@vsplthShuffleControl_moves _ (8 - 1 - n) uimm.isLt
      (by omega))
    (by omega) (by omega)

------------------------------------------------------------
-- Comparisons and Shifts of Words
------------------------------------------------------------

theorem laneBE_vnor
    (a b : M128)
    (hN : n < 128) :
    laneBE 1 128 (vnor a b) n =
      ~~~(laneBE 1 128 a n ||| laneBE 1 128 b n) := by
  have hOnes :
      (set1 8 16 (-1#8) : M128) = BitVec.allOnes 128 := by
    decide
  unfold vnor
  dsimp only
  rw [hOnes, BitVec.xor_allOnes, laneBE,
    lane_not 1 _ (by omega), lane_or]
  rfl

theorem laneBE_vandc
    (a b : M128)
    (hN : n < 128) :
    laneBE 1 128 (vandc a b) n =
      laneBE 1 128 a n &&& ~~~(laneBE 1 128 b n) := by
  rw [vandc, andnot, laneBE, lane_and,
    lane_not 1 _ (by omega), BitVec.and_comm]
  rfl

theorem laneBE_vsel
    (m a b : M128)
    (hN : n < 128) :
    laneBE 1 128 (vsel m a b) n =
      if laneBE 1 128 m n = 1#1 then laneBE 1 128 b n
      else laneBE 1 128 a n := by
  have hChoice :
      ∀ m a b : BitVec 1,
        m &&& b ||| ~~~m &&& a = if m = 1#1 then b else a := by
    decide
  rw [vsel, laneBE, lane_or, lane_and, lane_and,
    lane_not 1 _ (by omega)]
  exact hChoice _ _ _

theorem laneBE_cmpgtUnsigned
    {w k : Nat}
    (hWidth : w * k = 128)
    (a b : M128)
    (hN : n < k) :
    laneBE w k
        (cmpgtUnsigned w k (BitVec.intMin w) a b hWidth) n =
      if laneBE w k b n < laneBE w k a n then
        BitVec.allOnes w
      else 0#w := by
  have hW : 0 < w := by
    apply Nat.pos_of_ne_zero
    rintro rfl
    omega
  have hI : k - 1 - n < k := by omega
  have hCast :
      ∀ (x : BitVec (w * k)) (i : Nat),
        lane w (x.cast hWidth) i = lane w x i := by
    intro x i
    rfl
  unfold cmpgtUnsigned
  dsimp only
  rw [laneBE, hCast, lane_cmpgt w k _ _ hI, hCast, hCast,
    lane_sub w k _ _ hI, lane_sub w k _ _ hI, hCast,
    lane_set1 w k _ hI, slt_sub_intMin hW, BitVec.ult_eq_decide]
  simp only [decide_eq_true_eq]
  rfl

variable {i : Nat}

theorem toNat_lane_wordCounts
    (b : M128)
    (hI : i < 4) :
    (lane 32 (wordCounts b) i).toNat =
      (lane 32 b i).toNat % 32 := by
  have hMask :
      lane 32 (set1 32 4 0b11111#32) i =
        BitVec.ofNat 32 (2 ^ 5 - 1) :=
    lane_set1 32 4 _ hI
  rw [wordCounts, lane_and]
  exact (congrArg
    (fun m => (lane 32 b i &&& m).toNat) hMask).trans
    (Masks.toNat_and_low _ _ (by decide))

theorem laneBE_vslw
    (a b : M128)
    (hN : n < 4) :
    laneBE 32 4 (vslw a b) n =
      laneBE 32 4 a n <<< ((laneBE 32 4 b n).toNat % 32) := by
  have hLane :=
    lane_zipLanes 32 4 (fun a b => a <<< b.toNat) a
      (wordCounts b) (show 4 - 1 - n < 4 by omega)
  rwa [toNat_lane_wordCounts b (by omega)] at hLane

theorem laneBE_vsrw
    (a b : M128)
    (hN : n < 4) :
    laneBE 32 4 (vsrw a b) n =
      laneBE 32 4 a n >>> ((laneBE 32 4 b n).toNat % 32) := by
  have hLane :=
    lane_zipLanes 32 4 (fun a b => a >>> b.toNat) a
      (wordCounts b) (show 4 - 1 - n < 4 by omega)
  rwa [toNat_lane_wordCounts b (by omega)] at hLane

theorem laneBE_vsraw
    (a b : M128)
    (hN : n < 4) :
    laneBE 32 4 (vsraw a b) n =
      (laneBE 32 4 a n).sshiftRight
        ((laneBE 32 4 b n).toNat % 32) := by
  have hLane :=
    lane_zipLanes 32 4 (fun a b => a.sshiftRight b.toNat) a
      (wordCounts b) (show 4 - 1 - n < 4 by omega)
  rwa [toNat_lane_wordCounts b (by omega)] at hLane

/- The second shift is by 32 where the count is zero. -/
theorem laneBE_vrlw
    (a b : M128)
    (hN : n < 4) :
    laneBE 32 4 (vrlw a b) n =
      (laneBE 32 4 a n).rotateLeft
        (laneBE 32 4 b n).toNat := by
  have hI : 4 - 1 - n < 4 := by omega
  have hCount := toNat_lane_wordCounts b hI
  have hLt : (lane 32 b (4 - 1 - n)).toNat % 32 < 32 :=
    Nat.mod_lt _ (by decide)
  have hBack :
      (lane 32 (sub 32 4 (set1 32 4 32#32) (wordCounts b))
          (4 - 1 - n)).toNat =
        32 - (lane 32 b (4 - 1 - n)).toNat % 32 := by
    rw [lane_sub 32 4 _ _ hI, lane_set1 32 4 _ hI,
      BitVec.toNat_sub, hCount, BitVec.toNat_ofNat]
    omega
  have hLeft :
      lane 32 (sllv 32 4 a (wordCounts b)) (4 - 1 - n) =
        lane 32 a (4 - 1 - n) <<<
          (lane 32 (wordCounts b) (4 - 1 - n)).toNat :=
    lane_zipLanes 32 4 _ a (wordCounts b) hI
  have hRight :
      ∀ c : M128,
        lane 32 (srlv 32 4 a c) (4 - 1 - n) =
          lane 32 a (4 - 1 - n) >>>
            (lane 32 c (4 - 1 - n)).toNat :=
    fun c => lane_zipLanes 32 4 _ a c hI
  unfold vrlw
  dsimp only
  rw [laneBE, lane_or, BitVec.rotateLeft_def]
  exact congr
    (congrArg (fun x y => x ||| y)
      (hLeft.trans (by rw [hCount]; rfl)))
    ((hRight _).trans (by rw [hBack]; rfl))

------------------------------------------------------------
-- Shifts of Halfwords and Bytes
------------------------------------------------------------

variable {t : Nat}

/- The control bytes of `narrow`, for the low and high half. -/
theorem narrow_control
    (hT : t < 16) :
    let sh :=
      set256Epi8
        [29, 28, 25, 24, 21, 20, 17, 16,
          -1, -1, -1, -1, -1, -1, -1, -1,
          -1, -1, -1, -1, -1, -1, -1, -1,
          13, 12, 9, 8, 5, 4, 1, 0]
    let lo := lane 8 sh t
    let hi := lane 8 sh (16 + t)
    (lo.msb = !decide (t < 8)) ∧
      (hi.msb = decide (t < 8)) ∧
      (t < 8 →
        (lo &&& 15#8).toNat = 2 * (2 * (t / 2)) + t % 2) ∧
      (¬ t < 8 →
        16 + (hi &&& 15#8).toNat =
          2 * (2 * (t / 2)) + t % 2) := by
  revert t
  decide

theorem lane_narrow
    (dext : M256)
    (hI : i < 8) :
    lane 16 (narrow dext) i = lane 16 dext (2 * i) := by
  refine @lane_eq_of_sublanes _ 8 2 _ _ _ _ _ ?_
  intro e hE
  have hT : 2 * i + e < 16 := by omega
  have hTable := narrow_control hT
  have hHigh :
      ∀ x : M256,
        lane 8 (extracti128 x 1) (2 * i + e) =
          lane 8 x (16 + (2 * i + e)) :=
    fun x => @lane_lane 256 8 16 x 1 (2 * i + e) hT
  have hLow :
      ∀ x : M256,
        lane 8 (extracti128 x 0) (2 * i + e) =
          lane 8 x (2 * i + e) := by
    intro x
    have hLane := @lane_lane 256 8 16 x 0 (2 * i + e) hT
    rwa [Nat.mul_zero, Nat.zero_add] at hLane
  have hDiv : (16 + (2 * i + e)) / 16 = 1 := by omega
  have hDiv' : (2 * i + e) / 16 = 0 := by omega
  have hByte :
      2 * (2 * i) + e =
        2 * (2 * ((2 * i + e) / 2)) + (2 * i + e) % 2 := by
    omega
  dsimp only at hTable
  unfold narrow
  dsimp only
  rw [lane_or, hHigh, hLow,
    lane_shuffle256Epi8 _ _ (by omega),
    lane_shuffle256Epi8 _ _ (by omega),
    hTable.1, hTable.2.1, hDiv, hDiv', hByte]
  by_cases hHalf : 2 * i + e < 8
  · rw [hTable.2.2.1 hHalf]
    simp [hHalf]
  · rw [hTable.2.2.2 hHalf]
    simp [hHalf]

theorem toNat_lane_halfwordCounts
    (b : M128)
    (hI : i < 8) :
    (lane 32 (halfwordCounts b) i).toNat =
      (lane 16 b i).toNat % 16 := by
  have hMask :
      lane 32 (set1 32 8 0b1111#32) i =
        BitVec.ofNat 32 (2 ^ 4 - 1) :=
    lane_set1 32 8 _ hI
  have hWide :
      lane 32 (cvtepu 16 32 8 b) i =
        (lane 16 b i).setWidth 32 :=
    lane_pack 32 8 _ hI
  rw [halfwordCounts, lane_and, hMask,
    Masks.toNat_and_low _ _ (by decide), hWide,
    BitVec.toNat_setWidth_of_le (by decide)]
  rfl

/- The low halfword of a word. -/
theorem lane_low_half
    (x : BitVec n)
    (i : Nat) :
    lane 16 x (2 * i) = (lane 32 x i).setWidth 16 := by
  have hHalf := @lane_lane n 16 2 x i 0 (by decide)
  rw [Nat.add_zero] at hHalf
  rw [← hHalf]
  apply BitVec.eq_of_getLsbD_eq
  intro j hJ
  rw [getLsbD_lane, BitVec.getLsbD_setWidth, Nat.mul_zero,
    Nat.zero_add]

theorem laneBE_vslh
    (a b : M128)
    (hN : n < 8) :
    laneBE 16 8 (vslh a b) n =
      laneBE 16 8 a n <<< ((laneBE 16 8 b n).toNat % 16) := by
  have hI : 8 - 1 - n < 8 := by omega
  have hShift :
      ∀ aext : M256,
        lane 32 (sllv 32 8 aext (halfwordCounts b))
            (8 - 1 - n) =
          lane 32 aext (8 - 1 - n) <<<
            (lane 32 (halfwordCounts b) (8 - 1 - n)).toNat :=
    fun aext => lane_zipLanes 32 8 _ aext _ hI
  have hWide :
      lane 32 (cvtepu 16 32 8 a) (8 - 1 - n) =
        (lane 16 a (8 - 1 - n)).setWidth 32 :=
    lane_pack 32 8 _ hI
  rw [laneBE, vslh, lane_narrow _ hI, lane_low_half, hShift,
    toNat_lane_halfwordCounts b hI, hWide]
  apply BitVec.eq_of_getLsbD_eq
  intro j hJ
  simp [laneBE, hJ]

theorem laneBE_vsrah
    (a b : M128)
    (hN : n < 8) :
    laneBE 16 8 (vsrah a b) n =
      (laneBE 16 8 a n).sshiftRight
        ((laneBE 16 8 b n).toNat % 16) := by
  have hI : 8 - 1 - n < 8 := by omega
  have hShift :
      ∀ aext : M256,
        lane 32 (srav 32 8 aext (halfwordCounts b))
            (8 - 1 - n) =
          (lane 32 aext (8 - 1 - n)).sshiftRight
            (lane 32 (halfwordCounts b) (8 - 1 - n)).toNat :=
    fun aext => lane_zipLanes 32 8 _ aext _ hI
  have hWide :
      lane 32 (cvtepi 16 32 8 a) (8 - 1 - n) =
        (lane 16 a (8 - 1 - n)).signExtend 32 :=
    lane_pack 32 8 _ hI
  rw [laneBE, vsrah, lane_narrow _ hI, lane_low_half, hShift,
    toNat_lane_halfwordCounts b hI, hWide]
  exact setWidth_sshiftRight_signExtend _
    (Nat.mod_lt _ (by decide))

theorem laneBE_vslb
    (a b : M128)
    (hN : n < 16) :
    laneBE 8 16 (vslb a b) n =
      laneBE 8 16 a n <<< ((laneBE 8 16 b n).toNat % 8) := by
  have hMask :
      lane 8 (set1 8 16 0b111#8) (16 - 1 - n) =
        BitVec.ofNat 8 (2 ^ 3 - 1) :=
    lane_set1 8 16 _ (by omega)
  unfold vslb
  dsimp only
  rw [laneBE_pack 8 16 _ hN, lane_and, hMask,
    BitVec.and_comm, Masks.toNat_and_low _ _ (by decide)]
  rfl

------------------------------------------------------------
-- Products, Packs and Unpacks
------------------------------------------------------------

/- The halfword of odd number of a word is its low half. -/
theorem laneBE_vmulosh
    (a b : M128)
    (hN : n < 4) :
    laneBE 32 4 (vmulosh a b) n =
      BitVec.ofInt 32
        ((laneBE 16 8 a (2 * n + 1)).toInt *
          (laneBE 16 8 b (2 * n + 1)).toInt) := by
  have hI : 4 - 1 - n < 4 := by omega
  have hIndex : 8 - 1 - (2 * n + 1) = 2 * (4 - 1 - n) := by
    omega
  have hExtend :
      ∀ x : M128,
        lane 32 (srai 32 4 16 (slli 32 4 16 x)) (4 - 1 - n) =
          (laneBE 16 8 x (2 * n + 1)).signExtend 32 := by
    intro x
    have hLeft :
        lane 32 (slli 32 4 16 x) (4 - 1 - n) =
          lane 32 x (4 - 1 - n) <<< 16 :=
      lane_mapLanes 32 4 _ x hI
    have hRight :
        lane 32 (srai 32 4 16 (slli 32 4 16 x)) (4 - 1 - n) =
          (lane 32 (slli 32 4 16 x)
            (4 - 1 - n)).sshiftRight 16 :=
      lane_mapLanes 32 4 _ (slli 32 4 16 x) hI
    rw [hRight, hLeft, signExtend_low_half, laneBE, hIndex,
      lane_low_half]
  have hProduct :
      ∀ x y : M128,
        lane 32 (mullo 32 4 x y) (4 - 1 - n) =
          lane 32 x (4 - 1 - n) * lane 32 y (4 - 1 - n) :=
    fun x y => lane_zipLanes 32 4 _ x y hI
  unfold vmulosh
  dsimp only
  rw [laneBE, hProduct, hExtend, hExtend, BitVec.signExtend,
    BitVec.signExtend, ← BitVec.ofInt_mul]

/- Four products from their high and low halves. -/
theorem lane_joined_halves
    (h l : M128)
    (hT : t < 4) :
    lane 32
        (bslli (cvtepu 16 32 4 h) 2 ||| cvtepu 16 32 4 l) t =
      lane 16 h t ++ lane 16 l t := by
  have hWide :
      ∀ (x : M128) (e : Nat), e < 2 →
        ∀ u < 4,
          lane 16 (cvtepu 16 32 4 x) (2 * u + e) =
            if e = 0 then lane 16 x u else 0#16 := by
    intro x e hE u hU
    have hWord :
        lane 32 (cvtepu 16 32 4 x) u =
          (lane 16 x u).setWidth 32 :=
      lane_pack 32 4 _ hU
    rw [← @lane_lane _ 16 2 (cvtepu 16 32 4 x) u e hE, hWord,
      lane_setWidth _ (by decide)]
  apply @eq_of_lane 16 2
  intro e hE
  rw [lane_lane 16 2 _ hE, lane_or, bslli,
    lane_shiftLeft 16 1 _ (by omega), hWide l e hE t hT]
  have hCases : e = 0 ∨ e = 1 := by omega
  rcases hCases with rfl | rfl
  · have hZero :
        (if 2 * t + 0 < 1 then 0#16
          else
            lane 16 (cvtepu 16 32 4 h) (2 * t + 0 - 1)) =
          0#16 := by
      split
      case isTrue hFirst => rfl
      case isFalse hLater =>
        have hIndex :
            2 * t + 0 - 1 = 2 * (t - 1) + 1 := by
          omega
        rw [hIndex, hWide h 1 (by decide) (t - 1) (by omega)]
        rfl
    rw [hZero, BitVec.zero_or, if_pos rfl]
    exact (lane_append_zero _ _).symm
  · have hNot : ¬ 2 * t + 1 < 1 := by omega
    have hIndex : 2 * t + 1 - 1 = 2 * t + 0 := by omega
    rw [if_neg hNot, hIndex, hWide h 0 (by decide) t hT,
      if_pos rfl, if_neg (by decide), BitVec.or_zero]
    exact (lane_append_one _ _).symm

/- The sum a lane saturates, before it does. -/
def roundedSum (a b c : BitVec 16) : Int :=
  (a.toInt * b.toInt + 16384) / 32768 + c.toInt

theorem lane_roundedSums
    {h l c : M128}
    (hT : t < 4)
    {x y : BitVec 16}
    (hHigh :
      lane 16 h t =
        (x.signExtend 32 * y.signExtend 32).extractLsb' 16 16)
    (hLow : lane 16 l t = x * y) :
    lane 32 (roundedSums h l c) t =
      BitVec.ofInt 32
        (saturate (-32768) 32767
          (roundedSum x y (lane 16 c t))) := by
  have hBounds := product_bounds x y
  have hAddend := @BitVec.toInt_lt 16 (lane 16 c t)
  have hAddend' := BitVec.le_toInt (lane 16 c t)
  have hAdd :
      ∀ x y : M128,
        lane 32 (add 32 4 x y) t = lane 32 x t + lane 32 y t :=
    fun x y => lane_zipLanes 32 4 _ x y hT
  have hShift :
      ∀ x : M128,
        lane 32 (srai 32 4 15 x) t =
          (lane 32 x t).sshiftRight 15 :=
    fun x => lane_mapLanes 32 4 _ x hT
  have hExtend :
      lane 32 (cvtepi 16 32 4 c) t =
        BitVec.ofInt 32 (lane 16 c t).toInt :=
    lane_pack 32 4 _ hT
  have hMax :
      ∀ x y : M128,
        lane 32 (maxEpi32 x y) t =
          if (lane 32 y t).slt (lane 32 x t) then lane 32 x t
          else lane 32 y t :=
    fun x y => lane_zipLanes 32 4 _ x y hT
  have hMin :
      ∀ x y : M128,
        lane 32 (minEpi32 x y) t =
          if (lane 32 x t).slt (lane 32 y t) then lane 32 x t
          else lane 32 y t :=
    fun x y => lane_zipLanes 32 4 _ x y hT
  have hRound : (0x00004000#32) = BitVec.ofInt 32 16384 := by
    decide
  unfold roundedSums
  dsimp only
  rw [hMin, hMax, hAdd, hShift, hAdd,
    lane_joined_halves h l hT, hHigh, hLow,
    product_of_halves, lane_set1 32 4 _ hT,
    lane_set1 32 4 _ hT, lane_set1 32 4 _ hT, hExtend,
    hRound, ← BitVec.ofInt_add,
    sshiftRight_ofInt (by decide) (by omega) (by omega),
    ← BitVec.ofInt_add]
  refine Eq.trans ?_ (clamp_ofInt ?_ ?_)
  · rfl
  · unfold roundedSum
    omega
  · unfold roundedSum
    omega

/- The low halfwords of four words, in the low half. -/
theorem lowHalfwords_control
    (hT : t < 8) :
    let control :=
      setEpi8
        [-1, -1, -1, -1, -1, -1, -1, -1,
          13, 12, 9, 8, 5, 4, 1, 0]
    if t < 4 then Moves 2 control t (2 * t)
    else Clears 2 control t := by
  revert t
  decide

/- The low halfwords of four words, in the high half. -/
theorem highHalfwords_control
    (hT : t < 8) :
    let control :=
      setEpi8
        [13, 12, 9, 8, 5, 4, 1, 0,
          -1, -1, -1, -1, -1, -1, -1, -1]
    if t < 4 then Clears 2 control t
    else Moves 2 control t (2 * (t - 4)) := by
  revert t
  decide

theorem laneBE_vmhraddshs
    (a b c : M128)
    (hN : n < 8) :
    laneBE 16 8 (vmhraddshs a b c) n =
      BitVec.ofInt 16
        (saturate (-32768) 32767
          (roundedSum (laneBE 16 8 a n) (laneBE 16 8 b n)
            (laneBE 16 8 c n))) := by
  have hI : 8 - 1 - n < 8 := by omega
  have hHigh :
      ∀ i < 8,
        lane 16 (mulhiEpi16 a b) i =
          ((lane 16 a i).signExtend 32 *
            (lane 16 b i).signExtend 32).extractLsb' 16 16 :=
    fun i hI => lane_zipLanes 16 8 _ a b hI
  have hLow :
      ∀ i < 8,
        lane 16 (mullo 16 8 a b) i =
          lane 16 a i * lane 16 b i :=
    fun i hI => lane_zipLanes 16 8 _ a b hI
  have hLower :
      ∀ (x : M128) (i : Nat),
        lane 16 (bsrli x 8) i = lane 16 x (i + 4) :=
    fun x i => lane_ushiftRight 16 4 x i
  have hRight := lowHalfwords_control hI
  have hLeft := highHalfwords_control hI
  dsimp only at hRight hLeft
  unfold vmhraddshs
  dsimp only
  rw [laneBE, lane_or]
  by_cases hHalf : 8 - 1 - n < 4
  · rw [if_pos hHalf] at hRight hLeft
    rw [lane_shuffle_of_clears hLeft (by omega),
      lane_shuffle_of_moves hRight (by omega) (by omega),
      BitVec.zero_or, lane_low_half,
      lane_roundedSums hHalf (hHigh _ hI) (hLow _ hI),
      ofInt_setWidth _ (by decide)]
    rfl
  · rw [if_neg hHalf] at hRight hLeft
    have hT : 8 - 1 - n - 4 < 4 := by omega
    have hIndex : 8 - 1 - n - 4 + 4 = 8 - 1 - n := by omega
    have hHigh' :
        lane 16 (bsrli (mulhiEpi16 a b) 8) (8 - 1 - n - 4) =
          ((lane 16 a (8 - 1 - n)).signExtend 32 *
            (lane 16 b (8 - 1 - n)).signExtend
              32).extractLsb' 16 16 := by
      rw [hLower, hIndex, hHigh _ hI]
    have hLow' :
        lane 16 (bsrli (mullo 16 8 a b) 8) (8 - 1 - n - 4) =
          lane 16 a (8 - 1 - n) * lane 16 b (8 - 1 - n) := by
      rw [hLower, hIndex, hLow _ hI]
    rw [lane_shuffle_of_moves hLeft (by omega) (by omega),
      lane_shuffle_of_clears hRight (by omega),
      BitVec.or_zero, lane_low_half,
      lane_roundedSums hT hHigh' hLow',
      ofInt_setWidth _ (by decide), hLower, hIndex]
    rfl

theorem laneBE_vsum4ubs
    (a b : M128)
    (hN : n < 4) :
    laneBE 32 4 (vsum4ubs a b) n =
      BitVec.ofNat 32
        (min 0xffffffff
          ((laneBE 8 16 a (4 * n)).toNat +
            (laneBE 8 16 a (4 * n + 1)).toNat +
            (laneBE 8 16 a (4 * n + 2)).toNat +
            (laneBE 8 16 a (4 * n + 3)).toNat +
            (laneBE 32 4 b n).toNat)) := by
  have hByte :
      ∀ i j, i + j = 3 →
        laneBE 8 16 a (4 * n + i) =
          lane 8 a (4 * (4 - 1 - n) + j) := by
    intro i j hSum
    exact congrArg (lane 8 a) (by omega)
  have hByte₀ := hByte 0 3 rfl
  have hFold :
      ∀ f : Nat → Nat,
        (List.range 4).foldl (fun sum j => sum + f j) 0 =
          0 + f 0 + f 1 + f 2 + f 3 :=
    fun f => rfl
  have hCut :
      ∀ s t : Nat, s = t →
        (if 0xffffffff < s then 0xffffffff else s) =
          min 0xffffffff t := by
    intro s t hEq
    split <;> omega
  rw [Nat.add_zero] at hByte₀
  rw [hByte₀, hByte 1 2 rfl, hByte 2 1 rfl, hByte 3 0 rfl]
  unfold vsum4ubs
  dsimp only
  rw [laneBE_pack 32 4 _ hN, hFold, laneBE]
  exact congrArg (BitVec.ofNat 32) (hCut _ _ (by omega))

theorem laneBE_vpkshus
    (a b : M128)
    (hN : n < 16) :
    laneBE 8 16 (vpkshus a b) n =
      BitVec.ofInt 8
        (saturate 0 255
          (if n < 8 then laneBE 16 8 a n
            else laneBE 16 8 b (n - 8)).toInt) := by
  have hLane :=
    laneBE_pack 8 16
      (fun i =>
        BitVec.ofInt 8
          (saturate 0 255
            (if i < 8 then lane 16 b i
              else lane 16 a (i - 8)).toInt)) hN
  refine hLane.trans ?_
  by_cases hFirst : n < 8
  · have hNot : ¬ 16 - 1 - n < 8 := by omega
    have hIndex : 16 - 1 - n - 8 = 8 - 1 - n := by omega
    rw [if_pos hFirst, if_neg hNot, hIndex]
    rfl
  · have hBelow : 16 - 1 - n < 8 := by omega
    have hIndex : 16 - 1 - n = 8 - 1 - (n - 8) := by omega
    rw [if_neg hFirst, if_pos hBelow, hIndex]
    rfl

theorem laneBE_vupkhsb
    (b : M128)
    (hN : n < 8) :
    laneBE 16 8 (vupkhsb b) n =
      (laneBE 8 16 b n).signExtend 16 := by
  have hIndex : 8 - 1 - n + 8 = 16 - 1 - n := by omega
  have hLane :=
    laneBE_pack 16 8
      (fun i => (lane 8 (bsrli b 8) i).signExtend 16) hN
  rw [bsrli, lane_ushiftRight 8 8, hIndex] at hLane
  exact hLane

theorem laneBE_vupklsb
    (b : M128)
    (hN : n < 8) :
    laneBE 16 8 (vupklsb b) n =
      (laneBE 8 16 b (n + 8)).signExtend 16 := by
  have hIndex : 8 - 1 - n = 16 - 1 - (n + 8) := by omega
  have hLane :=
    laneBE_pack 16 8
      (fun i => (lane 8 b i).signExtend 16) hN
  rw [hIndex] at hLane
  exact hLane

end Ppu

end Ps3emu
