import Ps3emu.Spu.Shift

/-
  Masks of lanes from bits and bits from lanes, and the
  instructions that have another body in rewritten code.

  Key definitions include:
    * `selectedLane`
    * `gathered`
    * `VariantsAgree`

  Key theorems include:
    * `laneBE_select`
    * `sets_gather`
    * `variants_agree`
-/

------------------------------------------------------------
-- Masks and Deposits
------------------------------------------------------------

namespace Ps3emu

namespace Spu

open Lanes Sse
open Ppu (LaneSpec bytes halfwords words byte halfword word
  rol)

/- Lane `n` of `k` lanes is of ones where its bit is set. -/
def selectedLane
    (w k : Nat)
    (x : BitVec 32)
    (n : Nat) : BitVec w :=
  if x.getLsbD (k - 1 - n) then BitVec.allOnes w else 0#w

/- The low bits in the preferred word, the other words 0. -/
def gathered
    (k : Nat)
    (x : BitVec 32) : LaneSpec :=
  words fun n =>
    if n = 0 then x &&& BitVec.ofNat 32 (2 ^ k - 1) else 0#32

/- The two bodies of an instruction do the same. -/
def VariantsAgree : Prop :=
  Macro.fsmbi = Macro.fsmbiRewriter ∧
    Macro.shlqbyi = Macro.shlqbyiRewriter ∧
    Macro.rothi = Macro.rothiRewriter ∧
    Ppu.vsldoi = Ppu.vsldoiRewriter

/-
  What the bits of a mask are gathered to, from the preferred
  word the mask was made of.
-/
def MasksGather (ra rt rt' : BitVec 7) (r : RegisterFile) : Prop :=
  Sets rt' (gathered 16 ((r ra).w 0)) (Macro.fsmb ra rt r)
      (Macro.gbb rt rt' (Macro.fsmb ra rt r)) ∧
    Sets rt' (gathered 8 ((r ra).w 0)) (Macro.fsmh ra rt r)
      (Macro.gbh rt rt' (Macro.fsmh ra rt r)) ∧
    Sets rt' (gathered 4 ((r ra).w 0)) (Macro.fsm ra rt r)
      (Macro.gb rt rt' (Macro.fsm ra rt r))

theorem strided_8_7 :
    Strided 8 7 0x8080808080808080#64 :=
  ⟨by decide, by decide⟩

theorem strided_8 : Strided 8 0 0x0101010101010101#64 :=
  ⟨by decide, by decide⟩

theorem strided_16 : Strided 16 0 0x0001000100010001#64 :=
  ⟨by decide, by decide⟩

theorem strided_32 : Strided 32 0 0x0000000100000001#64 :=
  ⟨by decide, by decide⟩

/- Both halves of a vector get their half of the bits. -/
theorem lane_deposit
    {w m b : Nat}
    {mask hi lo : BitVec 64}
    {x : BitVec 32}
    (hMask : Strided w b mask)
    (hWidth : w * m = 64)
    (hB : b < w)
    (hLo : ∀ i < m, lo.getLsbD i = x.getLsbD i)
    (hHi : ∀ i < m, hi.getLsbD i = x.getLsbD (m + i))
    {i : Nat}
    (hI : i < 2 * m) :
    lane w (setEpi64x (pdep64 hi mask) (pdep64 lo mask)) i =
      if x.getLsbD i then BitVec.twoPow w b else 0#w := by
  have hIn : ∀ j < m, w * (j + 1) ≤ 64 := by
    intro j hJ
    rw [← hWidth]
    exact Nat.mul_le_mul_left w hJ
  rw [lane_setEpi64x hWidth]
  by_cases hLow : i < m
  · rw [if_pos hLow,
      lane_pdep64 hMask lo (hIn i hLow) hB, hLo i hLow]
  · have hIndex : m + (i - m) = i := by omega
    have hHigh : i - m < m := by omega
    rw [if_neg hLow,
      lane_pdep64 hMask hi (hIn _ hHigh) hB, hHi _ hHigh,
      hIndex]

/- The low bits of a word, and those above them. -/
theorem getLsbD_low
    (a : BitVec 32)
    {m i : Nat}
    (hM : m ≤ 8)
    (hI : i < m) :
    ((a &&& BitVec.ofNat 32 (2 ^ m - 1)).signExtend
        64).getLsbD i =
      a.getLsbD i := by
  have hWord : i < 32 := by omega
  have hLong : i < 64 := by omega
  rw [BitVec.getLsbD_signExtend, BitVec.getLsbD_and,
    BitVec.getLsbD_ofNat, Nat.testBit_two_pow_sub_one]
  simp [hWord, hLong, hI]

theorem getLsbD_high
    (a : BitVec 32)
    {m i : Nat}
    (hM : m ≤ 8)
    (hI : i < m) :
    ((a.sshiftRight m &&&
          BitVec.ofNat 32 (2 ^ m - 1)).signExtend
        64).getLsbD i =
      a.getLsbD (m + i) := by
  have hWord : i < 32 := by omega
  have hShifted : m + i < 32 := by omega
  rw [getLsbD_low _ hM hI, BitVec.getLsbD_sshiftRight]
  simp [hWord, hShifted]

/- A comparison with zero makes ones of every bit. -/
theorem laneBE_select
    {w k m : Nat}
    {mask : BitVec 64}
    (hMask : Strided w 0 mask)
    (hWidth : w * m = 64)
    (hHalf : k = 2 * m)
    (hM : m ≤ 8)
    (hPositive :
      ∀ c : Bool,
        (if (0#w).slt
            (if c then BitVec.twoPow w 0 else 0#w) then
          BitVec.allOnes w
        else 0#w) =
          if c then BitVec.allOnes w else 0#w)
    (a : BitVec 32)
    {n : Nat}
    (hN : n < k) :
    laneBE w k
        (cmpgt w k
          (setEpi64x
            (pdep64
              ((a.sshiftRight m &&&
                BitVec.ofNat 32 (2 ^ m - 1)).signExtend 64)
              mask)
            (pdep64
              ((a &&& BitVec.ofNat 32 (2 ^ m - 1)).signExtend
                64)
              mask))
          0#128)
        n =
      selectedLane w k a n := by
  have hI : k - 1 - n < k := by omega
  have hW : 0 < w := by
    apply Nat.pos_of_ne_zero
    rintro rfl
    omega
  rw [laneBE, lane_cmpgt w k _ _ hI, lane_zero,
    lane_deposit hMask hWidth hW
      (fun i hI => getLsbD_low a hM hI)
      (fun i hI => getLsbD_high a hM hI) (by omega)]
  exact hPositive _

------------------------------------------------------------
-- Masks From Bits
------------------------------------------------------------

section Instructions

variable (ra rt : BitVec 7) (r : RegisterFile)

theorem sets_fsmb :
    Sets rt (bytes (selectedLane 8 16 ((r ra).w 0))) r
      (Macro.fsmb ra rt r) :=
  sets_setXmm fun _ hN =>
    @laneBE_select 8 16 8 _ strided_8 rfl rfl (by decide)
      (by decide) _ _ hN

theorem sets_fsmh :
    Sets rt (halfwords (selectedLane 16 8 ((r ra).w 0))) r
      (Macro.fsmh ra rt r) :=
  sets_setXmm fun _ hN =>
    @laneBE_select 16 8 4 _ strided_16 rfl rfl (by decide)
      (by decide) _ _ hN

theorem sets_fsm :
    Sets rt (words (selectedLane 32 4 ((r ra).w 0))) r
      (Macro.fsm ra rt r) :=
  sets_setXmm fun _ hN =>
    @laneBE_select 32 4 2 _ strided_32 rfl rfl (by decide)
      (by decide) _ _ hN

/- The sign bits of the bytes are deposited. -/
theorem sets_fsmbi (i : BitVec 32) :
    Sets rt (bytes (selectedLane 8 16 i)) r
      (Macro.fsmbi rt i r) := by
  have hNegative :
      ∀ c : Bool,
        (if (if c then BitVec.twoPow 8 7 else 0#8).slt 0#8 then
          BitVec.allOnes 8
        else 0#8) =
          if c then BitVec.allOnes 8 else 0#8 := by
    decide
  have hLo :
      ∀ j < 8, (i.setWidth 64).getLsbD j = i.getLsbD j := by
    intro j hJ
    have hLong : j < 64 := by omega
    rw [BitVec.getLsbD_setWidth]
    simp [hLong]
  have hHi :
      ∀ j < 8,
        ((i >>> 8).setWidth 64).getLsbD j =
          i.getLsbD (8 + j) := by
    intro j hJ
    have hLong : j < 64 := by omega
    rw [BitVec.getLsbD_setWidth, BitVec.getLsbD_ushiftRight]
    simp [hLong]
  apply sets_setXmm
  intro n hN
  have hI : 16 - 1 - n < 16 := by omega
  refine (lane_cmpgt 8 16 _ _ hI).trans ?_
  rw [lane_zero,
    lane_deposit strided_8_7 rfl (by decide) hLo hHi hI]
  exact hNegative _

theorem and_twoPow_ne_zero_iff
    {w : Nat}
    (x : BitVec w)
    {j : Nat}
    (hJ : j < w) :
    x &&& BitVec.twoPow w j ≠ 0#w ↔ x.getLsbD j = true := by
  have hBit : BitVec.twoPow w j ≠ 0#w := by
    intro hZero
    have hAt := congrArg (fun v => v.getLsbD j) hZero
    simp [hJ] at hAt
  rw [BitVec.and_twoPow]
  cases x.getLsbD j with
  | false => simp
  | true => simpa using hBit

/- The bits that are tested, the first byte first. -/
def fsmbiBits : List (BitVec 32) :=
  (List.range 16).map (fun n => BitVec.twoPow 32 (15 - n))

theorem sets_fsmbiRewriter (i : BitVec 32) :
    Sets rt (bytes (selectedLane 8 16 i)) r
      (Macro.fsmbiRewriter rt i r) := by
  have hList :
      Macro.fsmbiRewriter rt i r =
        r.setXmm rt
          (setEpi8
            (fsmbiBits.map (fun bit =>
              if i &&& bit ≠ 0#32 then 0xff#8 else 0#8))) :=
    rfl
  rw [hList]
  apply sets_setXmm
  intro n (hN : n < 16)
  have hTest := and_twoPow_ne_zero_iff i (show 15 - n < 32 by omega)
  refine (Ppu.laneBE_setEpi8 _ hN).trans ?_
  rw [List.getD_eq_getElem _ _ (by simpa [fsmbiBits] using hN)]
  simp only [fsmbiBits, List.getElem_map, List.getElem_range]
  rw [if_congr hTest rfl rfl]
  rfl

end Instructions

------------------------------------------------------------
-- Bits From Masks
------------------------------------------------------------

section Gather

variable {rt rt' : BitVec 7} {r : RegisterFile}

/- Every word is written. -/
theorem sets_gather
    {bits value : BitVec 32}
    (hBits : bits = value) :
    Sets rt
      (words fun n => if n = 0 then value else 0#32) r
      (Macro.gather rt bits r) := by
  subst hBits
  apply sets_setXmm
  intro n (hN : n < 4)
  change laneBE 32 4 _ n = if n = 0 then bits else 0#32
  rw [R128.set_w, R128.set_w, R128.set_w, R128.set_w,
    laneBE_setLane 32 4 _ (by decide) hN,
    laneBE_setLane 32 4 _ (by decide) hN,
    laneBE_setLane 32 4 _ (by decide) hN,
    laneBE_setLane 32 4 _ (by decide) hN]
  by_cases hFirst : n = 0
  · subst hFirst
    rfl
  · have hOther : n = 1 ∨ n = 2 ∨ n = 3 := by omega
    rcases hOther with rfl | rfl | rfl <;> rfl

variable {x : BitVec 32}

theorem bitset_eq
    {k : Nat}
    {lane : Nat → Bool}
    (hLane : ∀ n < k, lane n = x.getLsbD (k - 1 - n)) :
    Macro.bitset k lane =
      x &&& BitVec.ofNat 32 (2 ^ k - 1) := by
  apply BitVec.eq_of_getLsbD_eq
  intro j hJ
  rw [Macro.bitset, BitVec.getLsbD_setWidth,
    BitVec.getLsbD_and, BitVec.getLsbD_ofNat,
    Nat.testBit_two_pow_sub_one]
  by_cases hIn : j < k
  · have hPos : 1 * j + 0 = j := by omega
    have hIndex : k - 1 - (k - 1 - j) = j := by omega
    have hBit := hLane (k - 1 - j) (by omega)
    rw [hIndex] at hBit
    rw [← hPos, getLsbD_pack 1 k _ hIn (by decide), hPos,
      hBit]
    simp [hJ, hIn]
  · have hNone :=
      BitVec.getLsbD_of_ge
        (pack 1 k (fun j => BitVec.ofBool (lane (k - 1 - j))))
        j (by omega)
    rw [hNone]
    simp [hIn]

/- The last bits of the lanes of a mask. -/
theorem bitset_select
    {w k : Nat}
    {lane : Nat → BitVec w}
    (hLast :
      ∀ c : Bool,
        ((if c then BitVec.allOnes w else 0#w) &&& 1#w !=
          0#w) = c)
    (hMask : ∀ n < k, lane n = selectedLane w k x n) :
    Macro.bitset k (fun n => lane n &&& 1#w != 0#w) =
      x &&& BitVec.ofNat 32 (2 ^ k - 1) := by
  apply bitset_eq
  intro n hN
  rw [hMask n hN]
  exact hLast _

theorem sets_gbb
    (hMask :
      ∀ n < 16, (r rt).b n = selectedLane 8 16 x n) :
    Sets rt' (gathered 16 x) r (Macro.gbb rt rt' r) :=
  sets_gather (bitset_select (by decide) hMask)

theorem sets_gbh
    (hMask :
      ∀ n < 8, (r rt).hw n = selectedLane 16 8 x n) :
    Sets rt' (gathered 8 x) r (Macro.gbh rt rt' r) :=
  sets_gather (bitset_select (by decide) hMask)

theorem sets_gb
    (hMask :
      ∀ n < 4, (r rt).w n = selectedLane 32 4 x n) :
    Sets rt' (gathered 4 x) r (Macro.gb rt rt' r) :=
  sets_gather (bitset_select (by decide) hMask)

end Gather

------------------------------------------------------------
-- Bodies of Rewritten Code
------------------------------------------------------------

section Variants

variable (ra rt : BitVec 7) (i : BitVec 32)
  (r : RegisterFile)

theorem sets_shlqbyi :
    Sets rt (quad (r ra <<< (8 * (i &&& 0b11111#32).toNat))) r
      (Macro.shlqbyi ra rt i r) := by
  have hCount : (i &&& 0b11111#32).toNat = i.toNat % 32 :=
    Masks.toNat_and_low i 5 (by decide)
  have hLt : (i &&& 0b11111#32).toNat < 32 := by
    rw [hCount]
    exact Nat.mod_lt _ (by decide)
  exact sets_shiftLeftByBytes rfl hLt r

theorem sets_shlqbyiRewriter :
    Sets rt (quad (r ra <<< (8 * (i &&& 0b11111#32).toNat))) r
      (Macro.shlqbyiRewriter ra rt i r) := by
  unfold Macro.shlqbyiRewriter
  dsimp only
  split
  case isTrue hAll =>
    have hPast : 15 < (i &&& 0b11111#32).toNat := hAll
    exact
      sets_quad (BitVec.shiftLeft_eq_zero (by omega)).symm r
  case isFalse => exact sets_quad rfl r

/- Two shifts make a rotation, also one by 0. -/
theorem rotate_shifts (x : BitVec 16) :
    x <<< (i &&& 0b1111#32).toNat |||
        x >>> (-(i &&& 0b1111#32) &&& 0b1111#32).toNat =
      rol x (i &&& 0b1111#32) := by
  have hCount : (i &&& 0b1111#32).toNat = i.toNat % 16 :=
    Masks.toNat_and_low i 4 (by decide)
  have hOpposite :
      (-(i &&& 0b1111#32) &&& 0b1111#32).toNat =
        (-(i &&& 0b1111#32)).toNat % 16 :=
    Masks.toNat_and_low (-(i &&& 0b1111#32)) 4 (by decide)
  rw [rol_16, BitVec.rotateLeft_def, hOpposite, BitVec.toNat_neg,
    hCount, Nat.mod_mod]
  by_cases hZero : i.toNat % 16 = 0
  · have hNone : x >>> 16 = 0#16 :=
      BitVec.ushiftRight_eq_zero (by decide)
    rw [hZero, Nat.sub_zero, hNone]
    simp
  · have hCounts :
        (2 ^ 32 - i.toNat % 16) % 2 ^ 32 % 16 =
          16 - i.toNat % 16 := by
      omega
    rw [hCounts]

theorem sets_rothi :
    Sets rt
      (halfwords fun n =>
        rol (halfword (r ra) n) (i &&& 0b1111#32))
      r (Macro.rothi ra rt i r) :=
  sets_halfwords (fun _ => rfl) r

theorem sets_rothiRewriter :
    Sets rt
      (halfwords fun n =>
        rol (halfword (r ra) n) (i &&& 0b1111#32))
      r (Macro.rothiRewriter ra rt i r) := by
  apply sets_setXmm
  intro n (hN : n < 8)
  have hI : 8 - 1 - n < 8 := by omega
  change
    laneBE 16 8 ((slli 16 8 _ _ : R128) ||| srli 16 8 _ _) n =
      rol (halfword (r ra) n) _
  rw [laneBE, lane_or, slli, srli,
    lane_mapLanes 16 8 _ _ hI, lane_mapLanes 16 8 _ _ hI]
  exact rotate_shifts i _

end Variants

theorem variantsAgree : VariantsAgree := by
  refine ⟨?_, ?_, ?_, ?_⟩
  · funext rt i r
    exact
      sets_unique (sets_fsmbi rt r i)
        (sets_fsmbiRewriter rt r i)
  · funext ra rt i r
    exact
      sets_unique (sets_shlqbyi ra rt i r)
        (sets_shlqbyiRewriter ra rt i r)
  · funext ra rt i r
    exact
      sets_unique (sets_rothi ra rt i r)
        (sets_rothiRewriter ra rt i r)
  · funext shb a b
    exact (Ppu.vsldoiRewriter_eq shb a b).symm

theorem masksGather
    (ra rt rt' : BitVec 7)
    (r : RegisterFile) :
    MasksGather ra rt rt' r :=
  ⟨sets_gbb (lanes_of_sets (sets_fsmb ra rt r)),
    sets_gbh (lanes_of_sets (sets_fsmh ra rt r)),
    sets_gb (lanes_of_sets (sets_fsm ra rt r))⟩

/-
  The bodies agree, a mask from a number is the mask from a
  register, and the bits of a mask are gathered again.
-/
theorem variants_agree :
    VariantsAgree ∧
      (∀ (ra rt : BitVec 7) (r : RegisterFile),
        Macro.fsmbi rt ((r ra).w 0) r =
          Macro.fsmb ra rt r) ∧
      ∀ (ra rt rt' : BitVec 7) (r : RegisterFile),
        MasksGather ra rt rt' r := by
  refine ⟨variantsAgree, ?_, masksGather⟩
  intro ra rt r
  exact
    sets_unique (sets_fsmbi rt r ((r ra).w 0))
      (sets_fsmb ra rt r)

end Spu

end Ps3emu
