import Ps3emu.Spu.Storage

/-
  The shuffle of the bytes of two registers, in vectors and
  byte by byte.

  Key definitions include:
    * `shuffledByte`
    * `Macro.shufbLoop`

  Key theorems include:
    * `byte_shufb`
    * `shufb_exact`
-/

------------------------------------------------------------
-- The Architecture and Control Bytes
------------------------------------------------------------

namespace Ps3emu

namespace Spu

open Lanes Sse
open Ppu (LaneSpec bytes byte permByte vperm)

/-
  A control byte is a constant by its high bits, or the
  number of a byte of both registers.
-/
def shuffledByte
    (a b : R128)
    (c : BitVec 8) : BitVec 8 :=
  if c.extractLsb' 6 2 = 0b10#2 then 0x00#8
  else if c.extractLsb' 5 3 = 0b110#3 then 0xff#8
  else if c.extractLsb' 5 3 = 0b111#3 then 0x80#8
  else permByte a b c

/- The body in the comment.  Its control is a reference. -/
def Macro.shufbLoop
    (ra rb rc rt : BitVec 7)
    (r : RegisterFile) : RegisterFile :=
  let a := r ra
  let b := r rb
  eachB rt
    (fun r i =>
      let c := (r rc).b i
      let idx := c &&& 0b11111#8
      if c &&& 0b11000000#8 = 0b10000000#8 then 0#8
      else if c &&& 0b11100000#8 = 0b11000000#8 then 0xff#8
      else if c &&& 0b11100000#8 = 0b11100000#8 then 0x80#8
      else if idx < 16#8 then a.b idx.toNat
      else b.b (idx % 16#8).toNat)
    r

/- The tests of the loop on a control byte. -/
theorem loop_tests (c : BitVec 8) :
    (c &&& 0b11000000#8 = 0b10000000#8 ↔
        c.extractLsb' 6 2 = 0b10#2) ∧
      (c &&& 0b11100000#8 = 0b11000000#8 ↔
        c.extractLsb' 5 3 = 0b110#3) ∧
      (c &&& 0b11100000#8 = 0b11100000#8 ↔
        c.extractLsb' 5 3 = 0b111#3) := by
  revert c
  decide

theorem loop_index (c : BitVec 8) :
    (c &&& 0b11111#8).toNat = c.toNat % 32 ∧
      ((c &&& 0b11111#8) % 16#8).toNat =
        c.toNat % 32 % 16 := by
  have hMask := @Masks.toNat_and_low 8 c 5 (by decide)
  refine ⟨hMask, ?_⟩
  rw [BitVec.toNat_umod]
  exact congrArg (fun k => k % 16) hMask

/- The constants, at the top three bits of a control byte. -/
def constants (k : BitVec 8) : BitVec 8 :=
  lane 8 (set1 32 4 0x80ff0000#32) (k &&& 15#8).toNat

theorem constants_eq (c : BitVec 8) :
    c.msb = true →
      constants (c >>> 5) =
        if c.extractLsb' 6 2 = 0b10#2 then 0x00#8
        else if c.extractLsb' 5 3 = 0b110#3 then 0xff#8
        else 0x80#8 := by
  revert c
  decide

theorem top_bits (c : BitVec 8) :
    (c >>> 5).msb = false ∧
      (c.msb = true ↔
        c.extractLsb' 6 2 = 0b10#2 ∨
          c.extractLsb' 5 3 = 0b110#3 ∨
          c.extractLsb' 5 3 = 0b111#3) := by
  revert c
  decide

theorem slt_zero_msb (c : BitVec 8) :
    (if c.slt 0#8 then BitVec.allOnes 8 else 0#8).msb =
      c.msb := by
  revert c
  decide

/- A constant where the sign is set, otherwise a byte. -/
theorem shuffledByte_eq
    (a b : R128)
    (c : BitVec 8) :
    shuffledByte a b c =
      if c.msb then constants (c >>> 5)
      else permByte a b c := by
  have hMsb := (top_bits c).2
  unfold shuffledByte
  by_cases hSign : c.msb = true
  · rw [if_pos hSign, constants_eq c hSign]
    split
    case isTrue => rfl
    case isFalse hFirst =>
      split
      case isTrue => rfl
      case isFalse hSecond =>
        have hThird : c.extractLsb' 5 3 = 0b111#3 := by
          simpa only [hFirst, hSecond, false_or] using
            hMsb.mp hSign
        rw [if_pos hThird]
  · rw [hMsb, not_or, not_or] at hSign
    have hClear : ¬ c.msb = true := by
      rw [hMsb, not_or, not_or]
      exact hSign
    rw [if_neg hSign.1, if_neg hSign.2.1, if_neg hSign.2.2,
      if_neg hClear]

------------------------------------------------------------
-- Vectors
------------------------------------------------------------

/- A shift inside a doubleword, then a mask in each byte. -/
theorem lane_shift_mask
    (v : BitVec 64)
    (e : Nat) :
    lane 8 (v >>> 5) e &&& 0b111#8 = lane 8 v e >>> 5 := by
  have hMask :
      ∀ j < 8, (0b111#8).getLsbD j = decide (5 + j < 8) := by
    decide
  apply BitVec.eq_of_getLsbD_eq
  intro j hJ
  have hPos : 5 + (8 * e + j) = 8 * e + (5 + j) := by omega
  rw [BitVec.getLsbD_and, getLsbD_lane,
    BitVec.getLsbD_ushiftRight, hMask j hJ,
    BitVec.getLsbD_ushiftRight, getLsbD_lane, hPos]
  simp only [hJ, decide_true, Bool.true_and]
  exact Bool.and_comm _ _

theorem lane_topBits
    (c : R128)
    {i : Nat}
    (hI : i < 16) :
    lane 8
        ((srli 64 2 5 c : R128) &&& set1 8 16 0b111#8) i =
      lane 8 c i >>> 5 := by
  have hIndex : 8 * (i / 8) + i % 8 = i := Nat.div_add_mod i 8
  have hByte : i % 8 < 8 := Nat.mod_lt i (by decide)
  have hShift :=
    @lane_lane 128 8 8 (srli 64 2 5 c) (i / 8) _ hByte
  have hWhole := @lane_lane 128 8 8 c (i / 8) _ hByte
  rw [hIndex] at hShift hWhole
  rw [lane_and, lane_set1 8 16 _ hI, ← hShift, ← hWhole]
  have hMap :=
    lane_mapLanes 64 2 (fun a => a >>> 5) c
      (show i / 8 < 2 by omega)
  refine
    (congrArg (fun v => lane 8 v (i % 8) &&& 0b111#8)
      hMap).trans ?_
  exact lane_shift_mask _ _

/- The bits above the number of a byte do not matter. -/
theorem permByte_and
    (a b : R128)
    (c : BitVec 8) :
    permByte a b (c &&& 0b11111#8) = permByte a b c := by
  unfold permByte
  rw [(loop_index c).1, Nat.mod_mod]

/- One shuffle looks up bytes, and another the constants. -/
theorem byte_shufb
    (ra rb rc rt : BitVec 7)
    (r : RegisterFile)
    {n : Nat}
    (hN : n < 16) :
    byte (Macro.shufb ra rb rc rt r rt) n =
      shuffledByte (r ra) (r rb) (byte (r rc) n) := by
  have hI : 16 - 1 - n < 16 := by omega
  have hShape :
      Macro.shufb ra rb rc rt r rt =
        blendvEpi8
          (vperm (r ra) (r rb)
            (r rc &&& set1 8 16 0b11111#8))
          (shuffleEpi8 (set1 32 4 0x80ff0000#32)
            ((srli 64 2 5 (r rc) : R128) &&&
              set1 8 16 0b111#8))
          (cmpgt 8 16 0#128 (r rc)) :=
    Function.update_self _ _ _
  have hLow :
      laneBE 8 16 (r rc &&& set1 8 16 0b11111#8) n =
        byte (r rc) n &&& 0b11111#8 := by
    refine (lane_and 8 (r rc) _ _).trans ?_
    rw [lane_set1 8 16 _ hI]
    rfl
  have hSmall :
      (laneBE 8 16 (r rc &&& set1 8 16 0b11111#8) n).toNat <
        32 := by
    rw [hLow, (loop_index _).1]
    exact Nat.mod_lt _ (by decide)
  have hPerm :=
    Ppu.laneBE_vperm_of_lt (r ra) (r rb) _ hN hSmall
  rw [hLow, permByte_and] at hPerm
  rw [hShape, byte, laneBE, lane_blendvEpi8 _ _ _ hI,
    lane_cmpgt 8 16 _ _ hI, lane_zero, slt_zero_msb,
    lane_shuffleEpi8 _ _ hI, lane_topBits _ hI,
    (top_bits _).1, if_neg Bool.false_ne_true,
    shuffledByte_eq]
  rw [laneBE] at hPerm
  rw [hPerm]
  rfl

/- The bytes of the loop. -/
theorem loop_byte
    (a b : R128)
    (c : BitVec 8) :
    (if c &&& 0b11111#8 < 16#8 then
        a.b (c &&& 0b11111#8).toNat
      else b.b ((c &&& 0b11111#8) % 16#8).toNat) =
      permByte a b c := by
  have hIndex := loop_index c
  have hLow :
      c &&& 0b11111#8 < 16#8 ↔ c.toNat % 32 < 16 := by
    rw [BitVec.lt_def, hIndex.1]
    rfl
  rw [if_congr hLow rfl rfl, hIndex.1, hIndex.2]
  unfold permByte
  split
  case isTrue => rfl
  case isFalse hAbove =>
    have hSub : c.toNat % 32 % 16 = c.toNat % 32 - 16 := by
      omega
    rw [hSub]
    rfl

------------------------------------------------------------
-- Registers
------------------------------------------------------------

section Registers

variable (ra rb rc rt : BitVec 7) (r : RegisterFile)

/- The bytes that both bodies compute. -/
def shuffledBytes : LaneSpec :=
  bytes fun n => shuffledByte (r ra) (r rb) (byte (r rc) n)

theorem sets_shufb :
    Sets rt (shuffledBytes ra rb rc r) r
      (Macro.shufb ra rb rc rt r) := by
  apply sets_setXmm
  intro n hN
  have hByte := byte_shufb ra rb rc rt r hN
  rw [Macro.shufb, RegisterFile.setXmm,
    Function.update_self] at hByte
  exact hByte

/- The loop reads a control byte before it is overwritten. -/
theorem sets_shufbLoop :
    Sets rt (shuffledBytes ra rb rc r) r
      (Macro.shufbLoop ra rb rc rt r) := by
  apply sets_eachB
  intro n _ r' hSame
  have hControl : R128.b (r' rc) n = byte (r rc) n :=
    untouched_lane hSame rc
  have hTests := loop_tests (byte (r rc) n)
  dsimp only
  rw [hControl, if_congr hTests.1 rfl rfl,
    if_congr hTests.2.1 rfl rfl, if_congr hTests.2.2 rfl rfl,
    loop_byte]
  rfl

end Registers

/-
  The bytes are those of the architecture and those of the
  loop, whatever the registers are.
-/
theorem shufb_exact (base : Env (FlatMemory 18)) :
    (∀ (x : BitVec 32) (cia : BitVec 64)
        (t : Thread (FlatMemory 18)),
        Yields
          (some
            (shuffledBytes (ra x) (rb x) (rc x) t.regs.r))
          (rtAbc x) t
          (emulateInstr (spuEnv base) (.compute .shufb) x cia
            t)) ∧
      Macro.shufb = Macro.shufbLoop := by
  constructor
  · intro x cia t
    refine (yields_iff base rfl cia t _ _).mpr ?_
    intro s hSpec
    cases hSpec
    exact sets_shufb _ _ _ _ _
  · funext ra rb rc rt r
    exact
      sets_unique (sets_shufb ra rb rc rt r)
        (sets_shufbLoop ra rb rc rt r)

end Spu

end Ps3emu
