import Ps3emu.Ppu.VectorMemory

/-
  Vectors at addresses that are not aligned, from two loads
  of aligned memory and a permutation.

  Key definitions include:
    * `vectorAt`
    * `permByte`
    * `UnalignedAccess`, `Selects`

  Key theorems include:
    * `laneBE_vperm`
    * `unalignedAccess`
    * `unaligned_selects_iff`
-/

------------------------------------------------------------
-- Permutations
------------------------------------------------------------

namespace Ps3emu

namespace Ppu

open Lanes Sse

/- Byte `c & 31` of one vector followed by another. -/
def permByte
    (a b : M128)
    (c : BitVec 8) : BitVec 8 :=
  if c.toNat % 32 < 16 then laneBE 8 16 a (c.toNat % 32)
  else laneBE 8 16 b (c.toNat % 32 - 16)

/- The tests of `vperm` on a control byte. -/
theorem vperm_tests (c : BitVec 8) :
    (15#8).slt (31#8 - c) =
        decide (c.toNat < 16 ∨ 160 ≤ c.toNat) ∧
      (31#8 - c).msb =
        decide (32 ≤ c.toNat ∧ c.toNat < 160) ∧
      ((31#8 - c) &&& 15#8).toNat = 15 - c.toNat % 16 := by
  revert c
  decide

theorem vperm_high_tests
    (c : BitVec 8)
    (hHigh : c.toNat < 16 ∨ 160 ≤ c.toNat) :
    (31#8 - c - 16#8).msb = false ∧
      ((31#8 - c - 16#8) &&& 15#8).toNat =
        15 - c.toNat % 16 := by
  revert c
  decide

variable {n : Nat}

/-
  A control that is below 32 selects its byte.  One from 32
  on clears, or selects a byte of the first vector.
-/
theorem laneBE_vperm
    (a b c : M128)
    (hN : n < 16) :
    laneBE 8 16 (vperm a b c) n =
      if (laneBE 8 16 c n).toNat < 16 ∨
          160 ≤ (laneBE 8 16 c n).toNat then
        laneBE 8 16 a ((laneBE 8 16 c n).toNat % 16)
      else if (laneBE 8 16 c n).toNat < 32 then
        laneBE 8 16 b ((laneBE 8 16 c n).toNat % 16)
      else 0#8 := by
  have hI : 16 - 1 - n < 16 := by omega
  have hControl :
      lane 8 (sub 8 16 (set1 8 16 31#8) c) (16 - 1 - n) =
        31#8 - laneBE 8 16 c n := by
    rw [lane_sub 8 16 _ _ hI, lane_set1 8 16 _ hI]
    rfl
  have hTests := vperm_tests (laneBE 8 16 c n)
  have hGt :
      (lane 8
          (cmpgt 8 16 (sub 8 16 (set1 8 16 31#8) c)
            (set1 8 16 15#8)) (16 - 1 - n)).msb =
        (15#8).slt (31#8 - laneBE 8 16 c n) := by
    rw [lane_cmpgt 8 16 _ _ hI, hControl,
      lane_set1 8 16 _ hI]
    split
    case isTrue hSlt => rw [hSlt]; decide
    case isFalse hSlt =>
      rw [Bool.eq_false_iff.mpr hSlt]
      decide
  have hSecond :
      lane 8
          (sub 8 16 (sub 8 16 (set1 8 16 31#8) c)
            (set1 8 16 16#8)) (16 - 1 - n) =
        31#8 - laneBE 8 16 c n - 16#8 := by
    rw [lane_sub 8 16 _ _ hI, hControl,
      lane_set1 8 16 _ hI]
  unfold vperm
  rw [laneBE]
  rw [lane_blendvEpi8 _ _ _ hI, hGt, hTests.1,
    lane_shuffleEpi8 _ _ hI, lane_shuffleEpi8 _ _ hI,
    hControl, hSecond, hTests.2.1, hTests.2.2]
  by_cases hHigh :
      (laneBE 8 16 c n).toNat < 16 ∨
        160 ≤ (laneBE 8 16 c n).toNat
  · have hTests' := vperm_high_tests _ hHigh
    rw [hTests'.1, hTests'.2, if_pos hHigh]
    simp only [hHigh, decide_true, if_true,
      Bool.false_eq_true, if_false]
    rfl
  · rw [if_neg hHigh]
    simp only [hHigh, decide_false, Bool.false_eq_true,
      if_false]
    by_cases hLow : (laneBE 8 16 c n).toNat < 32
    · have hNot :
          ¬ (32 ≤ (laneBE 8 16 c n).toNat ∧
            (laneBE 8 16 c n).toNat < 160) := by
        omega
      rw [if_pos hLow]
      simp only [hNot, decide_false, Bool.false_eq_true,
        if_false]
      rfl
    · have hIn :
          32 ≤ (laneBE 8 16 c n).toNat ∧
            (laneBE 8 16 c n).toNat < 160 := by
        omega
      rw [if_neg hLow]
      simp only [hIn, and_self, decide_true, if_true]

theorem laneBE_vperm_of_lt
    (a b c : M128)
    (hN : n < 16)
    (hControl : (laneBE 8 16 c n).toNat < 32) :
    laneBE 8 16 (vperm a b c) n =
      permByte a b (laneBE 8 16 c n) := by
  have hMod :
      (laneBE 8 16 c n).toNat % 32 =
        (laneBE 8 16 c n).toNat :=
    Nat.mod_eq_of_lt hControl
  rw [laneBE_vperm a b c hN, permByte, hMod]
  by_cases hLow : (laneBE 8 16 c n).toNat < 16
  · rw [if_pos (.inl hLow), if_pos hLow,
      Nat.mod_eq_of_lt hLow]
  · have hSub :
        (laneBE 8 16 c n).toNat % 16 =
          (laneBE 8 16 c n).toNat - 16 := by
      omega
    rw [if_neg (by omega), if_neg hLow, if_pos hControl, hSub]

------------------------------------------------------------
-- Tables and Loads
------------------------------------------------------------

theorem laneBE_lvslTable :
    ∀ s < 16, ∀ n < 16,
      laneBE 8 16 (lvslTable.getD s 0#128) n =
        BitVec.ofNat 8 (s + n) := by
  decide

theorem laneBE_lvsrTable :
    ∀ s < 16, ∀ n < 16,
      laneBE 8 16 (lvsrTable.getD s 0#128) n =
        BitVec.ofNat 8 (16 - s + n) := by
  decide

theorem lane_endianSwapMask128 :
    ∀ i < 16,
      lane 8 endianSwapMask128 i =
        BitVec.ofNat 8 (15 - i) := by
  decide

theorem toNat_and_15 (ea : BitVec 64) :
    (ea &&& 15#64).toNat = ea.toNat % 16 :=
  Masks.toNat_and_low ea 4 (by omega)

theorem laneBE_lvslAt
    (ea : BitVec 64)
    (hN : n < 16) :
    laneBE 8 16 (lvslAt ea) n =
      BitVec.ofNat 8 (ea.toNat % 16 + n) := by
  rw [lvslAt, toNat_and_15]
  exact laneBE_lvslTable _ (Nat.mod_lt _ (by decide)) n hN

theorem laneBE_lvsrAt
    (ea : BitVec 64)
    (hN : n < 16) :
    laneBE 8 16 (lvsrAt ea) n =
      BitVec.ofNat 8 (16 - ea.toNat % 16 + n) := by
  rw [lvsrAt, toNat_and_15]
  exact laneBE_lvsrTable _ (Nat.mod_lt _ (by decide)) n hN

/- Bytes that come from host memory are turned around. -/
theorem laneBE_swapped
    (bytes : List Byte)
    (hN : n < 16) :
    laneBE 8 16
        (shuffleEpi8 (ofHostBytes bytes) endianSwapMask128)
        n =
      bytes.getD n 0 := by
  have hI : 16 - 1 - n < 16 := by omega
  have hBack : 15 - (16 - 1 - n) = n := by omega
  have hSelect := select_ofNat hN
  rw [laneBE, lane_shuffleEpi8 _ _ hI,
    lane_endianSwapMask128 _ hI, hBack, hSelect.1, hSelect.2]
  exact lane_pack 8 16 _ hN

/- The vector with the bytes from an address on. -/
def vectorAt
    (mm : MainMemory)
    (ea : BitVec 64) : M128 :=
  Bytes.ofBigEndian 16 (mm.bytesAt (ea.setWidth 32) 16)

theorem laneBE_bytesAt
    (mm : MainMemory)
    (va : Ps3Uintptr)
    (hN : n < 16) :
    laneBE 8 16 (Bytes.ofBigEndian 16 (mm.bytesAt va 16)) n =
      mm.flat (va + BitVec.ofNat 32 n) := by
  rw [laneBE_ofBigEndian (mm.length_bytesAt va 16) hN,
    List.getD_eq_getElem?_getD, mm.getElem?_bytesAt va hN]
  rfl

variable {mm : MainMemory}

/- An address on the page of an allocated address. -/
theorem pointer_of_page
    {va w : Ps3Uintptr}
    (hPage : w.toNat / 1048576 = va.toNat / 1048576)
    (hVa : (mm.getMemoryPointer va).isSome) :
    (mm.getMemoryPointer w).isSome := by
  have hSame :
      VirtualAddress.page w = VirtualAddress.page va := by
    rw [VirtualAddress.page_eq, VirtualAddress.page_eq, hPage]
  unfold MainMemory.getMemoryPointer at hVa ⊢
  rw [hSame, Option.isSome_map]
  rwa [Option.isSome_map] at hVa

theorem toNat_block (ea : BitVec 64) :
    ((ea &&& 0xfffffff0#64).setWidth 32).toNat =
      (ea.setWidth 32).toNat / 16 * 16 := by
  have hMask :
      (ea &&& 0xfffffff0#64).setWidth 32 =
        ea.setWidth 32 &&& 0xfffffff0#32 := by
    rw [BitVec.setWidth_and]
    rfl
  rw [hMask]
  exact Masks.toNat_and_high (ea.setWidth 32) 4 (by omega)

variable {ea : BitVec 64}

/- A load of the block of an address of memory. -/
theorem lvxAt_eq
    (hEa :
      (mm.getMemoryPointer (ea.setWidth 32)).isSome) :
    lvxAt mm ea =
      some
        (Bytes.ofBigEndian 16
          (mm.bytesAt ((ea &&& 0xfffffff0#64).setWidth 32)
            16)) := by
  have hBlock := toNat_block ea
  have hPointer :
      (mm.getMemoryPointer
        ((ea &&& 0xfffffff0#64).setWidth 32)).isSome :=
    pointer_of_page (by rw [hBlock]; omega) hEa
  rcases Option.isSome_iff_exists.mp hPointer with ⟨p, hP⟩
  exact
    load128_eq_bytesAt (inRam_of_pointer hP (by omega))
      (by omega)

theorem readMemory_eq_bytesAt
    {va len : Ps3Uintptr}
    (hRam : Flat.InRam mm va len.toNat) :
    mm.readMemory va len = some (mm.bytesAt va len.toNat) :=
  Flat.readMemory_eq (Flat.agrees_flat mm) va len hRam

theorem getD_bytesAt
    (mm : MainMemory)
    (va : Ps3Uintptr)
    (len n : Nat) :
    (mm.bytesAt va len).getD n 0 =
      if n < len then mm.flat (va + BitVec.ofNat 32 n)
      else 0 := by
  rw [List.getD_eq_getElem?_getD]
  split
  case isTrue hLt =>
    rw [mm.getElem?_bytesAt va hLt]
    rfl
  case isFalse hGe =>
    rw [List.getElem?_eq_none (by simpa using hGe)]
    rfl

/- The bytes up to the end of a block, then zeros. -/
theorem laneBE_lvlxAt
    (hRam : Flat.InRam mm (ea.setWidth 32) 16) :
    ∃ v,
      lvlxAt mm ea = some v ∧
        ∀ n < 16,
          laneBE 8 16 v n =
            if n < 16 - ea.toNat % 16 then
              mm.flat (ea.setWidth 32 + BitVec.ofNat 32 n)
            else 0#8 := by
  have hLow := toNat_and_15 ea
  have hLength :
      ((16#64 - (ea &&& 0b1111#64)).setWidth 32).toNat =
        16 - ea.toNat % 16 := by
    rw [BitVec.toNat_setWidth, BitVec.toNat_sub_of_le, hLow]
    · simp only [BitVec.toNat_ofNat]
      omega
    · rw [BitVec.le_def, hLow]
      simp only [BitVec.toNat_ofNat]
      omega
  have hRead :=
    @readMemory_eq_bytesAt mm (ea.setWidth 32)
      ((16#64 - (ea &&& 0b1111#64)).setWidth 32)
      (fun i hI => hRam i (by omega))
  rw [hLength] at hRead
  refine
    ⟨_, by rw [lvlxAt, hRead, Option.map_some], ?_⟩
  intro n hN
  rw [laneBE_swapped _ hN, getD_bytesAt]
  rfl

/- The offset in its block of the address after a vector. -/
theorem toNat_next_and_15 (ea : BitVec 64) :
    ((ea + 16#64) &&& 0b1111#64).toNat = ea.toNat % 16 := by
  have hEa := ea.isLt
  rw [toNat_and_15, BitVec.toNat_add]
  simp only [BitVec.toNat_ofNat]
  omega

/- The start of the block after an address. -/
theorem nextBlock_eq (ea : BitVec 64) :
    (ea + 16#64 - ((ea + 16#64) &&& 0b1111#64)).setWidth 32 =
      ea.setWidth 32 +
        BitVec.ofNat 32 (16 - ea.toNat % 16) := by
  have hEa := ea.isLt
  apply BitVec.eq_of_toNat_eq
  rw [BitVec.toNat_setWidth, BitVec.toNat_sub,
    toNat_next_and_15, BitVec.toNat_add, BitVec.toNat_add,
    BitVec.toNat_setWidth, BitVec.toNat_ofNat]
  simp only [BitVec.toNat_ofNat]
  omega

/- Zeros, then the bytes from the start of a block on. -/
theorem lvrxAt_eq
    (hRam : Flat.InRam mm (ea.setWidth 32) 16) :
    lvrxAt mm (ea + 16#64) =
      some
        (shuffleEpi8
          (ofHostBytes
            (List.replicate (16 - ea.toNat % 16) 0 ++
              mm.bytesAt
                (ea.setWidth 32 +
                  BitVec.ofNat 32 (16 - ea.toNat % 16))
                (ea.toNat % 16)))
          endianSwapMask128) := by
  have hEa := ea.isLt
  have hLow := toNat_next_and_15 ea
  rw [lvrxAt]
  by_cases hZero : ea.toNat % 16 = 0
  · have hNone : (ea + 16#64) &&& 0b1111#64 = 0#64 := by
      apply BitVec.eq_of_toNat_eq
      rw [hLow, hZero]
      rfl
    simp only [hNone, if_true, Option.map_some, hZero]
    rfl
  · have hSome : (ea + 16#64) &&& 0b1111#64 ≠ 0#64 := by
      intro hEq
      rw [hEq] at hLow
      exact hZero hLow.symm
    have hLength :
        (((ea + 16#64) &&& 0b1111#64).setWidth 32).toNat =
          ea.toNat % 16 := by
      rw [BitVec.toNat_setWidth, hLow]
      omega
    have hRead :=
      @readMemory_eq_bytesAt mm
        ((ea + 16#64 - ((ea + 16#64) &&& 0b1111#64)).setWidth
          32)
        (((ea + 16#64) &&& 0b1111#64).setWidth 32)
        (by
          rw [nextBlock_eq, hLength]
          intro i hI
          exact hRam.drop (16 - ea.toNat % 16) i (by omega))
    rw [hLength, nextBlock_eq] at hRead
    simp only [hSome, if_false, nextBlock_eq, hRead, hLow,
      Option.map_some]

theorem laneBE_lvrxAt
    (hRam : Flat.InRam mm (ea.setWidth 32) 16) :
    ∃ v,
      lvrxAt mm (ea + 16#64) = some v ∧
        ∀ n < 16,
          laneBE 8 16 v n =
            if n < 16 - ea.toNat % 16 then 0#8
            else
              mm.flat
                (ea.setWidth 32 + BitVec.ofNat 32 n) := by
  refine ⟨_, lvrxAt_eq hRam, ?_⟩
  intro n hN
  rw [laneBE_swapped _ hN]
  by_cases hBefore : n < 16 - ea.toNat % 16
  · rw [if_pos hBefore,
      List.getD_append _ _ _ _ (by simpa using hBefore)]
    simp [List.getD_eq_getElem?_getD]
  · have hAddress :
        ea.setWidth 32 +
              BitVec.ofNat 32 (16 - ea.toNat % 16) +
            BitVec.ofNat 32 (n - (16 - ea.toNat % 16)) =
          ea.setWidth 32 + BitVec.ofNat 32 n := by
      rw [BitVec.add_assoc, ← BitVec.ofNat_add]
      congr 2
      omega
    rw [if_neg hBefore,
      List.getD_append_right _ _ _ _ (by simpa using hBefore),
      List.length_replicate, getD_bytesAt, if_pos (by omega),
      hAddress]

------------------------------------------------------------
-- Unaligned Vectors
------------------------------------------------------------

/-
  Two loads give the vector at an address that is not
  aligned, and a permutation of one vector rotates it.
-/
structure UnalignedAccess
    (mm : MainMemory)
    (ea : BitVec 64) : Prop where
  combined :
    ∃ l h,
      lvlxAt mm ea = some l ∧
        lvrxAt mm (ea + 16#64) = some h ∧
        vor l h = vectorAt mm ea
  permuted :
    ∃ l h,
      lvxAt mm ea = some l ∧
        lvxAt mm (ea + 15#64) = some h ∧
        vperm l h (lvslAt ea) = vectorAt mm ea
  rotated :
    ∀ (v : M128), ∀ n < 16,
      laneBE 8 16 (vperm v v (lvsrAt ea)) n =
        laneBE 8 16 v ((n + (16 - ea.toNat % 16)) % 16)

theorem combined_eq
    (hRam : Flat.InRam mm (ea.setWidth 32) 16) :
    ∃ l h,
      lvlxAt mm ea = some l ∧
        lvrxAt mm (ea + 16#64) = some h ∧
        vor l h = vectorAt mm ea := by
  rcases laneBE_lvlxAt hRam with ⟨l, hL, hLeft⟩
  rcases laneBE_lvrxAt hRam with ⟨h, hH, hRight⟩
  refine ⟨l, h, hL, hH, ?_⟩
  apply @eq_of_laneBE 128 8 16 rfl
  intro n hN
  have hOr :
      laneBE 8 16 (vor l h) n =
        laneBE 8 16 l n ||| laneBE 8 16 h n :=
    lane_or 8 l h _
  rw [vectorAt, laneBE_bytesAt mm _ hN, hOr, hLeft n hN,
    hRight n hN]
  by_cases hBefore : n < 16 - ea.toNat % 16
  · rw [if_pos hBefore, if_pos hBefore, BitVec.or_zero]
  · rw [if_neg hBefore, if_neg hBefore, BitVec.zero_or]

/- The last byte of the vector is in the second block. -/
theorem permuted_eq
    (hRam : Flat.InRam mm (ea.setWidth 32) 16) :
    ∃ l h,
      lvxAt mm ea = some l ∧
        lvxAt mm (ea + 15#64) = some h ∧
        vperm l h (lvslAt ea) = vectorAt mm ea := by
  have hEa := ea.isLt
  have hLow :
      (ea.setWidth 32).toNat = ea.toNat % 2 ^ 32 :=
    BitVec.toNat_setWidth _ _
  have hFits := hRam.fits (by decide)
  have hLast :
      (ea + 15#64).setWidth 32 =
        ea.setWidth 32 + BitVec.ofNat 32 15 := by
    rw [BitVec.setWidth_add _ _ (by decide)]
    rfl
  have hFirstPage := hRam 0 (by decide)
  rw [BitVec.add_zero] at hFirstPage
  have hLastPage := hRam 15 (by decide)
  rw [← hLast] at hLastPage
  have hBlock := toNat_block ea
  have hNext := toNat_block (ea + 15#64)
  rw [hLast, toNat_add_ofNat _ 15 (by omega)] at hNext
  refine
    ⟨_, _, lvxAt_eq hFirstPage, lvxAt_eq hLastPage, ?_⟩
  apply @eq_of_laneBE 128 8 16 rfl
  intro n hN
  have hControl :
      (laneBE 8 16 (lvslAt ea) n).toNat =
        ea.toNat % 16 + n := by
    rw [laneBE_lvslAt ea hN, BitVec.toNat_ofNat]
    omega
  have hMod :
      (ea.toNat % 16 + n) % 32 = ea.toNat % 16 + n := by
    omega
  rw [laneBE_vperm_of_lt _ _ _ hN (by omega), permByte,
    hControl, hMod, vectorAt, laneBE_bytesAt mm _ hN]
  by_cases hFirst : ea.toNat % 16 + n < 16
  · rw [if_pos hFirst, laneBE_bytesAt mm _ hFirst]
    congr 1
    apply BitVec.eq_of_toNat_eq
    rw [toNat_add_ofNat _ _ (by omega),
      toNat_add_ofNat _ _ (by omega), hBlock]
    omega
  · rw [if_neg hFirst, laneBE_bytesAt mm _ (by omega)]
    congr 1
    apply BitVec.eq_of_toNat_eq
    rw [toNat_add_ofNat _ _ (by omega),
      toNat_add_ofNat _ _ (by omega), hNext]
    omega

theorem rotated_eq
    (ea : BitVec 64)
    (v : M128)
    (hN : n < 16) :
    laneBE 8 16 (vperm v v (lvsrAt ea)) n =
      laneBE 8 16 v ((n + (16 - ea.toNat % 16)) % 16) := by
  have hControl :
      (laneBE 8 16 (lvsrAt ea) n).toNat =
        16 - ea.toNat % 16 + n := by
    rw [laneBE_lvsrAt ea hN, BitVec.toNat_ofNat]
    omega
  rw [laneBE_vperm_of_lt _ _ _ hN (by omega), permByte,
    hControl]
  split
  case isTrue =>
    congr 1
    omega
  case isFalse =>
    congr 1
    omega

theorem unalignedAccess
    (hRam : Flat.InRam mm (ea.setWidth 32) 16) :
    UnalignedAccess mm ea :=
  ⟨combined_eq hRam, permuted_eq hRam,
    fun v _ hN => rotated_eq ea v hN⟩

------------------------------------------------------------
-- Control Vectors
------------------------------------------------------------

/- Every byte is the one its control selects. -/
def Selects (a b c : M128) : Prop :=
  ∀ n < 16,
    laneBE 8 16 (vperm a b c) n =
      permByte a b (laneBE 8 16 c n)

/-
  The controls that are handled right: those below 32, those
  that are cleared and select a zero, and those from 160 on
  that select a byte which the first vector has as well.
-/
def ControlRight
    (a b : M128)
    (c : BitVec 8) : Prop :=
  c.toNat < 32 ∨
    (c.toNat < 160 ∧ permByte a b c = 0#8) ∨
    (160 ≤ c.toNat ∧
      permByte a b c = laneBE 8 16 a (c.toNat % 16))

theorem selects_iff (a b c : M128) :
    Selects a b c ↔
      ∀ n < 16, ControlRight a b (laneBE 8 16 c n) := by
  apply forall_congr'
  intro n
  apply forall_congr'
  intro hN
  by_cases hLow : (laneBE 8 16 c n).toNat < 32
  · exact iff_of_true (laneBE_vperm_of_lt a b c hN hLow)
      (.inl hLow)
  · rw [laneBE_vperm a b c hN]
    by_cases hHigh : 160 ≤ (laneBE 8 16 c n).toNat
    · have hNot : ¬ (laneBE 8 16 c n).toNat < 160 := by omega
      rw [if_pos (.inr hHigh)]
      simp only [ControlRight, hLow, hHigh, hNot, false_or,
        false_and, true_and, eq_comm]
    · have hIn : (laneBE 8 16 c n).toNat < 160 := by omega
      rw [if_neg (by omega), if_neg hLow]
      simp only [ControlRight, hLow, hHigh, hIn, false_or,
        false_and, or_false, true_and, eq_comm]

/-
  Unaligned accesses are right at every address.  Every
  control vector selects its bytes when each control is
  handled right.
-/
theorem unaligned_selects_iff
    (mm : MainMemory)
    (ea : BitVec 64)
    (a b c : M128)
    (hRam : Flat.InRam mm (ea.setWidth 32) 16) :
    (UnalignedAccess mm ea ∧ Selects a b c) ↔
      ∀ n < 16, ControlRight a b (laneBE 8 16 c n) := by
  rw [selects_iff]
  exact and_iff_right (unalignedAccess hRam)

/- Sixteen bytes of zeroed memory after a reset. -/
theorem inRam_reset :
    Flat.InRam MainMemory.reset
      ((0x100008#64).setWidth 32) 16 := by
  unfold Flat.InRam
  decide

theorem unaligned_selects_iff_reset :
    (UnalignedAccess MainMemory.reset 0x100008#64 ∧
        Selects 1#128 2#128 0#128) ↔
      ∀ n < 16,
        ControlRight 1#128 2#128 (laneBE 8 16 0#128 n) :=
  unaligned_selects_iff MainMemory.reset 0x100008#64 1#128
    2#128 0#128 inRam_reset

/- The control 0x2f selects the last byte, and clears. -/
theorem vperm_not_selects :
    ¬ ∀ (mm : MainMemory)
        (ea : BitVec 64)
        (a b c : M128),
        Flat.InRam mm (ea.setWidth 32) 16 →
          UnalignedAccess mm ea ∧ Selects a b c := by
  intro hAll
  have hSelects :=
    (hAll MainMemory.reset 0x100008#64 1#128 2#128 0x2f#128
      inRam_reset).2
  have hRight :=
    (selects_iff 1#128 2#128 0x2f#128).mp hSelects 15
      (by decide)
  have hControl :
      laneBE 8 16 (0x2f#128) 15 = 0x2f#8 := by
    decide
  rw [hControl] at hRight
  rcases hRight with hLow | ⟨-, hZero⟩ | ⟨hHigh, -⟩
  · revert hLow
    decide
  · revert hZero
    decide
  · revert hHigh
    decide

end Ppu

end Ps3emu
