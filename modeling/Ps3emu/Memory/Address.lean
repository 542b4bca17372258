import Ps3emu.Library.Masks

/-
  Guest addresses: the page and offset fields of
  `VirtualAddress`, the reservation line and the
  modification page of an address, and the windows that do
  not belong to ordinary memory.

  Key definitions include:
    * `Ps3Uintptr`
    * `VirtualAddress.page`, `VirtualAddress.offset`
    * `lineIndex`
    * `isSpuThreadVa`, `isRawSpuVa`, `isSpecialVa`
    * `distance`

  Key theorems include:
    * `VirtualAddress.page_eq`, `VirtualAddress.offset_eq`
    * `isRawSpuVa_iff`
    * `toNat_add_ofNat`
-/

------------------------------------------------------------
-- Constants
------------------------------------------------------------

namespace Ps3emu

abbrev Ps3Uintptr := BitVec 32

def defaultMainMemoryPageBits : Nat := 12

def defaultMainMemoryOffsetBits : Nat :=
  32 - defaultMainMemoryPageBits

def defaultMainMemoryPageSize : Nat :=
  2 ^ defaultMainMemoryOffsetBits

theorem defaultMainMemoryPageSize_eq :
    defaultMainMemoryPageSize = 1048576 := rfl

def rawSpuBaseAddr : Ps3Uintptr := 0xe0000000#32

def spuThreadBaseAddr : Ps3Uintptr := 0xf0000000#32

/- Bytes in one reservation line. -/
def cacheLine : Nat := 128

------------------------------------------------------------
-- Pages and Offsets
------------------------------------------------------------

namespace VirtualAddress

/- `BitField<0, 12>`: the twelve leading bits. -/
def page (va : Ps3Uintptr) : Nat :=
  (va >>> defaultMainMemoryOffsetBits).toNat

/- `BitField<12, 32>`: the remaining twenty bits. -/
def offset (va : Ps3Uintptr) : Nat :=
  (va &&& 0xfffff#32).toNat

theorem page_eq (va : Ps3Uintptr) :
    page va = va.toNat / 1048576 :=
  Masks.toNat_ushiftRight va 20

theorem offset_eq (va : Ps3Uintptr) :
    offset va = va.toNat % 1048576 :=
  Masks.toNat_and_low va 20 (by omega)

theorem toNat_eq (va : Ps3Uintptr) :
    va.toNat = page va * 1048576 + offset va := by
  rw [page_eq, offset_eq]
  omega

end VirtualAddress

------------------------------------------------------------
-- Reservation Lines, Special Windows and Ranges
------------------------------------------------------------

/- The index `va >> 7` of an address's reservation line. -/
def lineIndex (va : Ps3Uintptr) : Nat :=
  (va >>> 7).toNat

theorem lineIndex_eq (va : Ps3Uintptr) :
    lineIndex va = va.toNat / 128 :=
  Masks.toNat_ushiftRight va 7

/- The position `va & 0x7f` of an address in its line. -/
def lineOffset (va : Ps3Uintptr) : Nat :=
  (va &&& 0x7f#32).toNat

theorem lineOffset_eq (va : Ps3Uintptr) :
    lineOffset va = va.toNat % 128 :=
  Masks.toNat_and_low va 7 (by omega)

def isSpuThreadVa (va : Ps3Uintptr) : Bool :=
  va &&& spuThreadBaseAddr == spuThreadBaseAddr

def isRawSpuVa (va : Ps3Uintptr) : Bool :=
  va &&& rawSpuBaseAddr == rawSpuBaseAddr

/- The addresses that `writeSpecialMemory` handles. -/
def isSpecialVa (va : Ps3Uintptr) : Bool :=
  isSpuThreadVa va || isRawSpuVa va

private theorem and_high_eq_iff
    (va : Ps3Uintptr)
    (k : Nat)
    (hk : k ≤ 32) :
    va &&& BitVec.ofNat 32 (2 ^ 32 - 2 ^ k) =
        BitVec.ofNat 32 (2 ^ 32 - 2 ^ k) ↔
      2 ^ 32 - 2 ^ k ≤ va.toNat := by
  have hPos : 0 < 2 ^ k := Nat.two_pow_pos k
  have hPow : 2 ^ 32 = 2 ^ k * 2 ^ (32 - k) := by
    rw [← Nat.pow_add, Nat.add_sub_cancel' hk]
  have hBound : 2 ^ 32 - 2 ^ k < 2 ^ 32 := by omega
  have hMask :
      2 ^ 32 - 2 ^ k = (2 ^ (32 - k) - 1) * 2 ^ k := by
    rw [hPow, Nat.sub_mul, Nat.one_mul, Nat.mul_comm]
  have hVa := va.isLt
  rw [← BitVec.toNat_inj, Masks.toNat_and_high va k hk,
    BitVec.toNat_ofNat, Nat.mod_eq_of_lt hBound]
  constructor
  · intro hEq
    rw [← hEq]
    exact Nat.div_mul_le_self _ _
  · intro hLe
    have hLower : 2 ^ (32 - k) - 1 ≤ va.toNat / 2 ^ k := by
      rw [Nat.le_div_iff_mul_le hPos, ← hMask]
      exact hLe
    have hUpper : va.toNat / 2 ^ k < 2 ^ (32 - k) := by
      rw [Nat.div_lt_iff_lt_mul hPos, Nat.mul_comm, ← hPow]
      exact hVa
    have hQuotient :
        va.toNat / 2 ^ k = 2 ^ (32 - k) - 1 := by omega
    rw [hQuotient, ← hMask]

theorem isSpuThreadVa_iff (va : Ps3Uintptr) :
    isSpuThreadVa va = true ↔ 0xf0000000 ≤ va.toNat := by
  rw [isSpuThreadVa, beq_iff_eq]
  exact and_high_eq_iff va 28 (by omega)

theorem isRawSpuVa_iff (va : Ps3Uintptr) :
    isRawSpuVa va = true ↔ 0xe0000000 ≤ va.toNat := by
  rw [isRawSpuVa, beq_iff_eq]
  exact and_high_eq_iff va 29 (by omega)

theorem isSpecialVa_iff (va : Ps3Uintptr) :
    isSpecialVa va = true ↔ 0xe0000000 ≤ va.toNat := by
  rw [isSpecialVa, Bool.or_eq_true, isSpuThreadVa_iff,
    isRawSpuVa_iff]
  omega

theorem isSpecialVa_eq_false_iff (va : Ps3Uintptr) :
    isSpecialVa va = false ↔ va.toNat < 0xe0000000 := by
  rw [Bool.eq_false_iff, ne_eq, isSpecialVa_iff]
  omega

/- How far `va` lies above `base`, modulo the word size. -/
def distance (base va : Ps3Uintptr) : Nat :=
  (va - base).toNat

theorem toNat_add_ofNat
    (va : Ps3Uintptr)
    (i : Nat)
    (h : va.toNat + i < 2 ^ 32) :
    (va + BitVec.ofNat 32 i).toNat = va.toNat + i := by
  rw [BitVec.toNat_add, BitVec.toNat_ofNat]
  omega

theorem distance_add
    (va : Ps3Uintptr)
    (i : Nat)
    (h : i < 2 ^ 32) :
    distance va (va + BitVec.ofNat 32 i) = i := by
  have hva := va.isLt
  rw [distance, BitVec.toNat_sub, BitVec.toNat_add,
    BitVec.toNat_ofNat]
  omega

theorem add_distance (base va : Ps3Uintptr) :
    base + BitVec.ofNat 32 (distance base va) = va := by
  rw [distance, BitVec.ofNat_toNat, BitVec.setWidth_eq]
  bv_omega

end Ps3emu
