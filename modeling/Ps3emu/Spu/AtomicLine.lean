import Ps3emu.Library.Fallible
import Ps3emu.Memory.MainMemory
import Ps3emu.Spu.AtomicStatus

/-
  The line of memory that an atomic command acts on.  The
  command is meant for the lines that its two addresses lie
  on; the code hands the addresses on as they are, except
  for the effective address of two of the commands.

  Key definitions include:
    * `lineAddress`, `lsLine`
    * `MfcParams`, `MainMemory.atomic`
    * `LineLoaded`, `LineStored`, `LineExact`
    * `ActsOnLine`, `OneLine`

  Key theorems include:
    * `MainMemory.loadReserve_line`
    * `MainMemory.writeCond_line`
    * `actsOnLine_iff`
-/

------------------------------------------------------------
-- Addresses of Lines
------------------------------------------------------------

namespace Ps3emu

/- The first address of the line of an address. -/
def lineAddress (va : Ps3Uintptr) : Ps3Uintptr :=
  va &&& 0xffffff80#32

theorem toNat_lineAddress (va : Ps3Uintptr) :
    (lineAddress va).toNat = va.toNat / 128 * 128 :=
  Masks.toNat_and_high va 7 (by omega)

/- An address that starts a line is the address of it. -/
theorem lineAddress_eq_self_iff (va : Ps3Uintptr) :
    lineAddress va = va ↔ va &&& 0x7f#32 = 0#32 := by
  have hLow : (va &&& 0x7f#32).toNat = va.toNat % 128 :=
    Masks.toNat_and_low va 7 (by omega)
  rw [BitVec.toNat_eq, BitVec.toNat_eq, hLow,
    toNat_lineAddress, BitVec.toNat_ofNat]
  omega

@[simp] theorem lineIndex_lineAddress (va : Ps3Uintptr) :
    lineIndex (lineAddress va) = lineIndex va := by
  rw [lineIndex_eq, lineIndex_eq, toNat_lineAddress,
    Nat.mul_div_cancel _ (by omega)]

@[simp] theorem page_lineAddress (va : Ps3Uintptr) :
    VirtualAddress.page (lineAddress va) =
      VirtualAddress.page va := by
  rw [VirtualAddress.page_eq, VirtualAddress.page_eq,
    toNat_lineAddress]
  omega

/- A line lies on one page. -/
theorem offset_lineAddress_add_lt
    (va : Ps3Uintptr)
    {i : Nat}
    (hI : i < cacheLine) :
    VirtualAddress.offset (lineAddress va) + i <
      defaultMainMemoryPageSize := by
  rw [defaultMainMemoryPageSize_eq, VirtualAddress.offset_eq,
    toNat_lineAddress]
  simp only [cacheLine] at hI
  omega

/- An address is that of its line and its place in it. -/
theorem lineAddress_add_lineOffset
    {va a : Ps3Uintptr}
    (hLine : lineIndex a = lineIndex va) :
    lineAddress va + BitVec.ofNat 32 (lineOffset a) = a := by
  rw [lineIndex_eq, lineIndex_eq] at hLine
  apply BitVec.eq_of_toNat_eq
  rw [BitVec.toNat_add, toNat_lineAddress,
    BitVec.toNat_ofNat, lineOffset_eq]
  omega

theorem lineOffset_lt (a : Ps3Uintptr) :
    lineOffset a < cacheLine := by
  rw [lineOffset_eq]
  exact Nat.mod_lt _ (by decide)

/- The addresses close after that of a line are on it. -/
theorem lineIndex_of_distance
    {va a : Ps3Uintptr}
    (hNear : distance (lineAddress va) a < cacheLine) :
    lineIndex a = lineIndex va := by
  have hEq := add_distance (lineAddress va) a
  rw [← hEq, lineIndex_eq, lineIndex_eq, BitVec.toNat_add,
    toNat_lineAddress, BitVec.toNat_ofNat]
  simp only [cacheLine] at hNear
  omega

------------------------------------------------------------
-- Accesses to a Line
------------------------------------------------------------

namespace MainMemory

variable {m : MainMemory} {va : Ps3Uintptr} {ptr : HostPointer}

/- The bytes of a line, which its pointer leads to. -/
theorem byte_line
    (hPtr : m.getMemoryPointer (lineAddress va) = some ptr)
    {i : Nat}
    (hI : i < cacheLine) :
    m.byte (lineAddress va + BitVec.ofNat 32 i) =
      some ((m.host.read ptr cacheLine).getD i 0) := by
  rw [byte, m.getMemoryPointer_add hPtr i
    (offset_lineAddress_add_lt va hI)]
  simp [HostMemory.read, HostPointer.add, hI]

/- A line that is written has the new bytes, the rest not. -/
theorem byte_write_line
    (hPtr : m.getMemoryPointer (lineAddress va) = some ptr)
    {bytes : List Byte}
    (hBytes : bytes.length = cacheLine)
    (a : Ps3Uintptr) :
    (m.write ptr bytes).byte a =
      if lineIndex a = lineIndex va then
        some (bytes.getD (lineOffset a) 0)
      else m.byte a := by
  split
  case isTrue hLine =>
    apply m.byte_write_of_pointer
    · have hAdd := m.getMemoryPointer_add hPtr (lineOffset a)
        (offset_lineAddress_add_lt va (lineOffset_lt a))
      rwa [lineAddress_add_lineOffset hLine] at hAdd
    · rw [hBytes]
      exact lineOffset_lt a
  case isFalse hOther =>
    apply m.byte_write_of_far bytes hPtr
    intro hNear
    rw [hBytes] at hNear
    exact hOther (lineIndex_of_distance hNear)

/- The pointer of a line is there if its page is. -/
theorem isSome_getMemoryPointer_line :
    (m.getMemoryPointer (lineAddress va)).isSome =
      (m.pages.ptr (VirtualAddress.page va)).isSome := by
  rw [getMemoryPointer, page_lineAddress, Option.isSome_map]

theorem page_of_pointer
    (hPtr : m.getMemoryPointer (lineAddress va) = some ptr) :
    (m.pages.ptr (VirtualAddress.page va)).isSome := by
  rw [← isSome_getMemoryPointer_line]
  exact Option.isSome_of_eq_some hPtr

/- The old reservation is dropped if there is one. -/
theorem unreserve_eq (g : GranuleId) :
    (if (m.rmap.lineOf g).isSome then m.unreserveLocked g
      else m) = m.unreserveLocked g := by
  split
  case isTrue => rfl
  case isFalse hFree =>
    rw [Option.not_isSome_iff_eq_none] at hFree
    rw [unreserveLocked,
      ReservationMap.destroySingleReservation, hFree]

/- A line is read, and the agent reserves it. -/
theorem loadReserve_line
    (g : GranuleId)
    (notify : Option Nat)
    (arg1 arg2 : Nat) :
    m.loadReserve .line g (lineAddress va) notify arg1
        arg2 =
      (m.getMemoryPointer (lineAddress va)).map (fun ptr =>
        ({ m with
            rmap :=
              (m.rmap.destroySingleReservation g).reserve g
                (lineIndex va) notify arg1 arg2 },
          m.host.read ptr cacheLine)) := by
  have hAligned :
      reserveAligned .line (lineAddress va) = true := by
    rw [reserveAligned, beq_iff_eq,
      ← lineAddress_eq_self_iff, BitVec.toNat_eq,
      toNat_lineAddress, toNat_lineAddress]
    omega
  have hLocked :
      lockedLines ReserveLen.line.bytes (lineAddress va) =
        (lineIndex va, none) := lockedLines_line va
  rw [loadReserve, if_pos hAligned]
  simp only [unreserve_eq]
  rw [reserveLocked, hLocked]
  rfl

/- A line is written, if the agent may write it. -/
theorem writeCond_line
    (unconditional : Bool)
    (g : GranuleId)
    {buf : List Byte}
    (hBuf : buf.length = cacheLine) :
    m.writeCond .line unconditional (some g) (lineAddress va)
        buf =
      if unconditional || m.rmap.contains (lineIndex va) g
      then
        (m.getMemoryPointer (lineAddress va)).map (fun ptr =>
          ({ m.write ptr buf with
              rmap := m.rmap.clear (lineIndex va)
              mmap := m.mmap.markFor (lineAddress va) },
            true))
      else some (m, false) := by
  have hLocked :
      lockedLines ReserveLen.line.bytes (lineAddress va) =
        (lineIndex va, none) := lockedLines_line va
  have hTake : buf.take ReserveLen.line.bytes = buf :=
    List.take_of_length_le hBuf.le
  have hAny :
      (some g).any (m.rmap.contains (lineIndex va)) =
        m.rmap.contains (lineIndex va) g := rfl
  rw [writeCond, writeCondLocked, hLocked, hTake]
  simp only [Option.isSome_none, Option.isNone_some,
    Bool.and_false, Bool.false_eq_true, if_false, hAny]
  split
  case isTrue =>
    rw [Option.map_map]
    rfl
  case isFalse => rfl

/- No line is written through an address inside it. -/
theorem lineAddress_of_writeCond
    {unconditional : Bool}
    {granule : Option GranuleId}
    {buf : List Byte}
    (hDone :
      (m.writeCond .line unconditional granule va
        buf).isSome) :
    lineAddress va = va := by
  rw [lineAddress_eq_self_iff]
  by_contra hInside
  have hOffset : lineOffset va ≠ 0 := by
    intro hZero
    exact hInside (BitVec.eq_of_toNat_eq hZero)
  have hNext :
      (lockedLines ReserveLen.line.bytes va).2.isSome := by
    rw [lockedLines, if_pos]
    · rfl
    · simp only [ReserveLen.bytes]
      omega
  simp [writeCond, writeCondLocked, hNext] at hDone

end MainMemory

------------------------------------------------------------
-- Commands
------------------------------------------------------------

/- The main memory, as the thread that owns `g` uses it. -/
def MainMemory.atomic
    (g : GranuleId)
    (notify : Option Nat)
    (arg1 arg2 : Nat) : AtomicMemory MainMemory where
  loadReserve va m :=
    (m.loadReserve .line g va notify arg1 arg2).map Prod.swap
  writeCond unconditional va buf m :=
    (m.writeCond .line unconditional (some g) va buf).map
      Prod.swap

def AtomicOpcode.word : AtomicOpcode → BitVec 32
  | .getllar => 0x00d0#32
  | .putllc => 0x00b4#32
  | .putlluc => 0x00b0#32

@[simp] theorem AtomicOpcode.ofWord_word
    (op : AtomicOpcode) :
    AtomicOpcode.ofWord (op.word.setWidth 16) = some op := by
  cases op <;> rfl

/- The tag and class identifiers of the words are zero. -/
@[simp] theorem AtomicOpcode.word_tag (op : AtomicOpcode) :
    op.word >>> 16 = 0#32 := by
  cases op <;> rfl

/- What the parameter channels hold. -/
structure MfcParams where
  lsa : BitVec 32
  eah : BitVec 32
  eal : BitVec 32
  size : BitVec 32
deriving DecidableEq

/- Where the code reads and writes the local storage. -/
def lsAddress (lsa : BitVec 32) : BitVec 18 :=
  (lsa &&& lslr).setWidth 18

/- The line of local storage that an address is on. -/
def lsLine (lsa : BitVec 32) : BitVec 18 :=
  (lsa &&& lslr &&& 0xffffff80#32).setWidth 18

namespace Mfc

variable {M : Type}

def HasParams (s : Mfc M) (p : MfcParams) : Prop :=
  s.channels.mfcLsa = p.lsa ∧
    s.channels.mfcEah = p.eah ∧
    s.channels.mfcEal = p.eal ∧
    s.channels.mfcSize = p.size

/- The line a thread has reserved. -/
def lineOf (s : Mfc MainMemory) (g : GranuleId) : Option Nat :=
  s.memory.rmap.lineOf g

end Mfc

------------------------------------------------------------
-- Purpose and Addresses
------------------------------------------------------------

section Purpose

variable (p : MfcParams) (s t : Mfc MainMemory)

/- The line of memory is in the local storage. -/
def LineLoaded : Prop :=
  (∀ x,
    some (t.ls x) =
      if (x - lsLine p.lsa).toNat < cacheLine then
        s.memory.byte
          (lineAddress p.eal +
            BitVec.ofNat 32 (x - lsLine p.lsa).toNat)
      else some (s.ls x)) ∧
    ∀ a, t.memory.byte a = s.memory.byte a

/- The line of local storage is in the memory. -/
def LineStored : Prop :=
  t.ls = s.ls ∧
    ∀ a,
      t.memory.byte a =
        if lineIndex a = lineIndex p.eal then
          some
            (s.ls
              (lsLine p.lsa + BitVec.ofNat 18 (lineOffset a)))
        else s.memory.byte a

/- The reservations of the line are gone, the rest is not. -/
def LineCleared : Prop :=
  ∀ h,
    t.lineOf h =
      if s.lineOf h = some (lineIndex p.eal) then none
      else s.lineOf h

/- Neither bytes nor reservations differ. -/
def Unaltered : Prop :=
  t.ls = s.ls ∧
    (∀ a, t.memory.byte a = s.memory.byte a) ∧
    ∀ h, t.lineOf h = s.lineOf h

/-
  What a command of `g` is for.  The reservation of `g` moves
  to the line that it loads.
-/
def LineExact (g : GranuleId) :
    AtomicOpcode → Completed → Prop
  | .getllar, c =>
      c = .getllar ∧ LineLoaded p s t ∧
        ∀ h,
          t.lineOf h =
            if h = g then some (lineIndex p.eal)
            else s.lineOf h
  | .putllc, c =>
      if s.lineOf g = some (lineIndex p.eal) then
        c = .putllc true ∧ LineStored p s t ∧
          LineCleared p s t
      else c = .putllc false ∧ Unaltered s t
  | .putlluc, c =>
      c = .putlluc ∧ LineStored p s t ∧ LineCleared p s t

end Purpose

/-
  Whatever the memory, the local storage and the reservations
  are, the command does what it is for.
-/
def ActsOnLine
    (op : AtomicOpcode)
    (pages : PageTable)
    (p : MfcParams) : Prop :=
  ∀ (g : GranuleId) (notify : Option Nat) (arg1 arg2 : Nat)
    (s : Mfc MainMemory),
    s.HasParams p →
    s.memory.pages = pages →
    s.memory.rmap.Consistent →
      ∃ t c,
        s.command (MainMemory.atomic g notify arg1 arg2)
            op.word = some (t, c) ∧
          LineExact p s t g op c

/- The parameters with which it does. -/
def OneLine
    (op : AtomicOpcode)
    (pages : PageTable)
    (p : MfcParams) : Prop :=
  p.eah = 0#32 ∧
    (pages.ptr (VirtualAddress.page p.eal)).isSome ∧
    p.lsa &&& 0x7f#32 = 0#32 ∧
    match op with
    | .getllar => p.size = 0x80#32
    | .putllc => p.size ≤ 0x80#32
    | .putlluc =>
        p.eal &&& 0x7f#32 = 0#32 ∧
          subset (p.lsa &&& lslr) p.size 0#32
            (BitVec.ofNat 32 localStorageSize)

theorem toNat_and_lslr (lsa : BitVec 32) :
    (lsa &&& lslr).toNat = lsa.toNat % 2 ^ 18 :=
  Masks.toNat_and_low lsa 18 (by omega)

theorem toNat_lsAddress (lsa : BitVec 32) :
    (lsAddress lsa).toNat = lsa.toNat % 2 ^ 18 := by
  rw [lsAddress, BitVec.toNat_setWidth, toNat_and_lslr,
    Nat.mod_mod]

theorem toNat_lsLine (lsa : BitVec 32) :
    (lsLine lsa).toNat = lsa.toNat % 2 ^ 18 / 128 * 128 := by
  have hHigh :
      (lsa &&& lslr &&& 0xffffff80#32).toNat =
        (lsa &&& lslr).toNat / 128 * 128 :=
    Masks.toNat_and_high _ 7 (by omega)
  rw [lsLine, BitVec.toNat_setWidth, hHigh, toNat_and_lslr]
  omega

/- The code uses the line if the address starts it. -/
theorem lsAddress_eq_lsLine_iff (lsa : BitVec 32) :
    lsAddress lsa = lsLine lsa ↔ lsa &&& 0x7f#32 = 0#32 := by
  have hLow : (lsa &&& 0x7f#32).toNat = lsa.toNat % 128 :=
    Masks.toNat_and_low lsa 7 (by omega)
  rw [BitVec.toNat_eq, BitVec.toNat_eq, hLow,
    toNat_lsAddress, toNat_lsLine, BitVec.toNat_ofNat]
  omega

/- A line of local storage passes the check of the range. -/
theorem subset_of_line
    {lsa size : BitVec 32}
    (hLsa : lsa &&& 0x7f#32 = 0#32)
    (hSize : size ≤ 0x80#32) :
    subset (lsa &&& lslr) size 0#32
      (BitVec.ofNat 32 localStorageSize) = true := by
  have hLow : (lsa &&& 0x7f#32).toNat = lsa.toNat % 128 :=
    Masks.toNat_and_low lsa 7 (by omega)
  rw [hLsa, BitVec.toNat_ofNat] at hLow
  rw [BitVec.le_def, BitVec.toNat_ofNat] at hSize
  simp only [subset, Bool.and_eq_true, decide_eq_true_eq]
  refine ⟨Nat.zero_le _, ?_⟩
  rw [BitVec.le_def, BitVec.toNat_add, toNat_and_lslr]
  simp only [localStorageSize, BitVec.zero_add,
    BitVec.toNat_ofNat]
  omega

------------------------------------------------------------
-- What the Commands Check
------------------------------------------------------------

namespace Mfc

variable {M : Type} {mm : AtomicMemory M} {s t : Mfc M} {c : Completed}

/- The range of local storage that the code checks. -/
def InRange (s : Mfc M) : Prop :=
  subset (s.channels.mfcLsa &&& lslr) s.channels.mfcSize 0#32
    (BitVec.ofNat 32 localStorageSize)

theorem command_getllar_iff :
    s.command mm AtomicOpcode.getllar.word = some (t, c) ↔
      s.channels.mfcEah = 0#32 ∧ s.InRange ∧
        s.channels.mfcSize ≤ 0x80#32 ∧
        ∃ buf memory,
          mm.loadReserve (lineAddress s.channels.mfcEal)
              s.memory = some (buf, memory) ∧
            ({ s with
                memory
                ls :=
                  s.ls.set (lsAddress s.channels.mfcLsa)
                    (buf.take s.channels.mfcSize.toNat)
                rdAtomicStat :=
                  s.rdAtomicStat ||| 0b100#32 },
              Completed.getllar) = (t, c) := by
  rw [command, AtomicOpcode.ofWord_word]
  simp only [AtomicOpcode.word_tag, Option.bind_eq_bind,
    Option.bind_some, Option.bind_eq_some_iff,
    Fallible.guard_eq_some_iff, exists_const, true_and,
    Prod.exists, Option.some.injEq]
  rfl

theorem command_putllc_iff :
    s.command mm AtomicOpcode.putllc.word = some (t, c) ↔
      s.channels.mfcEah = 0#32 ∧ s.InRange ∧
        s.channels.mfcSize ≤ 0x80#32 ∧
        ∃ stored memory,
          mm.writeCond false (lineAddress s.channels.mfcEal)
              (s.ls.get (lsAddress s.channels.mfcLsa) 128)
              s.memory = some (stored, memory) ∧
            ({ s with
                memory
                rdAtomicStat :=
                  s.rdAtomicStat |||
                    (BitVec.ofBool (!stored)).setWidth 32 },
              Completed.putllc stored) = (t, c) := by
  rw [command, AtomicOpcode.ofWord_word]
  simp only [AtomicOpcode.word_tag, Option.bind_eq_bind,
    Option.bind_some, Option.bind_eq_some_iff,
    Fallible.guard_eq_some_iff, exists_const, true_and,
    Prod.exists, Option.some.injEq]
  rfl

/- The one command that uses the address as it is. -/
theorem command_putlluc_iff :
    s.command mm AtomicOpcode.putlluc.word = some (t, c) ↔
      s.channels.mfcEah = 0#32 ∧ s.InRange ∧
        ∃ stored memory,
          mm.writeCond true s.channels.mfcEal
              (s.ls.get (lsAddress s.channels.mfcLsa) 128)
              s.memory = some (stored, memory) ∧
            ({ s with
                memory
                rdAtomicStat :=
                  s.rdAtomicStat ||| 0b010#32 },
              Completed.putlluc) = (t, c) := by
  rw [command, AtomicOpcode.ofWord_word]
  simp only [AtomicOpcode.word_tag, Option.bind_eq_bind,
    Option.bind_some, Option.bind_eq_some_iff,
    Fallible.guard_eq_some_iff, exists_const, true_and,
    Prod.exists, Option.some.injEq]
  rfl

end Mfc

------------------------------------------------------------
-- What the Commands Do
------------------------------------------------------------

namespace MainMemory

variable {m m' : MainMemory} {va : Ps3Uintptr} {ptr : HostPointer}

/- A line of memory that is written from local storage. -/
theorem byte_write_get
    (hPtr : m.getMemoryPointer (lineAddress va) = some ptr)
    (ls : FlatMemory 18)
    (base : BitVec 18)
    (a : Ps3Uintptr) :
    (m.write ptr (ls.get base cacheLine)).byte a =
      if lineIndex a = lineIndex va then
        some (ls (base + BitVec.ofNat 18 (lineOffset a)))
      else m.byte a := by
  rw [byte_write_line hPtr (FlatMemory.length_get _ _ _),
    FlatMemory.getD_get ls base (lineOffset_lt a)]

/- Local storage that the start of a line is put into. -/
theorem set_read_line
    (hPtr : m.getMemoryPointer (lineAddress va) = some ptr)
    (ls : FlatMemory 18)
    (base : BitVec 18)
    {n : Nat}
    (hN : n ≤ cacheLine)
    (x : BitVec 18) :
    some
        (ls.set base ((m.host.read ptr cacheLine).take n)
          x) =
      if (x - base).toNat < n then
        m.byte
          (lineAddress va +
            BitVec.ofNat 32 (x - base).toNat)
      else some (ls x) := by
  have hLength :
      ((m.host.read ptr cacheLine).take n).length = n := by
    rw [List.length_take, HostMemory.length_read]
    exact Nat.min_eq_left hN
  rw [FlatMemory.set, hLength]
  split
  case isTrue hIn =>
    rw [byte_line hPtr (Nat.lt_of_lt_of_le hIn hN),
      List.getD_eq_getElem?_getD,
      List.getElem?_take_of_lt hIn,
      ← List.getD_eq_getElem?_getD]
  case isFalse => rfl

variable {notify : Option Nat} {arg1 arg2 : Nat} {g : GranuleId}

theorem atomic_loadReserve_iff
    {buf : List Byte} :
    (atomic g notify arg1 arg2).loadReserve (lineAddress va) m =
        some (buf, m') ↔
      ∃ ptr,
        m.getMemoryPointer (lineAddress va) = some ptr ∧
          (m.host.read ptr cacheLine,
            { m with
              rmap :=
                (m.rmap.destroySingleReservation g).reserve g
                  (lineIndex va) notify arg1 arg2 }) =
            (buf, m') := by
  simp only [atomic, loadReserve_line, Option.map_map,
    Option.map_eq_some_iff, Function.comp_apply, Prod.swap_prod_mk]

/- A line that may be written is written and cleared. -/
theorem atomic_writeCond_iff
    {unconditional stored : Bool}
    {buf : List Byte}
    (hCons : m.rmap.Consistent)
    (hBuf : buf.length = cacheLine)
    (hMay :
      unconditional = true ∨
        m.rmap.lineOf g = some (lineIndex va)) :
    (atomic g notify arg1 arg2).writeCond unconditional
        (lineAddress va) buf m = some (stored, m') ↔
      ∃ ptr,
        m.getMemoryPointer (lineAddress va) = some ptr ∧
          (true,
            { m.write ptr buf with
              rmap := m.rmap.clear (lineIndex va)
              mmap := m.mmap.markFor (lineAddress va) }) =
            (stored, m') := by
  rw [← hCons.contains_iff, ← Bool.or_eq_true] at hMay
  simp only [atomic, writeCond_line _ _ hBuf, if_pos hMay,
    Option.map_map, Option.map_eq_some_iff,
    Function.comp_apply, Prod.swap_prod_mk]

theorem atomic_writeCond_of_lost
    {buf : List Byte}
    (hCons : m.rmap.Consistent)
    (hBuf : buf.length = cacheLine)
    (hLost : m.rmap.lineOf g ≠ some (lineIndex va)) :
    (atomic g notify arg1 arg2).writeCond false
        (lineAddress va) buf m = some (false, m) := by
  have hNot : ¬ (false || m.rmap.contains (lineIndex va) g) := by
    rwa [Bool.false_or, hCons.contains_iff]
  simp only [atomic, writeCond_line _ _ hBuf, if_neg hNot,
    Option.map_some, Prod.swap_prod_mk]

end MainMemory

------------------------------------------------------------
-- One Line
------------------------------------------------------------

section OneLine

variable {p : MfcParams} {g : GranuleId} {notify : Option Nat}
variable {arg1 arg2 : Nat}
variable {s : Mfc MainMemory}

/- The pointer that a command needs is there. -/
theorem OneLine.exists_pointer
    {op : AtomicOpcode}
    (hOne : OneLine op s.memory.pages p) :
    ∃ ptr,
      s.memory.getMemoryPointer (lineAddress p.eal) =
        some ptr := by
  apply Option.isSome_iff_exists.mp
  rw [MainMemory.isSome_getMemoryPointer_line]
  exact hOne.2.1

theorem OneLine.lsAddress_eq
    {op : AtomicOpcode}
    {pages : PageTable}
    (hOne : OneLine op pages p) :
    lsAddress p.lsa = lsLine p.lsa :=
  (lsAddress_eq_lsLine_iff p.lsa).mpr hOne.2.2.1

/- A put of a whole line to one. -/
theorem lineStored_of_write
    {t : Mfc MainMemory}
    {ptr : HostPointer}
    (hPtr :
      s.memory.getMemoryPointer (lineAddress p.eal) =
        some ptr)
    (hLsa : lsAddress p.lsa = lsLine p.lsa)
    (hLs : t.ls = s.ls)
    (hPages : t.memory.pages = s.memory.pages)
    (hHost :
      t.memory.host =
        s.memory.host.write ptr
          (s.ls.get (lsAddress p.lsa) cacheLine)) :
    LineStored p s t := by
  refine ⟨hLs, ?_⟩
  intro a
  rw [← hLsa, ← MainMemory.byte_write_get hPtr]
  exact
    @MainMemory.byte_congr (s.memory.write ptr _) t.memory
      hPages hHost a

theorem lineCleared_of_clear
    {t : Mfc MainMemory}
    (hCons : s.memory.rmap.Consistent)
    (hClear :
      t.memory.rmap =
        s.memory.rmap.clear (lineIndex p.eal)) :
    LineCleared p s t := by
  intro h
  rw [Mfc.lineOf, hClear]
  exact hCons.lineOf_clear _ h

theorem OneLine.getllar
    (hOne : OneLine .getllar s.memory.pages p)
    (hParams : s.HasParams p)
    (hCons : s.memory.rmap.Consistent) :
    ∃ t c,
      s.command (MainMemory.atomic g notify arg1 arg2)
          AtomicOpcode.getllar.word = some (t, c) ∧
        LineExact p s t g .getllar c := by
  rcases hOne.exists_pointer with ⟨ptr, hPtr⟩
  have hLsa := hOne.lsAddress_eq
  rcases hOne with ⟨hEah, -, hStart, hSize⟩
  rcases p with ⟨lsa, eah, eal, size⟩
  rcases hParams with ⟨rfl, rfl, rfl, rfl⟩
  have hSize : s.channels.mfcSize = 0x80#32 := hSize
  have hLe : s.channels.mfcSize ≤ 0x80#32 :=
    BitVec.le_of_eq hSize
  refine
    ⟨_, _,
      Mfc.command_getllar_iff.mpr
        ⟨hEah, subset_of_line hStart hLe, hLe, _, _,
          MainMemory.atomic_loadReserve_iff.mpr
            ⟨ptr, hPtr, rfl⟩,
          rfl⟩,
      rfl, ⟨?_, ?_⟩, ?_⟩
  · intro x
    rw [← hLsa, hSize]
    exact
      MainMemory.set_read_line hPtr s.ls _ (Nat.le_refl 128) x
  · exact MainMemory.byte_congr rfl rfl
  · intro h
    simp only [Mfc.lineOf, ReservationMap.lineOf_reserve,
      hCons.lineOf_destroySingleReservation]
    grind

theorem OneLine.putllc
    (hOne : OneLine .putllc s.memory.pages p)
    (hParams : s.HasParams p)
    (hCons : s.memory.rmap.Consistent) :
    ∃ t c,
      s.command (MainMemory.atomic g notify arg1 arg2)
          AtomicOpcode.putllc.word = some (t, c) ∧
        LineExact p s t g .putllc c := by
  rcases hOne.exists_pointer with ⟨ptr, hPtr⟩
  have hLsa := hOne.lsAddress_eq
  rcases hOne with ⟨hEah, -, hStart, hSize⟩
  rcases p with ⟨lsa, eah, eal, size⟩
  rcases hParams with ⟨rfl, rfl, rfl, rfl⟩
  have hRange : s.InRange := subset_of_line hStart hSize
  by_cases hHeld :
      s.lineOf g = some (lineIndex s.channels.mfcEal)
  · refine
      ⟨_, _,
        Mfc.command_putllc_iff.mpr
          ⟨hEah, hRange, hSize, _, _,
            (MainMemory.atomic_writeCond_iff hCons
              (FlatMemory.length_get _ _ _)
              (.inr hHeld)).mpr ⟨ptr, hPtr, rfl⟩,
            rfl⟩, ?_⟩
    rw [LineExact, if_pos hHeld]
    exact
      ⟨rfl, lineStored_of_write hPtr hLsa rfl rfl rfl,
        lineCleared_of_clear hCons rfl⟩
  · refine
      ⟨_, _,
        Mfc.command_putllc_iff.mpr
          ⟨hEah, hRange, hSize, _, _,
            MainMemory.atomic_writeCond_of_lost hCons
              (FlatMemory.length_get _ _ _) hHeld,
            rfl⟩, ?_⟩
    rw [LineExact, if_neg hHeld]
    exact ⟨rfl, rfl, fun _ => rfl, fun _ => rfl⟩

theorem OneLine.putlluc
    (hOne : OneLine .putlluc s.memory.pages p)
    (hParams : s.HasParams p)
    (hCons : s.memory.rmap.Consistent) :
    ∃ t c,
      s.command (MainMemory.atomic g notify arg1 arg2)
          AtomicOpcode.putlluc.word = some (t, c) ∧
        LineExact p s t g .putlluc c := by
  rcases hOne.exists_pointer with ⟨ptr, hPtr⟩
  have hLsa := hOne.lsAddress_eq
  rcases hOne with ⟨hEah, -, -, hEal, hRange⟩
  rcases p with ⟨lsa, eah, eal, size⟩
  rcases hParams with ⟨rfl, rfl, rfl, rfl⟩
  have hWrite :
      ∃ memory,
        (MainMemory.atomic g notify arg1 arg2).writeCond true
            (lineAddress s.channels.mfcEal)
            (s.ls.get (lsAddress s.channels.mfcLsa) 128)
            s.memory = some (true, memory) ∧
          memory.pages = s.memory.pages ∧
          memory.host =
            s.memory.host.write ptr
              (s.ls.get (lsAddress s.channels.mfcLsa) 128) ∧
          memory.rmap =
            s.memory.rmap.clear
              (lineIndex s.channels.mfcEal) :=
    ⟨_,
      (MainMemory.atomic_writeCond_iff hCons
        (FlatMemory.length_get _ _ _)
        (.inl rfl)).mpr ⟨ptr, hPtr, rfl⟩,
      rfl, rfl, rfl⟩
  rw [(lineAddress_eq_self_iff s.channels.mfcEal).mpr hEal]
    at hWrite
  rcases hWrite with ⟨memory, hWrite, hPages, hHost, hClear⟩
  exact
    ⟨_, _,
      Mfc.command_putlluc_iff.mpr
        ⟨hEah, hRange, _, _, hWrite, rfl⟩,
      rfl, lineStored_of_write hPtr hLsa rfl hPages hHost,
      lineCleared_of_clear hCons hClear⟩

end OneLine

------------------------------------------------------------
-- Probes
------------------------------------------------------------

/-
  A state with one byte throughout the memory, in which an
  agent has reserved the line of a command.
-/
def probe
    (pages : PageTable)
    (p : MfcParams)
    (byte : Byte)
    (ls : FlatMemory 18) : Mfc MainMemory where
  memory :=
    { pages
      host := fun _ _ => byte
      rmap :=
        ReservationMap.empty.reserve 0 (lineIndex p.eal) none
          0 0
      mmap := fun _ => false }
  ls
  channels :=
    { mfcLsa := p.lsa
      mfcEah := p.eah
      mfcEal := p.eal
      mfcSize := p.size }

/- Only the line that a command is meant for is marked. -/
def markedLine (lsa : BitVec 32) : FlatMemory 18 :=
  fun x => if x = lsLine lsa then 1 else 0

section Probe

variable {pages : PageTable} {p : MfcParams}

theorem consistent_probe
    (byte : Byte)
    (ls : FlatMemory 18) :
    (probe pages p byte ls).memory.rmap.Consistent :=
  ReservationMap.Consistent.empty.reserve 0 rfl _ _ _ _

theorem lineOf_probe
    (byte : Byte)
    (ls : FlatMemory 18) :
    (probe pages p byte ls).lineOf 0 =
      some (lineIndex p.eal) :=
  ReservationMap.lineOf_reserve _ 0 0 _ _ _ _

/- What a command is found to do with a probe. -/
theorem ActsOnLine.of_probe
    {op : AtomicOpcode}
    (hActs : ActsOnLine op pages p)
    (byte : Byte)
    (ls : FlatMemory 18) :
    ∃ t c,
      (probe pages p byte ls).command
          (MainMemory.atomic 0 none 0 0) op.word =
        some (t, c) ∧
      LineExact p (probe pages p byte ls) t 0 op c :=
  hActs 0 none 0 0 _ ⟨rfl, rfl, rfl, rfl⟩ rfl
    (consistent_probe byte ls)

/- A range that covers a line is the line. -/
theorem line_of_covered
    {lsa : BitVec 32}
    {n : Nat}
    (hN : n ≤ 128)
    (hIn :
      ∀ i < cacheLine,
        (lsLine lsa + BitVec.ofNat 18 i -
          lsAddress lsa).toNat < n) :
    lsa &&& 0x7f#32 = 0#32 ∧ n = 128 := by
  have hFirst := hIn 0 (by decide)
  have hLast := hIn 127 (by decide)
  rw [← lsAddress_eq_lsLine_iff, BitVec.toNat_eq]
  rw [BitVec.toNat_sub, BitVec.toNat_add] at hFirst hLast
  rw [toNat_lsLine, toNat_lsAddress] at hFirst hLast ⊢
  simp only [BitVec.toNat_ofNat] at hFirst hLast
  omega

theorem byte_probe
    (hPage : (pages.ptr (VirtualAddress.page p.eal)).isSome)
    (byte : Byte)
    (ls : FlatMemory 18)
    {i : Nat}
    (hI : i < cacheLine) :
    (probe pages p byte ls).memory.byte
        (lineAddress p.eal + BitVec.ofNat 32 i) =
      some byte := by
  have hSome :
      ((probe pages p byte ls).memory.getMemoryPointer
        (lineAddress p.eal)).isSome := by
    rwa [MainMemory.isSome_getMemoryPointer_line]
  rcases Option.isSome_iff_exists.mp hSome with ⟨ptr, hPtr⟩
  rw [MainMemory.byte_line hPtr hI]
  simp [probe, HostMemory.read, hI]

theorem ActsOnLine.getllar
    (hActs : ActsOnLine .getllar pages p) :
    OneLine .getllar pages p := by
  rcases hActs.of_probe 1 (fun _ => 0) with
    ⟨t, c, hCommand, -, ⟨hLoaded, -⟩, -⟩
  rcases Mfc.command_getllar_iff.mp hCommand with
    ⟨hEah, -, hSize, buf, memory, hLoad, hDone⟩
  rcases MainMemory.atomic_loadReserve_iff.mp hLoad with
    ⟨ptr, hPtr, hBuf⟩
  cases hBuf
  cases hDone
  have hPage :
      (pages.ptr (VirtualAddress.page p.eal)).isSome :=
    MainMemory.page_of_pointer hPtr
  have hLe : p.size.toNat ≤ cacheLine := hSize
  -- Every byte of the line has come from the memory.
  have hIn :
      ∀ i < cacheLine,
        (lsLine p.lsa + BitVec.ofNat 18 i -
          lsAddress p.lsa).toNat < p.size.toNat := by
    intro i hI
    have hByte := hLoaded (lsLine p.lsa + BitVec.ofNat 18 i)
    rw [FlatMemory.toNat_add_sub _ _
        (Nat.lt_trans hI (by decide)),
      if_pos hI, byte_probe hPage 1 _ hI] at hByte
    by_contra hOut
    have hSet :=
      (MainMemory.set_read_line hPtr (fun _ => 0)
        (lsAddress p.lsa) hLe
        (lsLine p.lsa + BitVec.ofNat 18 i)).symm.trans hByte
    rw [if_neg hOut] at hSet
    cases hSet
  have hLine := line_of_covered hLe hIn
  exact
    ⟨hEah, hPage, hLine.1, BitVec.eq_of_toNat_eq hLine.2⟩

/- A put that stores the line has read it. -/
theorem line_of_lineStored
    {t : Mfc MainMemory}
    {ptr : HostPointer}
    (hStored :
      LineStored p (probe pages p 0 (markedLine p.lsa)) t)
    (hPtr :
      (probe pages p 0
          (markedLine p.lsa)).memory.getMemoryPointer
        (lineAddress p.eal) = some ptr)
    (hPages : t.memory.pages = pages)
    (hHost :
      t.memory.host =
        HostMemory.write (fun _ _ => 0) ptr
          (FlatMemory.get (markedLine p.lsa)
            (lsAddress p.lsa) cacheLine)) :
    p.lsa &&& 0x7f#32 = 0#32 := by
  have hZero : lineOffset (lineAddress p.eal) = 0 := by
    rw [lineOffset_eq, toNat_lineAddress]
    omega
  have hWant := hStored.2 (lineAddress p.eal)
  have hHave :=
    MainMemory.byte_write_get hPtr (markedLine p.lsa)
      (lsAddress p.lsa) (lineAddress p.eal)
  rw [if_pos (lineIndex_lineAddress _), hZero] at hWant hHave
  have hSame :=
    (@MainMemory.byte_congr
      ((probe pages p 0 (markedLine p.lsa)).memory.write ptr
        _) t.memory hPages hHost (lineAddress p.eal))
  rw [hHave, hWant] at hSame
  rw [← lsAddress_eq_lsLine_iff]
  by_contra hOther
  simp [probe, markedLine, hOther] at hSame

theorem ActsOnLine.putllc
    (hActs : ActsOnLine .putllc pages p) :
    OneLine .putllc pages p := by
  rcases hActs.of_probe 0 (markedLine p.lsa) with
    ⟨t, c, hCommand, hExact⟩
  rw [LineExact, if_pos (lineOf_probe _ _)] at hExact
  rcases Mfc.command_putllc_iff.mp hCommand with
    ⟨hEah, -, hSize, stored, memory, hWrite, hDone⟩
  rcases (MainMemory.atomic_writeCond_iff
    (consistent_probe _ _) (FlatMemory.length_get _ _ _)
    (.inr (lineOf_probe _ _))).mp hWrite with
      ⟨ptr, hPtr, hBuf⟩
  cases hBuf
  cases hDone
  exact
    ⟨hEah, MainMemory.page_of_pointer hPtr,
      line_of_lineStored hExact.2.1 hPtr rfl rfl, hSize⟩

theorem ActsOnLine.putlluc
    (hActs : ActsOnLine .putlluc pages p) :
    OneLine .putlluc pages p := by
  rcases hActs.of_probe 0 (markedLine p.lsa) with
    ⟨t, c, hCommand, -, hStored, -⟩
  rcases Mfc.command_putlluc_iff.mp hCommand with
    ⟨hEah, hRange, stored, memory, hWrite, hDone⟩
  have hStart : lineAddress p.eal = p.eal := by
    apply MainMemory.lineAddress_of_writeCond
    rw [← Option.isSome_map]
    exact Option.isSome_of_eq_some hWrite
  have hLine :
      (MainMemory.atomic 0 none 0 0).writeCond true
          (lineAddress p.eal)
          (FlatMemory.get (markedLine p.lsa)
            (lsAddress p.lsa) 128)
          (probe pages p 0 (markedLine p.lsa)).memory =
        some (stored, memory) := by
    rw [hStart]
    exact hWrite
  rcases (MainMemory.atomic_writeCond_iff
    (consistent_probe _ _) (FlatMemory.length_get _ _ _)
    (.inl rfl)).mp hLine with ⟨ptr, hPtr, hBuf⟩
  cases hBuf
  cases hDone
  exact
    ⟨hEah, MainMemory.page_of_pointer hPtr,
      line_of_lineStored hStored hPtr rfl rfl,
      (lineAddress_eq_self_iff p.eal).mp hStart, hRange⟩

end Probe

/-
  A command acts on the lines that its addresses are on
  exactly if the address in local storage starts its line,
  and for the unconditional put that in memory does, too.
-/
theorem actsOnLine_iff
    (op : AtomicOpcode)
    (pages : PageTable)
    (p : MfcParams) :
    ActsOnLine op pages p ↔ OneLine op pages p := by
  constructor
  · intro hActs
    cases op with
    | getllar => exact hActs.getllar
    | putllc => exact hActs.putllc
    | putlluc => exact hActs.putlluc
  · intro hOne g notify arg1 arg2 s hParams hPages hCons
    subst hPages
    cases op with
    | getllar => exact hOne.getllar hParams hCons
    | putllc => exact hOne.putllc hParams hCons
    | putlluc => exact hOne.putlluc hParams hCons

/-
  An unconditional put to the second byte of a line, which
  fails the assertion that it is on one line.
-/
theorem not_actsOnLine :
    ¬ ActsOnLine .putlluc allocPages ⟨0, 0, 1, 0x80⟩ := by
  intro hActs
  rcases hActs.of_probe 0 (fun _ => 0) with
    ⟨t, c, hCommand, -⟩
  rcases Mfc.command_putlluc_iff.mp hCommand with
    ⟨-, -, stored, memory, hWrite, -⟩
  have hFails :
      (MainMemory.atomic 0 none 0 0).writeCond true 1#32
          (FlatMemory.get (fun _ => 0) 0#18 128)
          (probe allocPages ⟨0, 0, 1, 0x80⟩ 0
            (fun _ => 0)).memory = none := rfl
  cases hFails.symm.trans hWrite

end Ps3emu
