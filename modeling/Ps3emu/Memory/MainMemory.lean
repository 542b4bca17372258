import Ps3emu.Library.Bytes
import Ps3emu.Memory.ModificationMap
import Ps3emu.Memory.ReservationMap

/-
  `MainMemory`: host blocks behind a page table, the typed
  and bulk accesses, and the sections that run under the
  line locks.

  A host pointer is a block and an offset into it, so that
  an access that runs past the end of a separately allocated
  page stays in that page's block and reaches no other page.
  Failed assertions and accesses through a null page are
  `none`.  Accesses to the special windows leave this state
  as it is; they are the subject of `Ps3emu.Spu.Window`.

  Key definitions include:
    * `HostPointer`, `PageTable`, `MainMemory`
    * `MainMemory.reset`
    * `MainMemory.getMemoryPointer`, `MainMemory.byte`
    * `MainMemory.load`, `MainMemory.store`
    * `MainMemory.readMemory`, `MainMemory.writeMemory`
    * `MainMemory.loadReserve`, `MainMemory.writeCond`

  Key theorems include:
    * `MainMemory.byte_write_of_far`
    * `MainMemory.byte_write_of_pointer`
    * `MainMemory.read_write_of_far`
    * `MainMemory.store_of_pointer`, `MainMemory.load_eq`
-/

------------------------------------------------------------
-- Host Memory
------------------------------------------------------------

namespace Ps3emu

structure HostPointer where
  block : Nat
  offset : Nat
deriving DecidableEq

namespace HostPointer

def add (p : HostPointer) (n : Nat) : HostPointer :=
  { p with offset := p.offset + n }

end HostPointer

/- The byte at an offset of a block. -/
abbrev HostMemory := Nat → Nat → Byte

namespace HostMemory

/- `memcpy` out of host memory. -/
def read
    (h : HostMemory)
    (p : HostPointer)
    (n : Nat) : List Byte :=
  (List.range n).map (fun i => h p.block (p.offset + i))

/- `memcpy` into host memory. -/
def write
    (h : HostMemory)
    (p : HostPointer)
    (bytes : List Byte) : HostMemory :=
  fun block offset =>
    if block = p.block ∧ p.offset ≤ offset ∧
        offset < p.offset + bytes.length then
      bytes.getD (offset - p.offset) 0
    else h block offset

@[simp] theorem length_read
    (h : HostMemory)
    (p : HostPointer)
    (n : Nat) :
    (h.read p n).length = n := by
  simp [read]

end HostMemory

/-
  The host pointer of every allocated page.  No page of the
  special windows is allocated.  Pages that share a block lie
  in it at their guest distance: `reset` gives every page a
  block of its own, and `provideMemory` spreads consecutive
  pages over one block.
-/
structure PageTable where
  ptr : Nat → Option HostPointer
  ordinary : ∀ p x, ptr p = some x → p < 0xe00
  linear :
    ∀ p q x y,
      ptr p = some x →
      ptr q = some y →
      x.block = y.block →
      x.offset + q * defaultMainMemoryPageSize =
        y.offset + p * defaultMainMemoryPageSize

structure MainMemory where
  pages : PageTable
  host : HostMemory
  rmap : ReservationMap
  mmap : ModificationMap

/- The 256 MB regions that `reset` allocates. -/
def allocatedRegions : List Nat := [0, 1, 3, 4, 7, 0xd]

/- Every page is allocated alone, as the block of its number. -/
def allocPages : PageTable where
  ptr := fun p =>
    if p / 256 ∈ allocatedRegions then some ⟨p, 0⟩ else none
  ordinary := by
    intro p x hx
    have hMem : p / 256 ∈ allocatedRegions := by
      by_contra hNot
      simp [hNot] at hx
    simp only [allocatedRegions, List.mem_cons,
      List.not_mem_nil, or_false] at hMem
    omega
  linear := by
    intro p q x y hx hy hBlock
    split at hx
    case isFalse => cases hx
    case isTrue =>
      split at hy
      case isFalse => cases hy
      case isTrue =>
        obtain rfl := Option.some.inj hx
        obtain rfl := Option.some.inj hy
        obtain rfl : p = q := hBlock
        rfl

/- The zeroed memory that the constructor sets up. -/
def MainMemory.reset : MainMemory where
  pages := allocPages
  host := fun _ _ => 0
  rmap := ReservationMap.empty
  mmap := fun _ => false

------------------------------------------------------------
-- Guest Bytes
------------------------------------------------------------

namespace MainMemory

/- A null page fails the assertion, or faults when used. -/
def getMemoryPointer
    (m : MainMemory)
    (va : Ps3Uintptr) : Option HostPointer :=
  (m.pages.ptr (VirtualAddress.page va)).map
    (fun p => p.add (VirtualAddress.offset va))

/- The byte an address denotes, if its page is allocated. -/
def byte
    (m : MainMemory)
    (va : Ps3Uintptr) : Option Byte :=
  (m.getMemoryPointer va).map
    (fun p => m.host p.block p.offset)

/- Copy bytes into host memory. -/
def write
    (m : MainMemory)
    (p : HostPointer)
    (bytes : List Byte) : MainMemory :=
  { m with host := m.host.write p bytes }

variable (m : MainMemory) (p : HostPointer)

@[simp] theorem pages_write
    (bytes : List Byte) :
    (m.write p bytes).pages = m.pages := rfl

@[simp] theorem rmap_write
    (bytes : List Byte) :
    (m.write p bytes).rmap = m.rmap := rfl

@[simp] theorem mmap_write
    (bytes : List Byte) :
    (m.write p bytes).mmap = m.mmap := rfl

@[simp] theorem getMemoryPointer_write
    (bytes : List Byte)
    (va : Ps3Uintptr) :
    (m.write p bytes).getMemoryPointer va =
      m.getMemoryPointer va := rfl

/- Guest bytes depend on the page table and host only. -/
theorem byte_congr
    {m m' : MainMemory}
    (hPages : m'.pages = m.pages)
    (hHost : m'.host = m.host)
    (va : Ps3Uintptr) :
    m'.byte va = m.byte va := by
  simp [byte, getMemoryPointer, hPages, hHost]

variable {p : HostPointer} {va : Ps3Uintptr}

/- An address with a pointer is an ordinary address. -/
theorem toNat_lt_of_pointer
    (hp : m.getMemoryPointer va = some p) :
    va.toNat < 0xe0000000 := by
  rcases Option.map_eq_some_iff.mp hp with ⟨x, hx, -⟩
  have hPage := m.pages.ordinary _ x hx
  rw [VirtualAddress.page_eq] at hPage
  omega

variable {q : HostPointer}

/-
  Pointers into one block differ by as much as the guest
  addresses they stand for.
-/
theorem getMemoryPointer_linear
    {a b : Ps3Uintptr}
    (hp : m.getMemoryPointer a = some p)
    (hq : m.getMemoryPointer b = some q)
    (hBlock : p.block = q.block) :
    p.offset + b.toNat = q.offset + a.toNat := by
  rcases Option.map_eq_some_iff.mp hp with ⟨x, hx, rfl⟩
  rcases Option.map_eq_some_iff.mp hq with ⟨y, hy, rfl⟩
  have hLinear := m.pages.linear _ _ x y hx hy hBlock
  have ha := VirtualAddress.toNat_eq a
  have hb := VirtualAddress.toNat_eq b
  simp only [defaultMainMemoryPageSize_eq] at hLinear
  simp only [HostPointer.add]
  omega

variable (bytes : List Byte)

/-
  A copy through the pointer of `va` changes no byte outside
  the guest range that it covers.
-/
theorem byte_write_of_far
    (hp : m.getMemoryPointer va = some p)
    (a : Ps3Uintptr)
    (hFar : ¬ distance va a < bytes.length) :
    (m.write p bytes).byte a = m.byte a := by
  simp only [byte, getMemoryPointer_write]
  cases hq : m.getMemoryPointer a with
  | none => rfl
  | some q =>
      simp only [Option.map_some, Option.some.injEq, write,
        HostMemory.write]
      apply if_neg
      rintro ⟨hBlock, hLower, hUpper⟩
      apply hFar
      have hLinear :=
        m.getMemoryPointer_linear hp hq hBlock.symm
      rw [distance, Masks.toNat_sub_of_le va a (by omega)]
      omega

/-
  Reading a range of addresses after a copy that covers none
  of them reads what was there.
-/
theorem read_write_of_far
    {va w : Ps3Uintptr}
    (n : Nat)
    (hp : m.getMemoryPointer va = some p)
    (hq : m.getMemoryPointer w = some q)
    (hWrap : w.toNat + n ≤ 2 ^ 32)
    (hFar :
      ∀ a, distance w a < n →
        ¬ distance va a < bytes.length) :
    (m.host.write p bytes).read q n = m.host.read q n := by
  apply List.map_congr_left
  intro i hi
  have hLt : i < n := List.mem_range.mp hi
  apply if_neg
  rintro ⟨hBlock, hLower, hUpper⟩
  have hLinear := m.getMemoryPointer_linear hp hq hBlock.symm
  have hNat := toNat_add_ofNat w i (by omega)
  have hNear := distance_add w i (by omega)
  refine hFar (w + BitVec.ofNat 32 i) (by omega) ?_
  rw [distance, Masks.toNat_sub_of_le va _ (by omega), hNat]
  omega

/- Reading back a copy of the same length. -/
theorem read_write_self
    (h : HostMemory)
    (p : HostPointer)
    (bytes : List Byte) :
    (h.write p bytes).read p bytes.length = bytes := by
  apply List.ext_getElem
  · simp
  · intro i hi hLt
    simp [HostMemory.read, HostMemory.write, hLt]

/-
  A copy through the pointer of `va` sets the byte at `a`
  when the two addresses lie together in host memory.
-/
theorem byte_write_of_pointer
    {a : Ps3Uintptr}
    (i : Nat)
    (ha : m.getMemoryPointer a = some (p.add i))
    (hi : i < bytes.length) :
    (m.write p bytes).byte a = some (bytes.getD i 0) := by
  rw [byte, getMemoryPointer_write, ha]
  simp [write, HostMemory.write, HostPointer.add, hi]

/- A copy into one block changes no byte of another. -/
theorem byte_write_of_block
    {a : Ps3Uintptr}
    (ha : m.getMemoryPointer a = some q)
    (hBlock : q.block ≠ p.block) :
    (m.write p bytes).byte a = m.byte a := by
  rw [byte, byte, getMemoryPointer_write, ha]
  simp [write, HostMemory.write, hBlock]

/- Addresses on one page have neighbouring pointers. -/
theorem getMemoryPointer_add_eq
    (va : Ps3Uintptr)
    (i : Nat)
    (hi : VirtualAddress.offset va + i <
      defaultMainMemoryPageSize) :
    m.getMemoryPointer (va + BitVec.ofNat 32 i) =
      (m.getMemoryPointer va).map (fun p => p.add i) := by
  have hVa := va.isLt
  rw [defaultMainMemoryPageSize_eq,
    VirtualAddress.offset_eq] at hi
  have hNat :
      (va + BitVec.ofNat 32 i).toNat = va.toNat + i :=
    toNat_add_ofNat va i (by omega)
  have hPage :
      VirtualAddress.page (va + BitVec.ofNat 32 i) =
        VirtualAddress.page va := by
    rw [VirtualAddress.page_eq, VirtualAddress.page_eq, hNat]
    omega
  have hOffset :
      VirtualAddress.offset (va + BitVec.ofNat 32 i) =
        VirtualAddress.offset va + i := by
    rw [VirtualAddress.offset_eq, VirtualAddress.offset_eq,
      hNat]
    omega
  rw [getMemoryPointer, getMemoryPointer, hPage, hOffset,
    Option.map_map]
  simp only [Function.comp_def, HostPointer.add, Nat.add_assoc]

theorem getMemoryPointer_add
    (hp : m.getMemoryPointer va = some p)
    (i : Nat)
    (hi : VirtualAddress.offset va + i <
      defaultMainMemoryPageSize) :
    m.getMemoryPointer (va + BitVec.ofNat 32 i) =
      some (p.add i) := by
  rw [m.getMemoryPointer_add_eq va i hi, hp, Option.map_some]

------------------------------------------------------------
-- Typed Accesses
------------------------------------------------------------

end MainMemory

/- The widths `IntTraits` is specialised for. -/
inductive AccessLen where
  | one | two | four | eight | sixteen
deriving DecidableEq

namespace AccessLen

def bytes : AccessLen → Nat
  | one => 1
  | two => 2
  | four => 4
  | eight => 8
  | sixteen => 16

theorem bytes_pos (len : AccessLen) : 0 < len.bytes := by
  cases len <;> decide

theorem bytes_le (len : AccessLen) : len.bytes ≤ 16 := by
  cases len <;> decide

end AccessLen

/- The widths a reservation can be taken with. -/
inductive ReserveLen where
  | four | eight | line
deriving DecidableEq

namespace ReserveLen

def bytes : ReserveLen → Nat
  | four => 4
  | eight => 8
  | line => 128

theorem bytes_le (len : ReserveLen) : len.bytes ≤ 128 := by
  cases len <;> decide

theorem bytes_pos (len : ReserveLen) : 0 < len.bytes := by
  cases len <;> decide

end ReserveLen

/-
  The lines `ReservationMap::lock<Len>` locks: the line of
  the address and, for an access that runs past its end, the
  line after it.
-/
def lockedLines
    (len : Nat)
    (va : Ps3Uintptr) : Nat × Option Nat :=
  (lineIndex va,
    if lineOffset va + len > 128 then some (lineIndex va + 1)
    else none)

namespace MainMemory

/-
  The part of `load` below the special-memory test, which
  only four-byte loads make.
-/
def load
    (m : MainMemory)
    (len : AccessLen)
    (va : Ps3Uintptr) : Option (Word len.bytes) :=
  if len = .four ∧ isRawSpuVa va then none
  else
    (m.getMemoryPointer va).map (fun ptr =>
      Bytes.reverseWord
        (Bytes.ofLittleEndian len.bytes
          (m.host.read ptr len.bytes)))

/- The section of `store` that holds the line locks. -/
def storeLocked
    (m : MainMemory)
    (len : AccessLen)
    (va : Ps3Uintptr)
    (value : Word len.bytes)
    (granule : Option GranuleId) : Option MainMemory :=
  (m.getMemoryPointer va).map (fun ptr =>
    let (line, nextLine) := lockedLines len.bytes va
    let reversedValue := Bytes.reverseWord value
    let m' := m.write ptr (Bytes.littleEndian reversedValue)
    { m' with
      rmap := m'.rmap.destroyExcept line nextLine granule })

/- `_mmap.mark<Len>(va)`, after the locks are released. -/
def markFor
    (m : MainMemory)
    (va : Ps3Uintptr) : MainMemory :=
  { m with mmap := m.mmap.markFor va }

def store
    (m : MainMemory)
    (len : AccessLen)
    (va : Ps3Uintptr)
    (value : Word len.bytes)
    (granule : Option GranuleId) : Option MainMemory :=
  if isSpecialVa va then some m
  else
    (m.storeLocked len va value granule).map
      (fun m' => m'.markFor va)

/- A store writes the bytes highest first. -/
theorem store_of_pointer
    (m : MainMemory)
    (len : AccessLen)
    {va : Ps3Uintptr}
    {p : HostPointer}
    (value : Word len.bytes)
    (granule : Option GranuleId)
    (hp : m.getMemoryPointer va = some p) :
    ∃ m',
      m.store len va value granule = some m' ∧
        m'.pages = m.pages ∧
          m'.host = m.host.write p (Bytes.bigEndian value) := by
  have hOrdinary : ¬ isSpecialVa va = true := by
    have hVa := m.toNat_lt_of_pointer hp
    rw [isSpecialVa_iff]
    omega
  rw [store, if_neg hOrdinary, storeLocked, hp,
    ← Bytes.littleEndian_reverseWord]
  exact ⟨_, rfl, rfl, rfl⟩

theorem pages_store
    {m m' : MainMemory}
    {len : AccessLen}
    {va : Ps3Uintptr}
    {value : Word len.bytes}
    {granule : Option GranuleId}
    (hStore : m.store len va value granule = some m') :
    m'.pages = m.pages := by
  unfold store at hStore
  split at hStore
  case isTrue => rw [Option.some.inj hStore]
  case isFalse =>
    rcases Option.map_eq_some_iff.mp hStore with
      ⟨u, hLocked, rfl⟩
    rcases Option.map_eq_some_iff.mp hLocked with ⟨_, _, rfl⟩
    rfl

/- A load reads the bytes highest first. -/
theorem load_eq
    (m : MainMemory)
    (len : AccessLen)
    (va : Ps3Uintptr)
    (hOrdinary : va.toNat < 0xe0000000) :
    m.load len va =
      (m.getMemoryPointer va).map (fun ptr =>
        Bytes.ofBigEndian len.bytes
          (m.host.read ptr len.bytes)) := by
  have hRaw : ¬ (len = .four ∧ isRawSpuVa va = true) := by
    rw [isRawSpuVa_iff]
    omega
  rw [load, if_neg hRaw]
  congr 1
  funext ptr
  exact Bytes.reverseWord_ofLittleEndian _ (by simp)

------------------------------------------------------------
-- Bulk Accesses
------------------------------------------------------------

/- `std::min(last, (va + 128) & 0xffffff80)`. -/
def chunkEnd (va last : Ps3Uintptr) : Ps3Uintptr :=
  let next := (va + 128#32) &&& 0xffffff80#32
  if next < last then next else last

def mark
    (m : MainMemory)
    (va size : Ps3Uintptr) : MainMemory :=
  { m with mmap := m.mmap.mark va size }

/-
  One iteration of the loop of `writeMemory`: the chunk up
  to the end of the line is copied under the line's lock.
-/
def writeChunk
    (m : MainMemory)
    (va last : Ps3Uintptr)
    (src : List Byte)
    (granule : Option GranuleId) : Option MainMemory :=
  let size := (chunkEnd va last - va).toNat
  (m.getMemoryPointer va).map (fun dest =>
    let (line, nextLine) :=
      lockedLines cacheLine (va &&& 0xffffff80#32)
    let m' := m.write dest (src.take size)
    { m' with
      rmap := m'.rmap.destroyExcept line nextLine granule })

/-
  The loop of `writeMemory`.  Each iteration copies at least
  one byte, so the length of the source bounds them.
-/
def writeLoop
    (last : Ps3Uintptr)
    (granule : Option GranuleId) :
    Nat → MainMemory → Ps3Uintptr → List Byte →
      Option MainMemory
  | 0, m, va, _ => if va = last then some m else none
  | fuel + 1, m, va, src =>
      if va = last then some m
      else
        let next := chunkEnd va last
        (m.writeChunk va last src granule).bind (fun m' =>
          writeLoop last granule fuel m' next
            (src.drop (next - va).toNat))

def writeMemory
    (m : MainMemory)
    (va : Ps3Uintptr)
    (buf : List Byte)
    (granule : Option GranuleId) : Option MainMemory :=
  if isSpecialVa va then some m
  else
    let len := BitVec.ofNat 32 buf.length
    writeLoop (va + len) granule buf.length (m.mark va len)
      va buf

def setMemory
    (m : MainMemory)
    (va : Ps3Uintptr)
    (value : Byte)
    (len : Ps3Uintptr)
    (granule : Option GranuleId) : Option MainMemory :=
  m.writeMemory va (List.replicate len.toNat value) granule

/- The loop of `readMemory`, with the bytes copied so far. -/
def readLoop
    (m : MainMemory)
    (last : Ps3Uintptr) :
    Nat → Ps3Uintptr → List Byte → Option (List Byte)
  | 0, va, dest => if va = last then some dest else none
  | fuel + 1, va, dest =>
      if va = last then some dest
      else
        let next := chunkEnd va last
        (m.getMemoryPointer va).bind (fun src =>
          readLoop m last fuel next
            (dest ++ m.host.read src (next - va).toNat))

/-
  The part of `readMemory` below the special-memory test,
  which only four-byte reads make.
-/
def readMemory
    (m : MainMemory)
    (va len : Ps3Uintptr) : Option (List Byte) :=
  if len = 4#32 ∧ isRawSpuVa va then none
  else readLoop m (va + len) len.toNat va []

------------------------------------------------------------
-- Locked Lines and Chunks
------------------------------------------------------------

end MainMemory

/-
  The locked lines are the lines of the bytes accessed.
-/
theorem mem_lockedLines_iff
    (len : Nat)
    (va : Ps3Uintptr)
    (hLen : 0 < len)
    (hLine : len ≤ cacheLine)
    (hWrap : va.toNat + len ≤ 2 ^ 32)
    (line : Nat) :
    (line = (lockedLines len va).1 ∨
        some line = (lockedLines len va).2) ↔
      ∃ a, distance va a < len ∧ lineIndex a = line := by
  have hCases :
      (line = (lockedLines len va).1 ∨
          some line = (lockedLines len va).2) ↔
        line = va.toNat / 128 ∨
          (va.toNat % 128 + len > 128 ∧
            line = va.toNat / 128 + 1) := by
    simp only [lockedLines, lineIndex_eq, lineOffset_eq]
    split <;> grind
  rw [hCases]
  constructor
  · rintro (hFirst | ⟨hCross, hNext⟩)
    · refine ⟨va, ?_, ?_⟩
      · simpa [distance] using hLen
      · rw [lineIndex_eq, hFirst]
    · refine
        ⟨va + BitVec.ofNat 32 (len - 1), ?_, ?_⟩
      · rw [distance_add va _ (by omega)]
        omega
      · rw [lineIndex_eq,
          toNat_add_ofNat va _ (by omega), hNext]
        simp only [cacheLine] at hLine
        omega
  · rintro ⟨a, hDistance, hIndex⟩
    have hEq := toNat_add_ofNat va (distance va a) (by omega)
    rw [add_distance] at hEq
    rw [lineIndex_eq] at hIndex
    simp only [cacheLine] at hLine
    omega

/- The lock of a whole line takes that line only. -/
theorem lockedLines_line (va : Ps3Uintptr) :
    lockedLines cacheLine (va &&& 0xffffff80#32) =
      (lineIndex va, none) := by
  have hBase :
      (va &&& 0xffffff80#32).toNat = va.toNat / 128 * 128 :=
    Masks.toNat_and_high va 7 (by omega)
  simp only [lockedLines, lineIndex_eq, lineOffset_eq, hBase,
    cacheLine]
  rw [if_neg (by omega)]
  simp

namespace MainMemory

/-
  A chunk ends at the end of the range or of the line,
  whichever comes first.
-/
theorem toNat_chunkEnd
    (va last : Ps3Uintptr)
    (hVa : va.toNat < 0xe0000000) :
    (chunkEnd va last).toNat =
      min last.toNat ((va.toNat / 128 + 1) * 128) := by
  have hNext :
      ((va + 128#32) &&& 0xffffff80#32).toNat =
        (va.toNat / 128 + 1) * 128 := by
    have hMask :=
      Masks.toNat_and_high (va + 128#32) 7 (by omega)
    have hAdd : (va + 128#32).toNat = va.toNat + 128 :=
      toNat_add_ofNat va 128 (by omega)
    rw [hAdd] at hMask
    exact hMask.trans (by omega)
  simp only [chunkEnd]
  split
  · rename_i hLt
    rw [BitVec.lt_def, hNext] at hLt
    omega
  · rename_i hLt
    rw [BitVec.lt_def, hNext] at hLt
    omega

/- The size of a chunk, between one byte and one line. -/
theorem toNat_chunkEnd_sub
    (va last : Ps3Uintptr)
    (hVa : va.toNat < 0xe0000000)
    (hLast : va.toNat < last.toNat) :
    (chunkEnd va last - va).toNat =
      min (last.toNat - va.toNat) (128 - va.toNat % 128) := by
  have hEnd := toNat_chunkEnd va last hVa
  rw [Masks.toNat_sub_of_le va _ (by omega), hEnd]
  omega

/- Every byte of a chunk lies on the line of its start. -/
theorem lineIndex_of_chunk
    (va last a : Ps3Uintptr)
    (hVa : va.toNat < 0xe0000000)
    (hLast : va.toNat < last.toNat)
    (hDistance :
      distance va a < (chunkEnd va last - va).toNat) :
    lineIndex a = lineIndex va := by
  rw [toNat_chunkEnd_sub va last hVa hLast] at hDistance
  have hEq := toNat_add_ofNat va (distance va a) (by omega)
  rw [add_distance] at hEq
  rw [lineIndex_eq, lineIndex_eq, hEq]
  omega

------------------------------------------------------------
-- Reservations
------------------------------------------------------------

/- The alignment `loadReserve` asserts. -/
def reserveAligned
    (len : ReserveLen)
    (va : Ps3Uintptr) : Bool :=
  match len with
  | .four => va &&& 0b11#32 == 0#32
  | .eight => va &&& 0b111#32 == 0#32
  | .line => va &&& 0x7f#32 == 0#32

/- The section of `loadReserve` under the old line's lock. -/
def unreserveLocked
    (m : MainMemory)
    (g : GranuleId) : MainMemory :=
  { m with rmap := m.rmap.destroySingleReservation g }

/-
  The section of `loadReserve` under the new line's lock,
  with the bytes it copies out.
-/
def reserveLocked
    (m : MainMemory)
    (len : ReserveLen)
    (g : GranuleId)
    (va : Ps3Uintptr)
    (notify : Option Nat)
    (arg1 arg2 : Nat) : Option (MainMemory × List Byte) :=
  let (line, nextLine) := lockedLines len.bytes va
  if nextLine.isSome then none
  else
    (m.getMemoryPointer va).map (fun ptr =>
      ({ m with
          rmap := m.rmap.reserve g line notify arg1 arg2 },
        m.host.read ptr len.bytes))

/- `loadReserve` run by one agent without interruption. -/
def loadReserve
    (m : MainMemory)
    (len : ReserveLen)
    (g : GranuleId)
    (va : Ps3Uintptr)
    (notify : Option Nat)
    (arg1 arg2 : Nat) : Option (MainMemory × List Byte) :=
  if reserveAligned len va then
    let m' :=
      if (m.rmap.lineOf g).isSome then m.unreserveLocked g
      else m
    m'.reserveLocked len g va notify arg1 arg2
  else none

/-
  The section of `writeCond` under the line lock: whether it
  stored, and the memory after it.  `granule` is
  `g_state.granule`, which only the conditional form needs.
-/
def writeCondLocked
    (m : MainMemory)
    (len : ReserveLen)
    (unconditional : Bool)
    (granule : Option GranuleId)
    (va : Ps3Uintptr)
    (buf : List Byte) : Option (MainMemory × Bool) :=
  let (line, nextLine) := lockedLines len.bytes va
  if nextLine.isSome then none
  else if !unconditional && granule.isNone then none
  else if unconditional || granule.any (m.rmap.contains line)
  then
    (m.getMemoryPointer va).map (fun ptr =>
      let m' := m.write ptr (buf.take len.bytes)
      ({ m' with rmap := m'.rmap.destroySingleLine line },
        true))
  else some (m, false)

def writeCond
    (m : MainMemory)
    (len : ReserveLen)
    (unconditional : Bool)
    (granule : Option GranuleId)
    (va : Ps3Uintptr)
    (buf : List Byte) : Option (MainMemory × Bool) :=
  (m.writeCondLocked len unconditional granule va buf).map
    (fun (m', stored) =>
      (if stored then m'.markFor va else m', stored))

end MainMemory

end Ps3emu
