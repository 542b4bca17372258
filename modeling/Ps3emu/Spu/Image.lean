import Ps3emu.Library.Overlay
import Ps3emu.Memory.Flat
import Ps3emu.Spu.Channels

/-
  SPU images: the table of segments that is made from the
  program headers of an ELF file, and the copying of its
  segments into local storage.

  Key definitions include:
    * `Elf32Phdr`, `SysSpuSegment`, `SysSpuImage`
    * `SysSpu.spuImageInit`, `SysSpu.spuImageMap`
    * `SysSpu.Loads`, `SysSpu.WellPlaced`

  Key theorems include:
    * `SysSpuSegment.decode_encode`
    * `SysSpu.byte_of_storeTable`
    * `SysSpu.spuImageMap_of_init`
    * `SysSpu.loads_iff`
-/

------------------------------------------------------------
-- Records
------------------------------------------------------------

namespace Ps3emu

def bigUint16 (bytes : List Byte) (offset : Nat) : BitVec 16 :=
  Bytes.ofBigEndian 2 ((bytes.drop offset).take 2)

def bigUint32 (bytes : List Byte) (offset : Nat) : BitVec 32 :=
  Bytes.ofBigEndian 4 ((bytes.drop offset).take 4)

/- The fields of the ELF header that are read. -/
structure Elf32Ehdr where
  eEntry : BitVec 32
  ePhoff : BitVec 32
  ePhentsize : BitVec 16
  ePhnum : BitVec 16
deriving DecidableEq

def Elf32Ehdr.size : Nat := 52

def Elf32Ehdr.decode (bytes : List Byte) : Elf32Ehdr where
  eEntry := bigUint32 bytes 24
  ePhoff := bigUint32 bytes 28
  ePhentsize := bigUint16 bytes 42
  ePhnum := bigUint16 bytes 44

/- The fields of a program header that are read. -/
structure Elf32Phdr where
  pType : BitVec 32
  pOffset : BitVec 32
  pVaddr : BitVec 32
  pFilesz : BitVec 32
  pMemsz : BitVec 32
deriving DecidableEq

def Elf32Phdr.size : Nat := 32

def Elf32Phdr.decode (bytes : List Byte) : Elf32Phdr where
  pType := bigUint32 bytes 0
  pOffset := bigUint32 bytes 4
  pVaddr := bigUint32 bytes 8
  pFilesz := bigUint32 bytes 16
  pMemsz := bigUint32 bytes 20

/- `src` is both members of the union. -/
structure SysSpuSegment where
  type : BitVec 32
  lsStart : BitVec 32
  size : BitVec 32
  src : BitVec 32
deriving DecidableEq

def SysSpuSegment.bytes : Nat := 24

/- The two padding words are never read. -/
def SysSpuSegment.encode (seg : SysSpuSegment) : List Byte :=
  Bytes.bigEndian (w := 4) seg.type ++
    (Bytes.bigEndian (w := 4) seg.lsStart ++
      (Bytes.bigEndian (w := 4) seg.size ++
        ([0, 0, 0, 0] ++
          (Bytes.bigEndian (w := 4) seg.src ++
            [0, 0, 0, 0]))))

def SysSpuSegment.decode (bytes : List Byte) : SysSpuSegment where
  type := bigUint32 bytes 0
  lsStart := bigUint32 bytes 4
  size := bigUint32 bytes 8
  src := bigUint32 bytes 16

structure SysSpuImage where
  type : BitVec 32 := 0
  entryPoint : BitVec 32 := 0
  segs : BitVec 32 := 0
  nsegs : BitVec 32 := 0
deriving DecidableEq

/- A word after bytes of a known number. -/
theorem bigUint32_append
    {before after : List Byte}
    {offset : Nat}
    (hOffset : before.length = offset)
    (v : BitVec 32) :
    bigUint32
        (before ++ (Bytes.bigEndian (w := 4) v ++ after))
        offset =
      v := by
  unfold bigUint32
  have hTake :
      (Bytes.bigEndian (w := 4) v ++ after).take 4 =
        Bytes.bigEndian (w := 4) v :=
    List.take_left' (Bytes.length_bigEndian _)
  rw [List.drop_left' hOffset, hTake]
  exact Bytes.ofBigEndian_bigEndian (w := 4) v

namespace SysSpuSegment

theorem length_encode
    (seg : SysSpuSegment) :
    seg.encode.length = SysSpuSegment.bytes := by
  unfold encode
  simp only [List.length_append, Bytes.length_bigEndian]
  rfl

/- The interpreter of the table reads what was put there. -/
theorem decode_encode
    (seg : SysSpuSegment) :
    decode seg.encode = seg := by
  have hWord :
      ∀ v : BitVec 32, (Bytes.bigEndian (w := 4) v).length = 4 :=
    fun v => Bytes.length_bigEndian (w := 4) v
  have hType : bigUint32 seg.encode 0 = seg.type :=
    @bigUint32_append [] _ 0 rfl seg.type
  have hStart : bigUint32 seg.encode 4 = seg.lsStart :=
    bigUint32_append (hWord seg.type) seg.lsStart
  have hSize : bigUint32 seg.encode 8 = seg.size := by
    unfold encode
    rw [← List.append_assoc]
    exact
      bigUint32_append (by rw [List.length_append, hWord, hWord])
        seg.size
  have hSrc : bigUint32 seg.encode 16 = seg.src := by
    unfold encode
    rw [← List.append_assoc, ← List.append_assoc,
      ← List.append_assoc]
    refine bigUint32_append ?_ seg.src
    simp only [List.length_append, hWord]
    rfl
  unfold decode
  rw [hType, hStart, hSize, hSrc]

end SysSpuSegment

------------------------------------------------------------
-- The Table of Segments
------------------------------------------------------------

/-
  The manager of the internal memory that starts at `base`.
  `allocateAligned` is the allocator that it places there: the
  offset of the block that it finds, and the memory after its
  own bookkeeping.  The managed memory is one host block.
-/
structure InternalMemoryManager where
  base : Ps3Uintptr
  allocateAligned :
    MainMemory → Nat → Nat → Option (Nat × MainMemory)
  mapped :
    ∀ m size alignment offset n p,
      allocateAligned m size alignment = some (offset, n) →
        m.getMemoryPointer base = some p →
          n.getMemoryPointer (base + BitVec.ofNat 32 offset) =
            some (p.add offset)

/- The address and the pointer of a block of zeros. -/
def InternalMemoryManager.allocInternalMemory
    (ialloc : InternalMemoryManager)
    (m : MainMemory)
    (size alignment : Nat) :
    Option (Ps3Uintptr × HostPointer × MainMemory) :=
  (m.getMemoryPointer ialloc.base).bind (fun fitp =>
    (ialloc.allocateAligned m size alignment).map
      (fun found =>
        (ialloc.base + BitVec.ofNat 32 found.1,
          fitp.add found.1,
          found.2.write (fitp.add found.1)
            (List.replicate size 0))))

namespace SysSpu

def SYS_SPU_IMAGE_TYPE_KERNEL : BitVec 32 := 1
def SYS_SPU_SEGMENT_TYPE_COPY : BitVec 32 := 1
def SYS_SPU_SEGMENT_TYPE_FILL : BitVec 32 := 2
def SYS_SPU_SEGMENT_TYPE_INFO : BitVec 32 := 4

def PT_LOAD : BitVec 32 := 1
def PT_NOTE : BitVec 32 := 4

/-
  The loop of `readString`, with the bytes read so far.  The
  memory ends before the chunks do.
-/
def readStringLoop
    (m : MainMemory)
    (va : Ps3Uintptr) :
    Nat → Ps3Uintptr → List Byte → Option (List Byte)
  | 0, _, _ => none
  | chunks + 1, pos, str =>
      (m.readMemory (va + pos) 16#32).bind (fun chunk =>
        if 0 ∈ str ++ chunk then
          some ((str ++ chunk).takeWhile (fun c => c ≠ 0))
        else
          readStringLoop m va chunks (pos + 16#32)
            (str ++ chunk))

def readString
    (m : MainMemory)
    (va : Ps3Uintptr) : Option (List Byte) :=
  readStringLoop m va (2 ^ 28) 0 []

/- The characters of `SPUNAME`. -/
def spuName : List Byte :=
  [0x53, 0x50, 0x55, 0x4e, 0x41, 0x4d, 0x45]

/- The checks of a note, which then names its description. -/
def noteSegment
    (m : MainMemory)
    (ph : Elf32Phdr)
    (seg : SysSpuSegment) : Option SysSpuSegment :=
  let pos := seg.src
  (m.load .four pos).bind (fun (namesz : BitVec 32) =>
    (m.load .four (pos + 4)).bind (fun (descsz : BitVec 32) =>
      (m.load .four (pos + 8)).bind (fun (type : BitVec 32) =>
        (readString m (pos + 12)).bind (fun name =>
          (readString m (pos + 12 + namesz)).bind (fun _ =>
            if type = 1 ∧ name = spuName ∧
                12 + namesz + descsz = ph.pFilesz then
              some
                { seg with
                  size := seg.size - (12 + namesz)
                  src := seg.src + (12 + namesz) }
            else none)))))

/- `seg`, before a note adjusts it. -/
def firstSegment
    (elf : Ps3Uintptr)
    (ph : Elf32Phdr) : SysSpuSegment where
  type :=
    if ph.pType = PT_LOAD then SYS_SPU_SEGMENT_TYPE_COPY
    else SYS_SPU_SEGMENT_TYPE_INFO
  lsStart := ph.pVaddr
  size := ph.pFilesz
  src := ph.pOffset + elf

/- `nextSeg`, the rest of the memory of a segment. -/
def nextSegment
    (seg : SysSpuSegment)
    (ph : Elf32Phdr) : SysSpuSegment where
  type := SYS_SPU_SEGMENT_TYPE_FILL
  lsStart := seg.lsStart + seg.size
  size := ph.pMemsz - ph.pFilesz
  src := 0

/- The segments of one program header. -/
def segmentsOf
    (m : MainMemory)
    (elf : Ps3Uintptr)
    (ph : Elf32Phdr) : Option (List SysSpuSegment) :=
  let seg := firstSegment elf ph
  -- The assertion never fails: no type is both of the two.
  if ph.pType ≠ PT_LOAD ∨ ph.pType ≠ PT_NOTE then
    if ph.pType = SYS_SPU_SEGMENT_TYPE_INFO then
      (noteSegment m ph seg).map (fun note => [note])
    else if ph.pMemsz ≠ ph.pFilesz then
      if ph.pMemsz > ph.pFilesz then
        some [seg, nextSegment seg ph]
      else none
    else some [seg]
  else none

def readEhdr
    (m : MainMemory)
    (elf : Ps3Uintptr) : Option Elf32Ehdr :=
  (m.readMemory elf (BitVec.ofNat 32 Elf32Ehdr.size)).map
    Elf32Ehdr.decode

def readPhdrs
    (m : MainMemory)
    (va : Ps3Uintptr)
    (n : Nat) : Option (List Elf32Phdr) :=
  (m.readMemory va (BitVec.ofNat 32 (n * Elf32Phdr.size))).map
    (fun bytes =>
      (List.range n).map (fun i =>
        Elf32Phdr.decode (bytes.drop (i * Elf32Phdr.size))))

/- The program headers of an image. -/
def programHeaders
    (m : MainMemory)
    (elf : Ps3Uintptr) : Option (List Elf32Phdr) :=
  (readEhdr m elf).bind (fun header =>
    readPhdrs m (elf + header.ePhoff) header.ePhnum.toNat)

/- The table is stored in a block of the internal memory. -/
def storeTable
    (m : MainMemory)
    (ialloc : InternalMemoryManager)
    (image : SysSpuImage)
    (segs : List SysSpuSegment) :
    Option (MainMemory × SysSpuImage) :=
  let size := segs.length * SysSpuSegment.bytes
  (ialloc.allocInternalMemory m size 16).map (fun found =>
    (found.2.2.write found.2.1
        (segs.flatMap SysSpuSegment.encode),
      { image with
        segs := found.1
        nsegs := BitVec.ofNat 32 segs.length }))

/-
  Failed assertions, and accesses to memory that is not
  allocated, are `none`.
-/
def spuImageInit
    (m : MainMemory)
    (ialloc : InternalMemoryManager)
    (image : SysSpuImage)
    (elf : Ps3Uintptr)
    (storeSegments : Bool) :
    Option (MainMemory × SysSpuImage × List SysSpuSegment) :=
  (readEhdr m elf).bind (fun header =>
    let image :=
      { image with
        entryPoint := header.eEntry
        type := SYS_SPU_IMAGE_TYPE_KERNEL }
    if header.ePhentsize.toNat = Elf32Phdr.size then
      (readPhdrs m (elf + header.ePhoff)
          header.ePhnum.toNat).bind (fun phs =>
        (phs.mapM (segmentsOf m elf)).bind (fun groups =>
          let segs := groups.flatten
          if storeSegments then
            (storeTable m ialloc image segs).map (fun stored =>
              (stored.1, stored.2, segs))
          else some (m, image, segs)))
    else none)

------------------------------------------------------------
-- Mapping and Its Properties
------------------------------------------------------------

/-
  The bytes of the host from the start of a local storage;
  those from `localStorageSize` on lie behind it.
-/
abbrev LocalStorage := Nat → Byte

/- `memcpy` to an offset. -/
def copyTo
    (ls : LocalStorage)
    (start : Nat)
    (bytes : List Byte) : LocalStorage :=
  fun a =>
    if start ≤ a ∧ a < start + bytes.length then
      bytes.getD (a - start) 0
    else ls a

/- `memset` at an offset. -/
def fillFrom
    (ls : LocalStorage)
    (start size : Nat)
    (value : Byte) : LocalStorage :=
  fun a =>
    if start ≤ a ∧ a < start + size then value else ls a

/- The signed size of a fill is converted to a `size_t`. -/
def mapSegment
    (m : MainMemory)
    (ls : LocalStorage)
    (seg : SysSpuSegment) : Option LocalStorage :=
  if seg.type = SYS_SPU_SEGMENT_TYPE_COPY then
    (m.readMemory seg.src seg.size).map (fun bytes =>
      copyTo ls seg.lsStart.toNat bytes)
  else if seg.type = SYS_SPU_SEGMENT_TYPE_FILL then
    some
      (fillFrom ls seg.lsStart.toNat
        (seg.size.signExtend 64).toNat (seg.src.setWidth 8))
  else some ls

/- The records of a table in host memory. -/
def readTable
    (m : MainMemory)
    (p : HostPointer)
    (n : Nat) : List SysSpuSegment :=
  (List.range n).map (fun i =>
    SysSpuSegment.decode
      (m.host.read (p.add (i * SysSpuSegment.bytes))
        SysSpuSegment.bytes))

def spuImageMap
    (m : MainMemory)
    (image : SysSpuImage)
    (ls : LocalStorage) : Option LocalStorage :=
  (m.getMemoryPointer image.segs).bind (fun p =>
    (readTable m p image.nsegs.toInt.toNat).foldlM
      (mapSegment m) ls)

/- An address of a local storage inside a segment. -/
def Covers (ph : Elf32Phdr) (a : Nat) : Prop :=
  ph.pVaddr.toNat ≤ a ∧
    a < ph.pVaddr.toNat + ph.pMemsz.toNat

/- A byte of the file, as the memory holds it. -/
def fileByte
    (m : MainMemory)
    (elf : Ps3Uintptr)
    (ph : Elf32Phdr)
    (i : Nat) : Option Byte :=
  m.byte (ph.pOffset + elf + BitVec.ofNat 32 i)

/- What mapping an image has to leave in a local storage. -/
structure Loaded
    (m : MainMemory)
    (elf : Ps3Uintptr)
    (phs : List Elf32Phdr)
    (before after : LocalStorage) : Prop where
  inside :
    ∀ ph ∈ phs, ph.pType = PT_LOAD →
      ∀ i < ph.pMemsz.toNat,
        ph.pVaddr.toNat + i < localStorageSize
  file :
    ∀ ph ∈ phs, ph.pType = PT_LOAD →
      ∀ i < ph.pFilesz.toNat,
        fileByte m elf ph i =
          some (after (ph.pVaddr.toNat + i))
  zeros :
    ∀ ph ∈ phs, ph.pType = PT_LOAD →
      ∀ i, ph.pFilesz.toNat ≤ i → i < ph.pMemsz.toNat →
        after (ph.pVaddr.toNat + i) = 0
  frame :
    ∀ a,
      (∀ ph ∈ phs, ph.pType = PT_LOAD → ¬ Covers ph a) →
        after a = before a

/- Mapping loads the segments over every local storage. -/
def Loads
    (m : MainMemory)
    (image : SysSpuImage)
    (elf : Ps3Uintptr)
    (phs : List Elf32Phdr) : Prop :=
  ∀ before, ∃ after,
    spuImageMap m image before = some after ∧
      Loaded m elf phs before after

/- The byte that a segment has at an address. -/
def content
    (m : MainMemory)
    (elf : Ps3Uintptr)
    (ph : Elf32Phdr)
    (a : Nat) : Option Byte :=
  if a - ph.pVaddr.toNat < ph.pFilesz.toNat then
    fileByte m elf ph (a - ph.pVaddr.toNat)
  else some 0

/- An address in what is filled after the file bytes. -/
def Fills (ph : Elf32Phdr) (a : Nat) : Prop :=
  (ph.pVaddr + ph.pFilesz).toNat ≤ a ∧
    a < (ph.pVaddr + ph.pFilesz).toNat +
      ((ph.pMemsz - ph.pFilesz).signExtend 64).toNat

/-
  The loadable segments can be read and lie in the local
  storage, those that overlap agree, and what is filled for
  other headers lies in loadable segments that are zero there
  or come later.
-/
structure WellPlaced
    (m : MainMemory)
    (elf : Ps3Uintptr)
    (phs : List Elf32Phdr) : Prop where
  readable :
    ∀ ph ∈ phs, ph.pType = PT_LOAD →
      Flat.InRam m (ph.pOffset + elf) ph.pFilesz.toNat
  inside :
    ∀ ph ∈ phs, ph.pType = PT_LOAD →
      ph.pMemsz ≠ 0 →
        ph.pVaddr.toNat + ph.pMemsz.toNat ≤ localStorageSize
  agree :
    ∀ p ∈ phs, p.pType = PT_LOAD →
      ∀ q ∈ phs, q.pType = PT_LOAD →
        ∀ a, Covers p a → Covers q a →
          content m elf p a = content m elf q a
  fills :
    ∀ before o after,
      phs = before ++ o :: after →
        o.pType ≠ PT_LOAD → o.pType ≠ PT_NOTE →
          ∀ a, Fills o a →
            ∃ p ∈ phs, p.pType = PT_LOAD ∧ Covers p a ∧
              (content m elf p a = some 0 ∨
                ∃ q ∈ after, q.pType = PT_LOAD ∧ Covers q a)

------------------------------------------------------------
-- The Stored Table
------------------------------------------------------------

/- Part of a copy is read back. -/
theorem read_write_part
    (h : HostMemory)
    (p : HostPointer)
    (bytes : List Byte)
    {k n : Nat}
    (hFit : k + n ≤ bytes.length) :
    (h.write p bytes).read (p.add k) n =
      (bytes.drop k).take n := by
  apply List.ext_getElem
  · simp only [HostMemory.length_read, List.length_take,
      List.length_drop]
    omega
  · intro i hi hLt
    rw [HostMemory.length_read] at hi
    have hIn : k + i < bytes.length := by omega
    simp [HostMemory.read, HostMemory.write, HostPointer.add,
      Nat.add_assoc, hIn]

variable {segs : List SysSpuSegment}

/- A record is found at its place in the table. -/
theorem take_drop_encode
    {i : Nat}
    (hi : i < segs.length) :
    ((segs.flatMap SysSpuSegment.encode).drop
        (i * SysSpuSegment.bytes)).take SysSpuSegment.bytes =
      segs[i].encode := by
  induction segs generalizing i with
  | nil => cases hi
  | cons seg rest ih =>
      have hLength := SysSpuSegment.length_encode seg
      rw [List.flatMap_cons]
      cases i with
      | zero =>
          rw [Nat.zero_mul, List.drop_zero,
            List.take_left' hLength]
          rfl
      | succ i =>
          rw [Nat.succ_mul, Nat.add_comm, ← List.drop_drop,
            List.drop_left' hLength]
          exact ih (Nat.lt_of_succ_lt_succ hi)

theorem length_flatMap_encode
    (segs : List SysSpuSegment) :
    (segs.flatMap SysSpuSegment.encode).length =
      segs.length * SysSpuSegment.bytes := by
  induction segs with
  | nil => simp
  | cons seg rest ih =>
      rw [List.flatMap_cons, List.length_append, ih,
        SysSpuSegment.length_encode, List.length_cons,
        Nat.succ_mul, Nat.add_comm]

theorem readTable_write
    (m : MainMemory)
    (p : HostPointer)
    (segs : List SysSpuSegment) :
    readTable (m.write p (segs.flatMap SysSpuSegment.encode)) p
        segs.length =
      segs := by
  unfold readTable MainMemory.write
  dsimp only
  apply List.ext_getElem
  · simp
  · intro i _ hi
    have hFit :
        i * SysSpuSegment.bytes + SysSpuSegment.bytes ≤
          (segs.flatMap SysSpuSegment.encode).length := by
      rw [length_flatMap_encode, ← Nat.succ_mul]
      exact Nat.mul_le_mul_right _ hi
    rw [List.getElem_map, List.getElem_range,
      read_write_part _ _ _ hFit, take_drop_encode hi,
      SysSpuSegment.decode_encode]

variable {m n : MainMemory} {ialloc : InternalMemoryManager}
variable {image image' : SysSpuImage}

/- The table that was stored is the one that is mapped. -/
theorem spuImageMap_of_storeTable
    (hStore :
      storeTable m ialloc image segs = some (n, image'))
    (hLength : segs.length < 2 ^ 31)
    (ls : LocalStorage) :
    spuImageMap n image' ls = segs.foldlM (mapSegment n) ls := by
  rcases Option.map_eq_some_iff.mp hStore with
    ⟨⟨ea, p, k⟩, hAlloc, hEq⟩
  rcases Option.bind_eq_some_iff.mp hAlloc with
    ⟨fitp, hBase, hMap⟩
  rcases Option.map_eq_some_iff.mp hMap with
    ⟨⟨offset, k'⟩, hFound, hBlock⟩
  cases hBlock
  cases hEq
  have hPointer :=
    ialloc.mapped _ _ _ _ _ _ hFound hBase
  have hCount :
      (BitVec.ofNat 32 segs.length).toInt.toNat =
        segs.length := by
    have hNat : (BitVec.ofNat 32 segs.length).toNat =
        segs.length := by
      rw [BitVec.toNat_ofNat, Nat.mod_eq_of_lt (by omega)]
    rw [BitVec.toInt_eq_toNat_of_lt (by omega), hNat]
    rfl
  unfold spuImageMap
  dsimp only
  rw [MainMemory.getMemoryPointer_write,
    MainMemory.getMemoryPointer_write, hPointer,
    Option.bind_some, hCount, readTable_write]

------------------------------------------------------------
-- Parts of Records
------------------------------------------------------------

instance : Nontrivial Byte := ⟨⟨0, 1, by decide⟩⟩

/- The bytes of the memory as an array. -/
def bytesOf (m : MainMemory) : FlatMemory 32 :=
  fun va => (m.byte va).getD 0

theorem agrees_bytesOf
    (m : MainMemory) :
    Flat.Agrees m (bytesOf m) := by
  intro a b hByte
  unfold bytesOf
  rw [hByte]
  rfl

/- What a record puts into a local storage. -/
def part
    (m : MainMemory)
    (seg : SysSpuSegment)
    (a : Nat) : Option Byte :=
  if seg.type = SYS_SPU_SEGMENT_TYPE_COPY then
    if seg.lsStart.toNat ≤ a ∧
        a < seg.lsStart.toNat + seg.size.toNat then
      some
        (bytesOf m
          (seg.src + BitVec.ofNat 32 (a - seg.lsStart.toNat)))
    else none
  else if seg.type = SYS_SPU_SEGMENT_TYPE_FILL then
    if seg.lsStart.toNat ≤ a ∧
        a < seg.lsStart.toNat +
          (seg.size.signExtend 64).toNat then
      some (seg.src.setWidth 8)
    else none
  else none

/- A record can be mapped if its bytes can be read. -/
def Readable (m : MainMemory) (seg : SysSpuSegment) : Prop :=
  seg.type = SYS_SPU_SEGMENT_TYPE_COPY →
    Flat.InRam m seg.src seg.size.toNat

theorem mapSegment_eq
    {seg : SysSpuSegment}
    (hReadable : Readable m seg)
    (ls : LocalStorage) :
    mapSegment m ls seg =
      some (Overlay.apply ls [part m seg]) := by
  unfold mapSegment
  split
  case isTrue hCopy =>
    rw [Flat.readMemory_eq (agrees_bytesOf m) _ _
      (hReadable hCopy), Option.map_some]
    congr 1
    funext a
    rw [Overlay.apply_singleton]
    unfold copyTo part
    rw [if_pos hCopy, FlatMemory.length_get]
    split
    case isFalse => rfl
    case isTrue hIn =>
      have hLt : a - seg.lsStart.toNat < seg.size.toNat := by
        omega
      simp [FlatMemory.get, hLt]
  case isFalse hCopy =>
    split
    case isTrue hFill =>
      congr 1
      funext a
      rw [Overlay.apply_singleton]
      unfold fillFrom part
      rw [if_neg hCopy, if_pos hFill]
      split
      case isTrue => rfl
      case isFalse => rfl
    case isFalse hFill =>
      congr 1
      funext a
      rw [Overlay.apply_singleton]
      unfold part
      rw [if_neg hCopy, if_neg hFill]
      rfl

theorem foldlM_mapSegment
    (hReadable : ∀ seg ∈ segs, Readable m seg)
    (ls : LocalStorage) :
    segs.foldlM (mapSegment m) ls =
      some (Overlay.apply ls (segs.map (part m))) := by
  induction segs generalizing ls with
  | nil => rfl
  | cons seg rest ih =>
      rw [List.foldlM_cons,
        mapSegment_eq (hReadable seg List.mem_cons_self)]
      exact
        ih (fun other hMem =>
          hReadable other (List.mem_cons_of_mem _ hMem)) _

------------------------------------------------------------
-- Parts of Headers
------------------------------------------------------------

/- What the records of a header put into a local storage. -/
def headerPart
    (m : MainMemory)
    (elf : Ps3Uintptr)
    (ph : Elf32Phdr)
    (a : Nat) : Option Byte :=
  if ph.pType = PT_LOAD then
    if ph.pVaddr.toNat ≤ a ∧
        a < ph.pVaddr.toNat + ph.pMemsz.toNat then
      some ((content m elf ph a).getD 0)
    else none
  else if ph.pType = PT_NOTE then none
  else if (ph.pVaddr + ph.pFilesz).toNat ≤ a ∧
      a < (ph.pVaddr + ph.pFilesz).toNat +
        ((ph.pMemsz - ph.pFilesz).signExtend 64).toNat then
    some 0
  else none

/- A loadable segment that has bytes lies in local storage. -/
def Inside (ph : Elf32Phdr) : Prop :=
  ph.pType = PT_LOAD → ph.pMemsz ≠ 0 →
    ph.pVaddr.toNat + ph.pMemsz.toNat ≤ localStorageSize

variable {elf : Ps3Uintptr} {ph : Elf32Phdr}
variable {group : List SysSpuSegment}

/- The records that are made for a header. -/
theorem segmentsOf_cases
    (hSegments : segmentsOf m elf ph = some group) :
    (ph.pType = PT_NOTE ∧
        ∃ note, group = [note] ∧
          note.type = SYS_SPU_SEGMENT_TYPE_INFO) ∨
      (ph.pType ≠ PT_NOTE ∧
        (ph.pMemsz = ph.pFilesz ∧
            group = [firstSegment elf ph] ∨
          ph.pFilesz < ph.pMemsz ∧
            group =
              [firstSegment elf ph,
                nextSegment (firstSegment elf ph) ph])) := by
  unfold segmentsOf at hSegments
  dsimp only at hSegments
  split at hSegments
  case isFalse => cases hSegments
  case isTrue =>
    split at hSegments
    case isTrue hNote =>
      refine Or.inl ⟨hNote, ?_⟩
      rcases Option.map_eq_some_iff.mp hSegments with
        ⟨note, hNoted, rfl⟩
      refine ⟨note, rfl, ?_⟩
      have hNotLoad : ph.pType ≠ PT_LOAD := by
        rw [hNote]
        decide
      unfold noteSegment at hNoted
      dsimp only at hNoted
      rcases Option.bind_eq_some_iff.mp hNoted with
        ⟨namesz, -, hDescsz⟩
      rcases Option.bind_eq_some_iff.mp hDescsz with
        ⟨descsz, -, hType⟩
      rcases Option.bind_eq_some_iff.mp hType with
        ⟨type, -, hName⟩
      rcases Option.bind_eq_some_iff.mp hName with
        ⟨name, -, hDesc⟩
      rcases Option.bind_eq_some_iff.mp hDesc with
        ⟨desc, -, hIf⟩
      split at hIf
      case isFalse => cases hIf
      case isTrue =>
        cases hIf
        exact if_neg hNotLoad
    case isFalse hNote =>
      refine Or.inr ⟨hNote, ?_⟩
      split at hSegments
      case isFalse hSame =>
        cases hSegments
        exact Or.inl ⟨not_not.mp hSame, rfl⟩
      case isTrue =>
        split at hSegments
        case isFalse => cases hSegments
        case isTrue hMore =>
          cases hSegments
          exact Or.inr ⟨hMore, rfl⟩

theorem part_first
    (m : MainMemory)
    (elf : Ps3Uintptr)
    (ph : Elf32Phdr)
    (a : Nat) :
    part m (firstSegment elf ph) a =
      if ph.pType = PT_LOAD ∧ ph.pVaddr.toNat ≤ a ∧
          a < ph.pVaddr.toNat + ph.pFilesz.toNat then
        some
          ((fileByte m elf ph (a - ph.pVaddr.toNat)).getD 0)
      else none := by
  unfold part firstSegment
  dsimp only
  by_cases hLoad : ph.pType = PT_LOAD
  · simp [hLoad, fileByte, bytesOf]
  · simp [hLoad, SYS_SPU_SEGMENT_TYPE_INFO,
      SYS_SPU_SEGMENT_TYPE_COPY, SYS_SPU_SEGMENT_TYPE_FILL]

theorem part_next
    (m : MainMemory)
    (elf : Ps3Uintptr)
    (ph : Elf32Phdr)
    (a : Nat) :
    part m (nextSegment (firstSegment elf ph) ph) a =
      if (ph.pVaddr + ph.pFilesz).toNat ≤ a ∧
          a < (ph.pVaddr + ph.pFilesz).toNat +
            ((ph.pMemsz - ph.pFilesz).signExtend 64).toNat then
        some 0
      else none := by
  unfold part nextSegment firstSegment
  simp [SYS_SPU_SEGMENT_TYPE_COPY, SYS_SPU_SEGMENT_TYPE_FILL]

/- A fill of a segment in local storage is what it seems. -/
theorem fill_of_inside
    (hMore : ph.pFilesz < ph.pMemsz)
    (hIn :
      ph.pVaddr.toNat + ph.pMemsz.toNat ≤ localStorageSize) :
    (ph.pVaddr + ph.pFilesz).toNat =
        ph.pVaddr.toNat + ph.pFilesz.toNat ∧
      ((ph.pMemsz - ph.pFilesz).signExtend 64).toNat =
        ph.pMemsz.toNat - ph.pFilesz.toNat := by
  have hLt := BitVec.lt_def.mp hMore
  unfold localStorageSize at hIn
  have hSub :
      (ph.pMemsz - ph.pFilesz).toNat =
        ph.pMemsz.toNat - ph.pFilesz.toNat :=
    BitVec.toNat_sub_of_le (BitVec.le_of_lt hMore)
  refine ⟨?_, ?_⟩
  · rw [BitVec.toNat_add, Nat.mod_eq_of_lt (by omega)]
  · have hSign : (ph.pMemsz - ph.pFilesz).msb = false := by
      rw [BitVec.msb_eq_false_iff_two_mul_lt]
      omega
    rw [BitVec.signExtend_eq_setWidth_of_msb_false hSign,
      BitVec.toNat_setWidth, hSub, Nat.mod_eq_of_lt (by omega)]

/- The records of a header act like its one part. -/
theorem apply_group
    (hSegments : segmentsOf m elf ph = some group)
    (hInside : Inside ph)
    (ls : LocalStorage) :
    Overlay.apply ls (group.map (part n)) =
      Overlay.apply ls [headerPart n elf ph] := by
  funext a
  rcases segmentsOf_cases hSegments with
    ⟨hNote, note, rfl, hInfo⟩ |
    ⟨hNote, ⟨hSame, rfl⟩ | ⟨hMore, rfl⟩⟩
  · rw [List.map_singleton, Overlay.apply_singleton,
      Overlay.apply_singleton]
    unfold part headerPart
    rw [hInfo, hNote]
    rfl
  · rw [List.map_singleton, Overlay.apply_singleton,
      Overlay.apply_singleton, part_first]
    unfold headerPart content
    rw [hSame]
    by_cases hLoad : ph.pType = PT_LOAD
    · simp only [hLoad, true_and, if_true]
      split
      case isFalse => rfl
      case isTrue hIn =>
        rw [if_pos (by omega)]
    · have hSize :
          ((ph.pFilesz - ph.pFilesz).signExtend 64).toNat =
            0 := by
        simp
      rw [hSize, if_neg (fun hBoth => hLoad hBoth.1),
        if_neg hLoad, if_neg hNote, if_neg (by omega)]
  · rw [List.map_cons, List.map_singleton, Overlay.apply_cons,
      Overlay.apply_singleton, Overlay.apply_singleton,
      part_first, part_next]
    unfold headerPart content
    by_cases hLoad : ph.pType = PT_LOAD
    · have hSome : ph.pMemsz ≠ 0 := by
        intro hZero
        rw [hZero] at hMore
        exact BitVec.not_lt_zero hMore
      rcases fill_of_inside hMore (hInside hLoad hSome) with
        ⟨hStart, hSize⟩
      have hLt := BitVec.lt_def.mp hMore
      rw [hStart, hSize]
      simp only [hLoad, true_and, if_true]
      -- The file bytes, the zeros after them, and the outside.
      rcases Nat.lt_or_ge a ph.pVaddr.toNat with hLow | hLow
      · rw [if_neg (by omega), if_neg (by omega),
          if_neg (by omega)]
        rfl
      · rcases Nat.lt_or_ge (a - ph.pVaddr.toNat)
            ph.pFilesz.toNat with hFile | hFile
        · rw [if_neg (by omega), if_pos (by omega),
            if_pos (by omega), if_pos hFile]
          rfl
        · rcases Nat.lt_or_ge a
              (ph.pVaddr.toNat + ph.pMemsz.toNat) with
            hMem | hMem
          · rw [if_pos (by omega), if_neg (by omega),
              if_pos (by omega), if_neg (by omega)]
            rfl
          · rw [if_neg (by omega), if_neg (by omega),
              if_neg (by omega)]
            rfl
    · simp [hLoad, hNote]

/- Only the file bytes of loadable segments are read. -/
theorem readable_group
    (hSegments : segmentsOf m elf ph = some group)
    (hFile :
      ph.pType = PT_LOAD →
        Flat.InRam n (ph.pOffset + elf) ph.pFilesz.toNat) :
    ∀ seg ∈ group, Readable n seg := by
  have hFirst : Readable n (firstSegment elf ph) := by
    intro hCopy
    refine hFile ?_
    by_contra hOther
    unfold firstSegment at hCopy
    dsimp only at hCopy
    rw [if_neg hOther] at hCopy
    cases hCopy
  have hNext :
      Readable n (nextSegment (firstSegment elf ph) ph) := by
    intro hCopy
    cases hCopy
  intro seg hMem
  rcases segmentsOf_cases hSegments with
    ⟨-, note, rfl, hInfo⟩ | ⟨-, ⟨-, rfl⟩ | ⟨-, rfl⟩⟩
  · rw [List.mem_singleton.mp hMem]
    intro hCopy
    rw [hInfo] at hCopy
    cases hCopy
  · rw [List.mem_singleton.mp hMem]
    exact hFirst
  · rcases List.mem_cons.mp hMem with rfl | hMem
    · exact hFirst
    · rw [List.mem_singleton.mp hMem]
      exact hNext

variable {a : Nat}

theorem headerPart_of_covers
    (m : MainMemory)
    (elf : Ps3Uintptr)
    (hLoad : ph.pType = PT_LOAD)
    (hCovers : Covers ph a) :
    headerPart m elf ph a =
      some ((content m elf ph a).getD 0) := by
  unfold headerPart
  rw [if_pos hLoad]
  exact if_pos hCovers

theorem headerPart_of_fills
    (m : MainMemory)
    (elf : Ps3Uintptr)
    (hLoad : ph.pType ≠ PT_LOAD)
    (hNote : ph.pType ≠ PT_NOTE)
    (hFills : Fills ph a) :
    headerPart m elf ph a = some 0 := by
  unfold headerPart
  rw [if_neg hLoad, if_neg hNote]
  exact if_pos hFills

/- A loadable segment and a fill are all that a header puts. -/
theorem headerPart_cases
    {v : Byte}
    (hPart : headerPart m elf ph a = some v) :
    (ph.pType = PT_LOAD ∧ Covers ph a ∧
        v = (content m elf ph a).getD 0) ∨
      (ph.pType ≠ PT_LOAD ∧ ph.pType ≠ PT_NOTE ∧
        Fills ph a ∧ v = 0) := by
  unfold headerPart at hPart
  split at hPart
  case isTrue hLoad =>
    split at hPart
    case isFalse => cases hPart
    case isTrue hCovers =>
      cases hPart
      exact Or.inl ⟨hLoad, hCovers, rfl⟩
  case isFalse hLoad =>
    split at hPart
    case isTrue => cases hPart
    case isFalse hNote =>
      split at hPart
      case isFalse => cases hPart
      case isTrue hFills =>
        cases hPart
        exact Or.inr ⟨hLoad, hNote, hFills, rfl⟩

------------------------------------------------------------
-- Images
------------------------------------------------------------

theorem map_of_mapM
    {A B : Type}
    {f : A → Option B}
    {xs : List A}
    {ys : List B}
    (hMap : xs.mapM f = some ys) :
    xs.map f = ys.map some := by
  induction xs generalizing ys with
  | nil =>
      cases hMap
      rfl
  | cons x rest ih =>
      rw [List.mapM_cons] at hMap
      rcases Option.bind_eq_some_iff.mp hMap with
        ⟨y, hFirst, hRest⟩
      rcases Option.bind_eq_some_iff.mp hRest with
        ⟨zs, hTail, hEq⟩
      cases hEq
      rw [List.map_cons, List.map_cons, hFirst, ih hTail]

variable {phs : List Elf32Phdr}

/- Each header of an accepted image has its records. -/
theorem segmentsOf_of_mapM
    {groups : List (List SysSpuSegment)}
    (hGroups : phs.mapM (segmentsOf m elf) = some groups) :
    ∀ ph ∈ phs,
      segmentsOf m elf ph =
        some ((segmentsOf m elf ph).getD []) := by
  intro ph hMem
  have hSome : segmentsOf m elf ph ∈ groups.map some := by
    rw [← map_of_mapM hGroups]
    exact List.mem_map_of_mem hMem
  rcases List.mem_map.mp hSome with ⟨group, -, hEq⟩
  rw [← hEq]
  rfl

/- What an accepted image has, and what is stored of it. -/
theorem spuImageInit_cases
    (hHeaders : programHeaders m elf = some phs)
    (hInit :
      spuImageInit m ialloc image elf true =
        some (n, image', segs)) :
    phs.length < 2 ^ 16 ∧
      (∃ groups, phs.mapM (segmentsOf m elf) = some groups ∧
        segs = groups.flatten) ∧
        ∃ start, storeTable m ialloc start segs =
          some (n, image') := by
  rcases Option.bind_eq_some_iff.mp hHeaders with
    ⟨header, hHeader, hPhdrs⟩
  unfold spuImageInit at hInit
  rw [hHeader, Option.bind_some] at hInit
  dsimp only at hInit
  split at hInit
  case isFalse => cases hInit
  case isTrue =>
    rw [hPhdrs, Option.bind_some] at hInit
    rcases Option.bind_eq_some_iff.mp hInit with
      ⟨groups, hGroups, hStored⟩
    rw [if_pos rfl] at hStored
    rcases Option.map_eq_some_iff.mp hStored with
      ⟨stored, hTable, hEq⟩
    cases hEq
    refine ⟨?_, ⟨groups, hGroups, rfl⟩, _, hTable⟩
    rcases Option.map_eq_some_iff.mp hPhdrs with
      ⟨bytes, -, rfl⟩
    rw [List.length_map, List.length_range]
    exact header.ePhnum.isLt

/- A header has at most two records. -/
theorem length_segmentsOf
    (hSegments : segmentsOf m elf ph = some group) :
    group.length ≤ 2 := by
  rcases segmentsOf_cases hSegments with
    ⟨-, note, rfl, -⟩ | ⟨-, ⟨-, rfl⟩ | ⟨-, rfl⟩⟩
  · exact Nat.le_succ 1
  · exact Nat.le_succ 1
  · exact Nat.le_refl 2

theorem length_flatten_le
    {A : Type}
    {groups : List (List A)}
    {k : Nat}
    (hGroups : ∀ group ∈ groups, group.length ≤ k) :
    groups.flatten.length ≤ groups.length * k := by
  induction groups with
  | nil => simp
  | cons group rest ih =>
      have hFirst := hGroups group List.mem_cons_self
      have hRest :=
        ih (fun other hMem =>
          hGroups other (List.mem_cons_of_mem _ hMem))
      rw [List.flatten_cons, List.length_append,
        List.length_cons, Nat.succ_mul]
      omega

/- Mapping lays the parts of the headers over the storage. -/
theorem spuImageMap_of_init
    (hHeaders : programHeaders m elf = some phs)
    (hInit :
      spuImageInit m ialloc image elf true =
        some (n, image', segs))
    (hFile :
      ∀ ph ∈ phs, ph.pType = PT_LOAD →
        Flat.InRam n (ph.pOffset + elf) ph.pFilesz.toNat)
    (hInside : ∀ ph ∈ phs, Inside ph)
    (ls : LocalStorage) :
    spuImageMap n image' ls =
      some (Overlay.apply ls (phs.map (headerPart n elf))) := by
  rcases spuImageInit_cases hHeaders hInit with
    ⟨hCount, ⟨groups, hGroups, rfl⟩, start, hStore⟩
  have hEach := segmentsOf_of_mapM hGroups
  have hAll :
      groups =
        phs.map (fun ph => (segmentsOf m elf ph).getD []) := by
    have hGet :=
      congrArg (List.map (fun o => o.getD []))
        (map_of_mapM hGroups)
    rw [List.map_map, List.map_map] at hGet
    simpa [Function.comp_def] using hGet.symm
  have hLength : groups.flatten.length < 2 ^ 31 := by
    have hTwo : ∀ group ∈ groups, group.length ≤ 2 := by
      intro group hMem
      rw [hAll] at hMem
      rcases List.mem_map.mp hMem with ⟨ph, hph, rfl⟩
      exact length_segmentsOf (hEach ph hph)
    have hFlat := length_flatten_le hTwo
    have hSame : groups.length = phs.length := by
      rw [hAll, List.length_map]
    omega
  have hReadable :
      ∀ seg ∈ groups.flatten, Readable n seg := by
    intro seg hMem
    rcases List.mem_flatten.mp hMem with ⟨group, hGroup, hSeg⟩
    rw [hAll] at hGroup
    rcases List.mem_map.mp hGroup with ⟨ph, hph, rfl⟩
    exact readable_group (hEach ph hph) (hFile ph hph) seg hSeg
  rw [spuImageMap_of_storeTable hStore hLength,
    foldlM_mapSegment hReadable, hAll, List.map_flatten,
    List.map_map, ← List.flatMap_def]
  congr 1
  exact
    Overlay.apply_flatMap ls
      (fun ph hph g =>
        apply_group (hEach ph hph) (hInside ph hph) g)

theorem fileSize_le_of_init
    (hHeaders : programHeaders m elf = some phs)
    (hInit :
      spuImageInit m ialloc image elf true =
        some (n, image', segs))
    {ph : Elf32Phdr}
    (hMem : ph ∈ phs)
    (hLoad : ph.pType = PT_LOAD) :
    ph.pFilesz.toNat ≤ ph.pMemsz.toNat := by
  rcases spuImageInit_cases hHeaders hInit with
    ⟨-, ⟨groups, hGroups, -⟩, -⟩
  rcases segmentsOf_cases
      (segmentsOf_of_mapM hGroups ph hMem) with
    ⟨hNote, -⟩ | ⟨-, ⟨hSame, -⟩ | ⟨hMore, -⟩⟩
  · rw [hLoad] at hNote
    cases hNote
  · rw [hSame]
  · exact Nat.le_of_lt (BitVec.lt_def.mp hMore)

variable {before after : LocalStorage}

section

variable (hLoaded : Loaded m elf phs before after)

include hLoaded

/- The bytes of loaded segments are their contents. -/
theorem content_of_loaded
    (hMem : ph ∈ phs)
    (hLoad : ph.pType = PT_LOAD)
    (hCovers : Covers ph a) :
    content m elf ph a = some (after a) := by
  rcases hCovers with ⟨hLow, hHigh⟩
  have hSum :
      ph.pVaddr.toNat + (a - ph.pVaddr.toNat) = a := by
    omega
  unfold content
  split
  case isTrue hFile =>
    rw [hLoaded.file ph hMem hLoad _ hFile, hSum]
  case isFalse hFile =>
    have hZero :=
      hLoaded.zeros ph hMem hLoad (a - ph.pVaddr.toNat)
        (Nat.le_of_not_lt hFile) (by omega)
    rw [hSum] at hZero
    rw [hZero]

/- Bytes that are loaded can be read. -/
theorem readable_of_loaded :
    ∀ ph ∈ phs, ph.pType = PT_LOAD →
      Flat.InRam m (ph.pOffset + elf) ph.pFilesz.toNat := by
  intro ph hMem hLoad i hi
  have hByte := hLoaded.file ph hMem hLoad i hi
  rcases Option.map_eq_some_iff.mp hByte with ⟨p, hp, -⟩
  rw [hp]
  rfl

theorem inside_of_loaded :
    ∀ ph ∈ phs, Inside ph := by
  intro ph hMem hLoad hSome
  have hPos : 0 < ph.pMemsz.toNat :=
    Nat.pos_of_ne_zero
      (fun hZero => hSome (BitVec.eq_of_toNat_eq hZero))
  have hLast :=
    hLoaded.inside ph hMem hLoad (ph.pMemsz.toNat - 1)
      (by omega)
  omega

end

/- Contents that are laid over the storage are loaded. -/
theorem loaded_of_content
    (hInside : ∀ ph ∈ phs, Inside ph)
    (hSizes :
      ∀ ph ∈ phs, ph.pType = PT_LOAD →
        ph.pFilesz.toNat ≤ ph.pMemsz.toNat)
    (hContent :
      ∀ ph ∈ phs, ph.pType = PT_LOAD →
        ∀ a, Covers ph a →
          content m elf ph a = some (after a))
    (hFrame :
      ∀ a,
        (∀ ph ∈ phs, ph.pType = PT_LOAD → ¬ Covers ph a) →
          after a = before a) :
    Loaded m elf phs before after := by
  refine ⟨?_, ?_, ?_, hFrame⟩
  · intro ph hMem hLoad i hi
    have hSome : ph.pMemsz ≠ 0 := by
      intro hZero
      rw [hZero] at hi
      exact Nat.not_lt_zero i hi
    have hIn := hInside ph hMem hLoad hSome
    omega
  · intro ph hMem hLoad i hi
    have hLe := hSizes ph hMem hLoad
    have hByte :=
      hContent ph hMem hLoad (ph.pVaddr.toNat + i)
        ⟨Nat.le_add_right _ _, by omega⟩
    unfold content at hByte
    rw [Nat.add_sub_cancel_left, if_pos hi] at hByte
    exact hByte
  · intro ph hMem hLoad i hFile hi
    have hByte :=
      hContent ph hMem hLoad (ph.pVaddr.toNat + i)
        ⟨Nat.le_add_right _ _, by omega⟩
    unfold content at hByte
    rw [Nat.add_sub_cancel_left,
      if_neg (Nat.not_lt_of_le hFile)] at hByte
    exact (Option.some.inj hByte).symm

/- What is read from readable segments. -/
theorem content_ne_none
    (hReadable :
      Flat.InRam m (ph.pOffset + elf) ph.pFilesz.toNat)
    (a : Nat) :
    content m elf ph a =
      some ((content m elf ph a).getD 0) := by
  unfold content
  split
  case isFalse => rfl
  case isTrue hFile =>
    rcases Option.isSome_iff_exists.mp (hReadable _ hFile) with
      ⟨p, hp⟩
    unfold fileByte MainMemory.byte
    rw [hp]
    rfl

/- The last header that puts a byte puts the right one. -/
theorem content_eq_apply
    (hPlaced : WellPlaced m elf phs)
    (ls : LocalStorage)
    {p : Elf32Phdr}
    (hMem : p ∈ phs)
    (hLoad : p.pType = PT_LOAD)
    (hCovers : Covers p a) :
    content m elf p a =
      some
        (Overlay.apply ls (phs.map (headerPart m elf)) a) := by
  have hPart := headerPart_of_covers m elf hLoad hCovers
  have hSome : headerPart m elf p a ≠ none := by
    rw [hPart]
    exact Option.some_ne_none _
  rcases Overlay.exists_last (List.mem_map_of_mem hMem)
      hSome with
    ⟨before, q, after, v, hParts, hLast, hAfter⟩
  rw [hParts, Overlay.apply_of_last ls hLast hAfter]
  rcases List.map_eq_append_iff.mp hParts with
    ⟨first, rest, hPhs, -, hRest⟩
  rcases List.map_eq_cons_iff.mp hRest with
    ⟨r, later, hCons, hq, hLater⟩
  rw [hCons] at hPhs
  rw [← hq] at hLast
  have hr : r ∈ phs := by
    rw [hPhs]
    simp
  rcases headerPart_cases hLast with
    ⟨hLoad', hCovers', hv⟩ | ⟨hNotLoad, hNotNote, hFills, hv⟩
  · rw [hPlaced.agree p hMem hLoad r hr hLoad' a hCovers
      hCovers', hv]
    exact content_ne_none (hPlaced.readable r hr hLoad') a
  · rcases hPlaced.fills first r later hPhs hNotLoad hNotNote a
        hFills with
      ⟨k, hk, hLoad', hCovers', hZero | hCovered⟩
    · rw [hv, ← hZero]
      exact
        hPlaced.agree p hMem hLoad k hk hLoad' a hCovers
          hCovers'
    · rcases hCovered with ⟨k', hk', hLoad'', hCovers''⟩
      have hNone :=
        hAfter (headerPart m elf k')
          (by rw [← hLater]; exact List.mem_map_of_mem hk')
      rw [headerPart_of_covers m elf hLoad'' hCovers'']
        at hNone
      cases hNone

/- What is filled for a header is zero or covered later. -/
theorem fills_of_loaded
    {first later : List Elf32Phdr}
    {o : Elf32Phdr}
    (hLoaded :
      ∀ ls,
        Loaded m elf (first ++ o :: later) ls
          (Overlay.apply ls
            ((first ++ o :: later).map (headerPart m elf))))
    (hLoad : o.pType ≠ PT_LOAD)
    (hNote : o.pType ≠ PT_NOTE)
    (hFills : Fills o a) :
    ∃ p ∈ first ++ o :: later,
      p.pType = PT_LOAD ∧ Covers p a ∧
        (content m elf p a = some 0 ∨
          ∃ q ∈ later, q.pType = PT_LOAD ∧ Covers q a) := by
  have hPart := headerPart_of_fills m elf hLoad hNote hFills
  have hIn : o ∈ first ++ o :: later := by simp
  have hCovered :
      ∃ p ∈ first ++ o :: later,
        p.pType = PT_LOAD ∧ Covers p a := by
    by_contra hNone
    have hKept :=
      Overlay.untouched_iff.mp
        (fun ls =>
          (hLoaded ls).frame a
            (fun p hMem hType hCovers =>
              hNone ⟨p, hMem, hType, hCovers⟩))
    rw [hKept _ (List.mem_map_of_mem hIn)] at hPart
    cases hPart
  rcases hCovered with ⟨p, hMem, hType, hCovers⟩
  refine ⟨p, hMem, hType, hCovers, ?_⟩
  by_cases hLater :
      ∃ q ∈ later, q.pType = PT_LOAD ∧ Covers q a
  · exact Or.inr hLater
  -- Only fills are put there from this header on.
  · refine Or.inl ?_
    rw [content_of_loaded (hLoaded (fun _ => 0)) hMem hType
      hCovers]
    have hSome : headerPart m elf o a ≠ none := by
      rw [hPart]
      exact Option.some_ne_none _
    have hHead : o ∈ o :: later := List.mem_cons_self
    rcases Overlay.exists_last (List.mem_map_of_mem hHead)
        hSome with
      ⟨before, q, after, v, hParts, hLast, hAfter⟩
    have hq : q ∈ (o :: later).map (headerPart m elf) := by
      rw [hParts]
      simp
    rcases List.mem_map.mp hq with ⟨r, hr, rfl⟩
    rw [List.map_append, hParts, Overlay.apply_append,
      Overlay.apply_of_last _ hLast hAfter]
    rcases headerPart_cases hLast with
      ⟨hLoad', hCovers', -⟩ | ⟨-, -, -, hv⟩
    · rcases List.mem_cons.mp hr with rfl | hOld
      · exact absurd hLoad' hLoad
      · exact absurd ⟨r, hOld, hLoad', hCovers'⟩ hLater
    · rw [hv]

/-
  Mapping an accepted image loads its segments exactly where
  they are well placed.
-/
theorem loads_iff
    (m n : MainMemory)
    (ialloc : InternalMemoryManager)
    (image image' : SysSpuImage)
    (elf : Ps3Uintptr)
    (phs : List Elf32Phdr)
    (segs : List SysSpuSegment)
    (hHeaders : programHeaders m elf = some phs)
    (hInit :
      spuImageInit m ialloc image elf true =
        some (n, image', segs)) :
    Loads n image' elf phs ↔ WellPlaced n elf phs := by
  constructor
  · intro hLoads
    rcases hLoads (fun _ => 0) with ⟨after, -, hFirst⟩
    have hReadable := readable_of_loaded hFirst
    have hInside := inside_of_loaded hFirst
    have hLoaded :
        ∀ ls,
          Loaded n elf phs ls
            (Overlay.apply ls (phs.map (headerPart n elf))) := by
      intro ls
      rcases hLoads ls with ⟨done, hDone, hLoaded⟩
      rw [spuImageMap_of_init hHeaders hInit hReadable
        hInside] at hDone
      cases hDone
      exact hLoaded
    refine ⟨hReadable, hInside, ?_, ?_⟩
    · intro p hp hLoad q hq hLoad' a hCovers hCovers'
      rw [content_of_loaded hFirst hp hLoad hCovers,
        content_of_loaded hFirst hq hLoad' hCovers']
    · intro first o later hPhs hLoad hNote a hFills
      rw [hPhs] at hLoaded ⊢
      exact fills_of_loaded hLoaded hLoad hNote hFills
  · intro hPlaced ls
    refine
      ⟨_,
        spuImageMap_of_init hHeaders hInit hPlaced.readable
          hPlaced.inside ls,
        ?_⟩
    refine
      loaded_of_content hPlaced.inside
        (fun ph hMem hLoad =>
          fileSize_le_of_init hHeaders hInit hMem hLoad)
        (fun ph hMem hLoad a hCovers =>
          content_eq_apply hPlaced ls hMem hLoad hCovers)
        ?_
    intro a hNone
    apply Overlay.apply_of_none
    intro part hPart
    rcases List.mem_map.mp hPart with ⟨ph, hMem, rfl⟩
    by_contra hSome
    rcases Option.ne_none_iff_exists'.mp hSome with ⟨v, hv⟩
    rcases headerPart_cases hv with
      ⟨hLoad, hCovers, -⟩ | ⟨hLoad, hNote, hFills, -⟩
    · exact hNone ph hMem hLoad hCovers
    · rcases List.append_of_mem hMem with
        ⟨first, later, hPhs⟩
      rcases hPlaced.fills first ph later hPhs hLoad hNote a
          hFills with
        ⟨p, hp, hLoad', hCovers', -⟩
      exact hNone p hp hLoad' hCovers'

------------------------------------------------------------
-- Small Images
------------------------------------------------------------

/- Internal memory with one block, near its start. -/
def oneBlock : InternalMemoryManager where
  base := 0x10000000#32
  allocateAligned m _ _ := some (0x100, m)
  mapped := by
    intro m size alignment offset n p hFound hBase
    cases hFound
    exact m.getMemoryPointer_add hBase 0x100 (by decide)

def elfHeader (phnum : Byte) : List Byte :=
  [0x7f, 0x45, 0x4c, 0x46, 1, 2, 1, 0, 0, 0, 0, 0, 0, 0, 0, 0,
    0, 2, 0, 0x17, 0, 0, 0, 1, 0, 0, 0, 0x80, 0, 0, 0, 52,
    0, 0, 0, 0, 0, 0, 0, 0, 0, 52, 0, 32, 0, phnum, 0, 40,
    0, 0, 0, 0]

def programHeader (ph : Elf32Phdr) : List Byte :=
  Bytes.bigEndian (w := 4) ph.pType ++
    (Bytes.bigEndian (w := 4) ph.pOffset ++
      (Bytes.bigEndian (w := 4) ph.pVaddr ++
        (Bytes.bigEndian (w := 4) ph.pVaddr ++
          (Bytes.bigEndian (w := 4) ph.pFilesz ++
            (Bytes.bigEndian (w := 4) ph.pMemsz ++
              [0, 0, 0, 5, 0, 0, 0, 4])))))

/- An image of four bytes of code in an otherwise zero memory. -/
def imageMemory (phs : List Elf32Phdr) : MainMemory :=
  { MainMemory.reset with
    host := fun block offset =>
      if block = 1 then
        (elfHeader (BitVec.ofNat 8 phs.length) ++
          (phs.flatMap programHeader ++
            [0x40, 0x80, 0, 0])).getD offset 0
      else 0 }

def codeHeader (offset : BitVec 32) : Elf32Phdr where
  pType := PT_LOAD
  pOffset := offset
  pVaddr := 0x80
  pFilesz := 4
  pMemsz := 8

/- Storage that each thread of a program would have. -/
def tlsHeader : Elf32Phdr where
  pType := 7
  pOffset := 120
  pVaddr := 0x100
  pFilesz := 0
  pMemsz := 16

theorem loads_iff_code :
    ∃ n image' segs,
      spuImageInit (imageMemory [codeHeader 84]) oneBlock {}
          0x100000 true =
        some (n, image', segs) ∧
        (Loads n image' 0x100000 [codeHeader 84] ↔
          WellPlaced n 0x100000 [codeHeader 84]) := by
  have hSome :
      (spuImageInit (imageMemory [codeHeader 84]) oneBlock {}
        0x100000 true).isSome := by
    decide +kernel
  rcases Option.isSome_iff_exists.mp hSome with
    ⟨⟨n, image', segs⟩, hInit⟩
  exact
    ⟨n, image', segs, hInit,
      loads_iff (imageMemory [codeHeader 84]) n oneBlock {}
        image' 0x100000 [codeHeader 84] segs
        (by decide +kernel) hInit⟩

/- The zeros for the other header are put into the storage. -/
theorem tls_not_loads :
    ¬ ∀ (m n : MainMemory)
        (ialloc : InternalMemoryManager)
        (image image' : SysSpuImage)
        (elf : Ps3Uintptr)
        (phs : List Elf32Phdr)
        (segs : List SysSpuSegment),
        programHeaders m elf = some phs →
          spuImageInit m ialloc image elf true =
            some (n, image', segs) →
            Loads n image' elf phs := by
  intro hAll
  have hByte :
      ((spuImageInit (imageMemory [codeHeader 116, tlsHeader])
          oneBlock {} 0x100000 true).bind (fun r =>
        (spuImageMap r.1 r.2.1 (fun _ => 1)).map
          (fun ls => ls 0x100))) =
        some 0 := by
    decide +kernel
  rcases Option.bind_eq_some_iff.mp hByte with
    ⟨⟨n, image', segs⟩, hInit, hMapped⟩
  rcases Option.map_eq_some_iff.mp hMapped with
    ⟨after, hAfter, hZero⟩
  rcases hAll _ n oneBlock {} image' 0x100000
      [codeHeader 116, tlsHeader] segs (by decide +kernel) hInit
      (fun _ => 1) with
    ⟨other, hOther, hLoaded⟩
  rw [hAfter] at hOther
  cases hOther
  have hKept :
      after 0x100 = 1 := by
    refine hLoaded.frame 0x100 ?_
    intro ph hMem hLoad hCovers
    rcases List.mem_cons.mp hMem with rfl | hMem
    · exact absurd hCovers.2 (by decide)
    · rw [List.mem_singleton.mp hMem] at hLoad
      cases hLoad
  rw [hZero] at hKept
  cases hKept

end SysSpu

end Ps3emu
