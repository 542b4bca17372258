import Ps3emu.Memory.Flat
import Ps3emu.Spu.Window

/-
  Bulk reads and typed loads of ordinary memory and of the
  windows of the SPUs.

  Key definitions include:
    * `Machine.load`, `Machine.readMemory`
    * `Machine.Supported`
    * `Machine.FillsAsLoaded`

  Key theorems include:
    * `Machine.fillsAsLoaded_of_contiguous`
    * `Machine.fillsAsLoaded_iff`
-/

------------------------------------------------------------
-- Reads and Windows
------------------------------------------------------------

namespace Ps3emu

namespace Machine

/- The part of a load below the special-memory test. -/
def loadPage
    (m : Machine)
    (len : AccessLen)
    (va : Ps3Uintptr) : Option (Machine × Word len.bytes) :=
  (m.mm.load len va).map (fun value => (m, value))

/- Only words are looked for in the special windows. -/
def load
    (m : Machine)
    (len : AccessLen)
    (va : Ps3Uintptr) : Option (Machine × Word len.bytes) :=
  match len with
  | .one => m.loadPage .one va
  | .two => m.loadPage .two va
  | .four => m.load32 va
  | .eight => m.loadPage .eight va
  | .sixteen => m.loadPage .sixteen va

/-
  `readMemory` over a buffer.  The special read is given the
  address of the pointer `buf`, so that the buffer stays as
  it was.
-/
def readMemory
    (m : Machine)
    (va len : Ps3Uintptr)
    (buf : List Byte) : Option (Machine × List Byte) :=
  if len = 4#32 ∧ isRawSpuVa va then
    (m.spus.readRawSpuVa va).map (fun (spus, _) =>
      ({ m with spus }, buf))
  else
    (m.mm.readMemory va len).map (fun bytes => (m, bytes))

/- The machine with other contents of host memory. -/
def withHost (m : Machine) (host : HostMemory) : Machine :=
  { m with mm := { m.mm with host } }

/-
  A range of allocated memory, or a width that a load can
  read at an address of a special window.
-/
def Supported
    (m : Machine)
    (len : AccessLen)
    (va : Ps3Uintptr) : Prop :=
  Flat.InRam m.mm va len.bytes ∨
    (isRawSpuVa va = true ∧ (m.load len va).isSome = true)

/-
  Whatever is in memory and in the buffer before, the bulk
  read leaves there the bytes of the value that is loaded.
-/
def FillsAsLoaded
    (m : Machine)
    (len : AccessLen)
    (va : Ps3Uintptr) : Prop :=
  ∀ host m' value buf,
    (m.withHost host).load len va = some (m', value) →
    buf.length = len.bytes →
    (m.withHost host).readMemory va
        (BitVec.ofNat 32 len.bytes) buf =
      some (m', Bytes.bigEndian value)

/- Nothing else can be loaded from a special window. -/
theorem load_special
    {m m' : Machine}
    {len : AccessLen}
    {va : Ps3Uintptr}
    {value : Word len.bytes}
    (hRaw : isRawSpuVa va = true)
    (hLoad : m.load len va = some (m', value)) :
    len = .four := by
  by_contra hNe
  have hHigh := (isRawSpuVa_iff va).mp hRaw
  have hPage : m.loadPage len va = none := by
    rw [loadPage, MainMemory.load, if_neg (fun h => hNe h.1)]
    cases hPointer : m.mm.getMemoryPointer va with
    | none => rfl
    | some p =>
        have hLow := m.mm.toNat_lt_of_pointer hPointer
        omega
  cases len with
  | four => exact hNe rfl
  | one | two | eight | sixteen =>
      rw [load, hPage] at hLoad
      cases hLoad

/- The buffer of a special read keeps its contents. -/
theorem readMemory_special
    {m : Machine}
    {va : Ps3Uintptr}
    (hRaw : isRawSpuVa va = true)
    (buf : List Byte) :
    m.readMemory va 4#32 buf =
      (m.spus.readRawSpuVa va).map (fun (spus, _) =>
        ({ m with spus }, buf)) := by
  rw [readMemory, if_pos ⟨rfl, hRaw⟩]

/- Some buffer differs from the bytes that are loaded. -/
theorem not_fillsAsLoaded_special
    {m m' : Machine}
    {len : AccessLen}
    {va : Ps3Uintptr}
    {value : Word len.bytes}
    (hRaw : isRawSpuVa va = true)
    (hLoad : m.load len va = some (m', value)) :
    ¬ FillsAsLoaded m len va := by
  intro hFills
  obtain rfl := load_special hRaw hLoad
  have hOther :
      ∃ buf : List Byte,
        buf.length = 4 ∧ buf ≠ Bytes.bigEndian value := by
    by_cases hZero :
        List.replicate 4 0#8 = Bytes.bigEndian value
    · refine ⟨List.replicate 4 1#8, rfl, ?_⟩
      rw [← hZero]
      decide
    · exact ⟨_, rfl, hZero⟩
  rcases hOther with ⟨buf, hLength, hNe⟩
  have hRead := hFills m.mm.host m' value buf hLoad hLength
  change m.readMemory va 4#32 buf = _ at hRead
  rw [readMemory_special hRaw] at hRead
  rcases Option.map_eq_some_iff.mp hRead with
    ⟨result, -, hResult⟩
  exact hNe (Prod.mk.inj hResult).2

------------------------------------------------------------
-- Ordinary Memory
------------------------------------------------------------

section

variable {m : Machine} {len : AccessLen} {va : Ps3Uintptr}

theorem load_ordinary
    (m : Machine)
    (len : AccessLen)
    (hOrdinary : isRawSpuVa va = false) :
    m.load len va = m.loadPage len va := by
  cases len with
  | four =>
      rw [load, load32, hOrdinary, if_neg Bool.false_ne_true]
      rfl
  | one | two | eight | sixteen => rw [load]

theorem readMemory_ordinary
    (m : Machine)
    (len : Ps3Uintptr)
    (hOrdinary : isRawSpuVa va = false)
    (buf : List Byte) :
    m.readMemory va len buf =
      (m.mm.readMemory va len).map
        (fun bytes => (m, bytes)) := by
  rw [readMemory, if_neg]
  rw [hOrdinary]
  exact fun h => Bool.false_ne_true h.2

theorem isRawSpuVa_of_inRam
    (hRam : Flat.InRam m.mm va len.bytes) :
    isRawSpuVa va = false := by
  have hFits := hRam.fits len.bytes_pos
  have hPos := len.bytes_pos
  rw [Bool.eq_false_iff, ne_eq, isRawSpuVa_iff]
  omega

/- The array of the bytes that the addresses denote. -/
def bytes (m : Machine) : FlatMemory 32 :=
  fun a => (m.mm.byte a).getD 0

theorem agrees_bytes (m : Machine) :
    Flat.Agrees m.mm m.bytes := by
  intro a b hb
  rw [bytes, hb, Option.getD_some]

theorem toNat_bytes (len : AccessLen) :
    (BitVec.ofNat 32 len.bytes).toNat = len.bytes := by
  cases len <;> rfl

variable (hRam : Flat.InRam m.mm va len.bytes)

include hRam

/- The bulk read resolves a pointer for every line. -/
theorem readMemory_inRam
    (buf : List Byte) :
    m.readMemory va (BitVec.ofNat 32 len.bytes) buf =
      some (m, m.bytes.get va len.bytes) := by
  have hLen := toNat_bytes len
  have hRead :=
    Flat.readMemory_eq m.agrees_bytes va
      (BitVec.ofNat 32 len.bytes) (by rw [hLen]; exact hRam)
  rw [readMemory_ordinary m _ (isRawSpuVa_of_inRam hRam),
    hRead, hLen]
  rfl

theorem fillsAsLoaded_of_contiguous
    (hContiguous : Flat.Contiguous m.mm va len.bytes) :
    FillsAsLoaded m len va := by
  intro host m' value buf hLoad _
  have hRam' : Flat.InRam (m.withHost host).mm va len.bytes :=
    hRam.congr rfl
  have hBytes :=
    Flat.load_eq (m.withHost host).agrees_bytes len va hRam'
      hContiguous
  rw [load_ordinary _ len (isRawSpuVa_of_inRam hRam),
    loadPage, hBytes, Option.map_some] at hLoad
  rcases Prod.mk.inj (Option.some.inj hLoad) with
    ⟨rfl, rfl⟩
  rw [readMemory_inRam hRam',
    Bytes.bigEndian_ofBigEndian _ (FlatMemory.length_get ..)]

/-
  The load runs past the end of the first page's block, where
  the bytes of the next page are not.
-/
theorem contiguous_of_fillsAsLoaded
    (hFills : FillsAsLoaded m len va) :
    Flat.Contiguous m.mm va len.bytes := by
  by_contra hSplit
  rcases hRam.pointer len.bytes_pos with ⟨p, hp⟩
  rcases
    Flat.exists_other_block hRam hp len.bytes_le hSplit with
    ⟨i, q, hi, hq, hBlock⟩
  have hVa := m.mm.toNat_lt_of_pointer hp
  -- only the block of the next page is not zero
  let host : HostMemory :=
    fun block _ => if block = q.block then 1#8 else 0#8
  have hRam' : Flat.InRam (m.withHost host).mm va len.bytes :=
    hRam.congr rfl
  have hLoad :
      (m.withHost host).mm.load len va =
        some
          (Bytes.ofBigEndian len.bytes
            (host.read p len.bytes)) := by
    rw [MainMemory.load_eq _ len va hVa]
    change (m.mm.getMemoryPointer va).map _ = _
    rw [hp, Option.map_some]
    rfl
  have hRead :=
    hFills host (m.withHost host) _
      (List.replicate len.bytes 0)
      (by
        rw [load_ordinary _ len (isRawSpuVa_of_inRam hRam),
          loadPage, hLoad, Option.map_some])
      List.length_replicate
  rw [readMemory_inRam hRam',
    Bytes.bigEndian_ofBigEndian _ (HostMemory.length_read ..)]
    at hRead
  have hSame :=
    congrArg (fun l => l[i]?)
      (Prod.mk.inj (Option.some.inj hRead)).2
  have hNext :
      (m.withHost host).bytes (va + BitVec.ofNat 32 i) =
        1#8 := by
    rw [bytes, MainMemory.byte]
    change ((m.mm.getMemoryPointer _).map _).getD 0 = _
    rw [hq, Option.map_some, Option.getD_some]
    exact if_pos rfl
  have hPast : host p.block (p.offset + i) = 0#8 :=
    if_neg hBlock.symm
  simp only [FlatMemory.get, HostMemory.read,
    List.getElem?_map, List.getElem?_range hi,
    Option.map_some, hNext, hPast] at hSame
  exact absurd (Option.some.inj hSame) (by decide)

end

/-
  The bulk read agrees with the load in ordinary memory that
  lies together, and in no special window.
-/
theorem fillsAsLoaded_iff
    (m : Machine)
    (len : AccessLen)
    (va : Ps3Uintptr)
    (hSupported : Supported m len va) :
    FillsAsLoaded m len va ↔
      isRawSpuVa va = false ∧
        Flat.Contiguous m.mm va len.bytes := by
  rcases hSupported with hRam | ⟨hRaw, hSome⟩
  · have hOrdinary := isRawSpuVa_of_inRam hRam
    exact
      ⟨fun hFills =>
          ⟨hOrdinary, contiguous_of_fillsAsLoaded hRam hFills⟩,
        fun hBoth => fillsAsLoaded_of_contiguous hRam hBoth.2⟩
  · rcases Option.isSome_iff_exists.mp hSome with
      ⟨⟨m', value⟩, hLoad⟩
    constructor
    · intro hFills
      exact
        absurd hFills (not_fillsAsLoaded_special hRaw hLoad)
    · rintro ⟨hOrdinary, -⟩
      rw [hRaw] at hOrdinary
      cases hOrdinary

/- One raw SPU with cleared local storage. -/
def oneRawSpu : Machine where
  mm := MainMemory.reset
  spus :=
    { threads := fun _ => { ls := fun _ => 0, spu := some 0 }
      spuThreads := [0]
      rawSpus := fun _ => some 0 }

theorem fillsAsLoaded_iff_word :
    FillsAsLoaded oneRawSpu .four 0x100#32 ↔
      isRawSpuVa 0x100#32 = false ∧
        Flat.Contiguous oneRawSpu.mm 0x100#32
          AccessLen.four.bytes :=
  fillsAsLoaded_iff oneRawSpu .four 0x100#32
    (.inl (by simp only [Flat.InRam]; decide))

/- A word of a raw SPU's local storage is not read. -/
theorem raw_word_not_filled :
    ¬ ∀ (m : Machine) (len : AccessLen) (va : Ps3Uintptr),
        Supported m len va → FillsAsLoaded m len va := by
  intro hAll
  have hSome :
      (oneRawSpu.load .four 0xe0000100#32).isSome = true := by
    decide
  rcases Option.isSome_iff_exists.mp hSome with
    ⟨⟨m', value⟩, hLoad⟩
  have hRaw : isRawSpuVa 0xe0000100#32 = true := by
    decide
  exact
    not_fillsAsLoaded_special hRaw hLoad
      (hAll oneRawSpu .four _ (.inr ⟨hRaw, hSome⟩))

end Machine

end Ps3emu
