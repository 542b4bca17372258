import Ps3emu.Memory.Flat

/-
  The bytes at a range of guest addresses, and what a typed
  access does to them.

  Key definitions include:
    * `MainMemory.flat`
    * `MainMemory.bytesAt`
    * `MainMemory.Puts`

  Key theorems include:
    * `Flat.load_eq_bytesAt`
    * `Flat.store_puts`, `Flat.writeMemory_puts`
    * `Flat.byte_store_of_split`
    * `Flat.contiguous_of_stores`, `Flat.contiguous_of_loads`
    * `Flat.contiguous_of_aligned`
-/

------------------------------------------------------------
-- Ranges and Typed Accesses
------------------------------------------------------------

namespace Ps3emu

namespace MainMemory

/- The bytes of all allocated pages in one array. -/
def flat (m : MainMemory) : FlatMemory 32 :=
  fun va => (m.byte va).getD 0

def bytesAt
    (m : MainMemory)
    (va : Ps3Uintptr)
    (n : Nat) : List Byte :=
  m.flat.get va n

/- The bytes are put at the address and nothing else is. -/
def Puts
    (m m' : MainMemory)
    (va : Ps3Uintptr)
    (bytes : List Byte) : Prop :=
  m'.pages = m.pages ∧
    m'.bytesAt va bytes.length = bytes ∧
      ∀ a, ¬ distance va a < bytes.length →
        m'.byte a = m.byte a

@[simp] theorem length_bytesAt
    (m : MainMemory)
    (va : Ps3Uintptr)
    (n : Nat) :
    (m.bytesAt va n).length = n :=
  FlatMemory.length_get _ _ _

theorem getElem?_bytesAt
    (m : MainMemory)
    (va : Ps3Uintptr)
    {n i : Nat}
    (hI : i < n) :
    (m.bytesAt va n)[i]? =
      some ((m.byte (va + BitVec.ofNat 32 i)).getD 0) := by
  simp [bytesAt, FlatMemory.get, flat, hI]

end MainMemory

namespace Flat

theorem agrees_flat (m : MainMemory) : Agrees m m.flat := by
  intro a b hB
  simp [MainMemory.flat, hB]

variable {m : MainMemory}

/- On an allocated page the array holds the byte. -/
theorem Agrees.byte_eq
    {f : FlatMemory 32}
    (hAgrees : Agrees m f)
    {a : Ps3Uintptr}
    (hPage : (m.getMemoryPointer a).isSome) :
    m.byte a = some (f a) := by
  rcases Option.isSome_iff_exists.mp hPage with ⟨p, hP⟩
  have hByte : m.byte a = some (m.host p.block p.offset) := by
    rw [MainMemory.byte, hP, Option.map_some]
  rw [hByte, hAgrees a _ hByte]

variable {va : Ps3Uintptr}

theorem Agrees.bytesAt_eq
    {f : FlatMemory 32}
    (hAgrees : Agrees m f)
    {n : Nat}
    (hRam : InRam m va n) :
    m.bytesAt va n = f.get va n := by
  apply List.map_congr_left
  intro i hI
  rw [MainMemory.flat,
    hAgrees.byte_eq (hRam i (List.mem_range.mp hI)),
    Option.getD_some]

theorem load_eq_bytesAt
    (len : AccessLen)
    (hRam : InRam m va len.bytes)
    (hContiguous : Contiguous m va len.bytes) :
    m.load len va =
      some
        (Bytes.ofBigEndian len.bytes
          (m.bytesAt va len.bytes)) :=
  load_eq (agrees_flat m) len va hRam hContiguous

/-
  Memory that agrees with an array in which the bytes were
  put has them, and all else as before.
-/
theorem puts_of_agrees
    {m m' : MainMemory}
    {bytes : List Byte}
    (hRam : InRam m va bytes.length)
    (hFit : bytes.length ≤ 2 ^ 32)
    (hPages : m'.pages = m.pages)
    (hAgrees : Agrees m' (m.flat.set va bytes)) :
    m.Puts m' va bytes := by
  refine ⟨hPages, ?_, ?_⟩
  · rw [hAgrees.bytesAt_eq (hRam.congr hPages),
      FlatMemory.get_set_self m.flat va bytes hFit]
  · intro a hFar
    have hSet : m.flat.set va bytes a = m.flat a :=
      if_neg hFar
    have hPointer :
        m'.getMemoryPointer a = m.getMemoryPointer a := by
      rw [MainMemory.getMemoryPointer, hPages]
      rfl
    cases hP : m.getMemoryPointer a with
    | none =>
        rw [MainMemory.byte, MainMemory.byte, hPointer, hP]
        rfl
    | some p =>
        rw [hAgrees.byte_eq (by simp [hPointer, hP]), hSet,
          (agrees_flat m).byte_eq (by simp [hP])]

/- A store changes the bytes of its range and no others. -/
theorem store_puts
    (len : AccessLen)
    (value : Word len.bytes)
    (granule : Option GranuleId)
    (hRam : InRam m va len.bytes)
    (hContiguous : Contiguous m va len.bytes) :
    ∃ m',
      m.store len va value granule = some m' ∧
        m.Puts m' va (Bytes.bigEndian value) := by
  rcases (agrees_flat m).store len va value granule hRam
    hContiguous with ⟨m', hStore, hPages, hAgrees⟩
  have hLe := len.bytes_le
  have hLength := Bytes.length_bigEndian value
  refine ⟨m', hStore, puts_of_agrees ?_ ?_ hPages hAgrees⟩
  · rw [hLength]
    exact hRam
  · omega

theorem store_bytesAt
    (len : AccessLen)
    (value : Word len.bytes)
    (granule : Option GranuleId)
    (hRam : InRam m va len.bytes)
    (hContiguous : Contiguous m va len.bytes) :
    ∃ m',
      m.store len va value granule = some m' ∧
        m'.pages = m.pages ∧
        m'.bytesAt va len.bytes = Bytes.bigEndian value ∧
        ∀ a, ¬ distance va a < len.bytes →
          m'.byte a = m.byte a := by
  rcases store_puts len value granule hRam hContiguous with
    ⟨m', hStore, hPuts⟩
  rw [MainMemory.Puts, Bytes.length_bigEndian] at hPuts
  exact ⟨m', hStore, hPuts⟩

/- A bulk write, wherever its pages are. -/
theorem writeMemory_puts
    {buf : List Byte}
    (granule : Option GranuleId)
    (hRam : InRam m va buf.length) :
    ∃ m',
      m.writeMemory va buf granule = some m' ∧
        m.Puts m' va buf := by
  rcases (agrees_flat m).writeMemory va buf granule hRam with
    ⟨m', hWrite, hPages, hAgrees⟩
  refine ⟨m', hWrite, puts_of_agrees hRam ?_ hPages hAgrees⟩
  by_contra hLong
  have hBound := hRam.fits (by omega)
  omega

/- A byte on a page of another block is not stored. -/
theorem byte_store_of_split
    {m m' : MainMemory}
    (len : AccessLen)
    {va a : Ps3Uintptr}
    {p q : HostPointer}
    (value : Word len.bytes)
    (granule : Option GranuleId)
    (hP : m.getMemoryPointer va = some p)
    (hQ : m.getMemoryPointer a = some q)
    (hBlock : q.block ≠ p.block)
    (hStore : m.store len va value granule = some m') :
    m'.byte a = some (m.host q.block q.offset) := by
  rcases m.store_of_pointer len value granule hP with
    ⟨u, hStore', hPages, hHost⟩
  obtain rfl := Option.some.inj (hStore.symm.trans hStore')
  have hByte :
      m'.byte a =
        (m.write p (Bytes.bigEndian value)).byte a :=
    MainMemory.byte_congr
      (hPages.trans (m.pages_write p _).symm) hHost a
  rw [hByte, m.byte_write_of_block _ hQ hBlock,
    MainMemory.byte, hQ, Option.map_some]

/-
  If a store leaves the same bytes whatever memory held, then
  its range lies together in host memory.
-/
theorem contiguous_of_stores
    {len : AccessLen}
    {value : Word len.bytes}
    {granule : Option GranuleId}
    {bytes : List Byte}
    (hRam : InRam m va len.bytes)
    (hAll :
      ∀ host : HostMemory, ∃ m',
        MainMemory.store { m with host := host } len va value
            granule =
          some m' ∧
        m'.bytesAt va len.bytes = bytes) :
    Contiguous m va len.bytes := by
  by_contra hSplit
  rcases hRam.pointer len.bytes_pos with ⟨p, hP⟩
  rcases exists_other_block hRam hP len.bytes_le hSplit with
    ⟨i, q, hI, hQ, hBlock⟩
  -- memory that differs from the byte that should be stored
  obtain ⟨host, hHost⟩ :
      ∃ host : HostMemory, ∀ b o,
        host b o = bytes.getD i 0 + 1#8 :=
    ⟨fun _ _ => _, fun _ _ => rfl⟩
  rcases hAll host with ⟨m', hStore, hBytes⟩
  have hKept :=
    byte_store_of_split (m := { m with host := host })
      len value granule hP hQ hBlock hStore
  dsimp only at hKept
  rw [hHost] at hKept
  have hByte := congrArg (fun bytes => bytes[i]?) hBytes
  rw [m'.getElem?_bytesAt _ hI, hKept, Option.getD_some]
    at hByte
  have hGet := congrArg (fun o => o.getD 0) hByte
  rw [Option.getD_some, ← List.getD_eq_getElem?_getD] at hGet
  bv_omega

/- And if a load is right whatever memory holds, too. -/
theorem contiguous_of_loads
    {len : AccessLen}
    (hRam : InRam m va len.bytes)
    (hAll :
      ∀ host : HostMemory,
        MainMemory.load { m with host := host } len va =
          some
            (Bytes.ofBigEndian len.bytes
              (MainMemory.bytesAt { m with host := host } va
                len.bytes))) :
    Contiguous m va len.bytes := by
  by_contra hSplit
  rcases hRam.pointer len.bytes_pos with ⟨p, hP⟩
  rcases exists_other_block hRam hP len.bytes_le hSplit with
    ⟨i, q, hI, hQ, hBlock⟩
  -- memory that tells the first block from all others
  obtain ⟨host, hHost⟩ :
      ∃ host : HostMemory, ∀ b o,
        host b o = if b = p.block then 0#8 else 1#8 :=
    ⟨fun b _ => if b = p.block then 0#8 else 1#8,
      fun _ _ => rfl⟩
  have hLoad := hAll host
  rw [MainMemory.load_eq _ len va (m.toNat_lt_of_pointer hP)]
    at hLoad
  change
    (m.getMemoryPointer va).map _ = some _ at hLoad
  rw [hP, Option.map_some, Option.some.injEq] at hLoad
  have hBytes := congrArg Bytes.bigEndian hLoad
  rw [Bytes.bigEndian_ofBigEndian _ (by simp),
    Bytes.bigEndian_ofBigEndian _ (by simp)] at hBytes
  have hByte := congrArg (fun bytes => bytes[i]?) hBytes
  have hOther :
      MainMemory.byte { m with host := host }
          (va + BitVec.ofNat 32 i) =
        some 1#8 := by
    change (m.getMemoryPointer _).map _ = _
    rw [hQ, Option.map_some]
    dsimp only
    rw [hHost, if_neg hBlock]
  dsimp only at hByte
  rw [MainMemory.getElem?_bytesAt _ _ hI, hOther] at hByte
  simp [HostMemory.read, hI, hHost] at hByte

/- A range inside an aligned block is inside a page. -/
theorem contiguous_of_aligned
    (m : MainMemory)
    {n : Nat}
    (hBlock : va.toNat % 16 + n ≤ 16) :
    Contiguous m va n := by
  left
  rw [VirtualAddress.offset_eq, defaultMainMemoryPageSize_eq]
  omega

end Flat

end Ps3emu
