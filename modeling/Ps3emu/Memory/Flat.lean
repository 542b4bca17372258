import Ps3emu.Library.FlatMemory
import Ps3emu.Memory.MainMemory

/-
  Main memory as one flat big-endian array of bytes.  Bulk
  accesses resolve a pointer for every line they touch and
  always agree with the array.  Typed accesses resolve one
  pointer, and agree with it exactly when their bytes lie
  together in host memory.

  Key definitions include:
    * `Flat.Op`, `Flat.Output`
    * `MainMemory.apply`, `Flat.apply`
    * `Flat.InRam`, `Flat.Contiguous`
    * `Flat.Agrees`

  Key theorems include:
    * `Flat.Agrees.write`
    * `Flat.Agrees.writeLoop`, `Flat.readLoop_eq`
    * `Flat.flat_of_contiguous`
-/

------------------------------------------------------------
-- Operations
------------------------------------------------------------

namespace Ps3emu

namespace Flat

inductive Op where
  | store
      (len : AccessLen)
      (va : Ps3Uintptr)
      (value : Word len.bytes)
      (granule : Option GranuleId)
  | load (len : AccessLen) (va : Ps3Uintptr)
  | writeMemory
      (va : Ps3Uintptr)
      (buf : List Byte)
      (granule : Option GranuleId)
  | setMemory
      (va : Ps3Uintptr)
      (value : Byte)
      (len : Ps3Uintptr)
      (granule : Option GranuleId)
  | readMemory (va len : Ps3Uintptr)

inductive Output where
  | none
  | word (len : AccessLen) (value : Word len.bytes)
  | bytes (buf : List Byte)
deriving DecidableEq

/- The first address and the number of bytes accessed. -/
def Op.range : Op → Ps3Uintptr × Nat
  | .store len va _ _ => (va, len.bytes)
  | .load len va => (va, len.bytes)
  | .writeMemory va buf _ => (va, buf.length)
  | .setMemory va _ len _ => (va, len.toNat)
  | .readMemory va len => (va, len.toNat)

def Op.isTyped : Op → Bool
  | .store .. => true
  | .load .. => true
  | _ => false

/- What an operation does to the memory of the emulator. -/
def applyMain
    (m : MainMemory) : Op → Option (MainMemory × Output)
  | .store len va value granule =>
      (m.store len va value granule).map (·, .none)
  | .load len va =>
      (m.load len va).map (fun v => (m, .word len v))
  | .writeMemory va buf granule =>
      (m.writeMemory va buf granule).map (·, .none)
  | .setMemory va value len granule =>
      (m.setMemory va value len granule).map (·, .none)
  | .readMemory va len =>
      (m.readMemory va len).map (fun buf => (m, .bytes buf))

/- What it does to one array of bytes. -/
def apply
    (f : FlatMemory 32) : Op → FlatMemory 32 × Output
  | .store _ va value _ =>
      (f.set va (Bytes.bigEndian value), .none)
  | .load len va =>
      (f,
        .word len
          (Bytes.ofBigEndian len.bytes (f.get va len.bytes)))
  | .writeMemory va buf _ => (f.set va buf, .none)
  | .setMemory va value len _ =>
      (f.set va (List.replicate len.toNat value), .none)
  | .readMemory va len => (f, .bytes (f.get va len.toNat))

def exec
    (f : FlatMemory 32) :
    List Op → FlatMemory 32 × List Output
  | [] => (f, [])
  | op :: ops =>
      let (f', output) := apply f op
      let (f'', outputs) := exec f' ops
      (f'', output :: outputs)

------------------------------------------------------------
-- Ranges and Copies
------------------------------------------------------------

/- Every byte of the range is on an allocated page. -/
def InRam
    (m : MainMemory)
    (va : Ps3Uintptr)
    (n : Nat) : Prop :=
  ∀ i < n,
    (m.getMemoryPointer (va + BitVec.ofNat 32 i)).isSome

/-
  The range stays on its first page, or the next page comes
  right after that page in host memory.
-/
def Contiguous
    (m : MainMemory)
    (va : Ps3Uintptr)
    (n : Nat) : Prop :=
  VirtualAddress.offset va + n ≤ defaultMainMemoryPageSize ∨
    m.pages.ptr (VirtualAddress.page va + 1) =
      (m.pages.ptr (VirtualAddress.page va)).map
        (fun p => p.add defaultMainMemoryPageSize)

/- The array holds the bytes of all allocated pages. -/
def Agrees (m : MainMemory) (f : FlatMemory 32) : Prop :=
  ∀ a b, m.byte a = some b → f a = b

variable {m : MainMemory} {n : Nat} {va : Ps3Uintptr}

/- A range of allocated bytes is a range of numbers. -/
theorem InRam.fits
    (hRam : InRam m va n)
    (hPos : 0 < n) :
    va.toNat + n ≤ 0xe0000000 := by
  have hFirst : va.toNat < 0xe0000000 := by
    rcases Option.isSome_iff_exists.mp (hRam 0 hPos) with
      ⟨p, hp⟩
    have hLt := m.toNat_lt_of_pointer hp
    simpa using hLt
  by_contra hNot
  have hIn : 0xe0000000 - va.toNat < n := by omega
  rcases Option.isSome_iff_exists.mp (hRam _ hIn) with
    ⟨p, hp⟩
  have hLt := m.toNat_lt_of_pointer hp
  rw [toNat_add_ofNat va _ (by omega)] at hLt
  omega

theorem InRam.pointer
    (hRam : InRam m va n)
    (hPos : 0 < n) :
    ∃ p, m.getMemoryPointer va = some p := by
  have hSome := hRam 0 hPos
  rw [BitVec.add_zero] at hSome
  exact Option.isSome_iff_exists.mp hSome

/- The rest of a range after its first bytes. -/
theorem InRam.drop
    (hRam : InRam m va n)
    (k : Nat) :
    InRam m (va + BitVec.ofNat 32 k) (n - k) := by
  intro i hi
  have hSome := hRam (k + i) (by omega)
  rwa [BitVec.ofNat_add, ← BitVec.add_assoc] at hSome

variable {p : HostPointer}

/- In host memory the bytes of such a range lie together. -/
theorem Contiguous.pointer
    (hContiguous : Contiguous m va n)
    (hp : m.getMemoryPointer va = some p)
    (hn : n ≤ 16)
    (i : Nat)
    (hi : i < n) :
    m.getMemoryPointer (va + BitVec.ofNat 32 i) =
      some (p.add i) := by
  by_cases hPage :
      VirtualAddress.offset va + i <
        defaultMainMemoryPageSize
  · exact m.getMemoryPointer_add hp i hPage
  · have hNext := hContiguous.resolve_left (by omega)
    have hLt := m.toNat_lt_of_pointer hp
    rcases Option.map_eq_some_iff.mp hp with ⟨x, hx, rfl⟩
    rw [hx, Option.map_some] at hNext
    have hNat := toNat_add_ofNat va i (by omega)
    rw [defaultMainMemoryPageSize_eq,
      VirtualAddress.offset_eq] at hPage
    have hPageOf :
        VirtualAddress.page (va + BitVec.ofNat 32 i) =
          VirtualAddress.page va + 1 := by
      rw [VirtualAddress.page_eq, VirtualAddress.page_eq,
        hNat]
      omega
    have hOffsetOf :
        VirtualAddress.offset (va + BitVec.ofNat 32 i) +
            defaultMainMemoryPageSize =
          VirtualAddress.offset va + i := by
      rw [VirtualAddress.offset_eq,
        VirtualAddress.offset_eq, hNat,
        defaultMainMemoryPageSize_eq]
      omega
    rw [MainMemory.getMemoryPointer, hPageOf, hNext]
    simp only [Option.map_some, HostPointer.add,
      Option.some.injEq, HostPointer.mk.injEq, true_and]
    omega

variable {f : FlatMemory 32}

/-
  Copying in through a pointer to a range that lies together
  puts the bytes of the range.
-/
theorem Agrees.write
    (hAgrees : Agrees m f)
    (bytes : List Byte)
    (hp : m.getMemoryPointer va = some p)
    (hTogether :
      ∀ i < bytes.length,
        m.getMemoryPointer (va + BitVec.ofNat 32 i) =
          some (p.add i)) :
    Agrees (m.write p bytes) (f.set va bytes) := by
  intro a b hb
  by_cases hNear : distance va a < bytes.length
  · have hPointer := hTogether _ hNear
    rw [add_distance] at hPointer
    rw [m.byte_write_of_pointer bytes _ hPointer hNear]
      at hb
    have hSet :
        f.set va bytes a = bytes.getD (distance va a) 0 :=
      if_pos hNear
    exact hSet.trans (Option.some.inj hb)
  · rw [m.byte_write_of_far bytes hp a hNear] at hb
    have hSet : f.set va bytes a = f a := if_neg hNear
    exact hSet.trans (hAgrees a b hb)

/- Copying out reads the bytes of the range. -/
theorem Agrees.read
    (hAgrees : Agrees m f)
    (hTogether :
      ∀ i < n,
        m.getMemoryPointer (va + BitVec.ofNat 32 i) =
          some (p.add i)) :
    m.host.read p n = f.get va n := by
  apply List.map_congr_left
  intro i hi
  have hPointer := hTogether i (List.mem_range.mp hi)
  refine (hAgrees _ _ ?_).symm
  rw [MainMemory.byte, hPointer]
  rfl

/- Reservations and page marks are no part of the array. -/
theorem Agrees.congr
    {m m' : MainMemory}
    (hAgrees : Agrees m f)
    (hPages : m'.pages = m.pages)
    (hHost : m'.host = m.host) :
    Agrees m' f := by
  intro a b hb
  rw [MainMemory.byte_congr hPages hHost] at hb
  exact hAgrees a b hb

theorem InRam.congr
    {m m' : MainMemory}
    (hRam : InRam m va n)
    (hPages : m'.pages = m.pages) :
    InRam m' va n := by
  intro i hi
  simpa only [MainMemory.getMemoryPointer, hPages] using
    hRam i hi

------------------------------------------------------------
-- Bulk Accesses
------------------------------------------------------------

/- A chunk stays on its line, so on its page. -/
theorem chunk_together
    {va last : Ps3Uintptr}
    (hp : m.getMemoryPointer va = some p)
    (hLast : va.toNat < last.toNat)
    (i : Nat)
    (hi : i < (MainMemory.chunkEnd va last - va).toNat) :
    m.getMemoryPointer (va + BitVec.ofNat 32 i) =
      some (p.add i) := by
  have hVa := m.toNat_lt_of_pointer hp
  rw [MainMemory.toNat_chunkEnd_sub va last hVa hLast] at hi
  apply m.getMemoryPointer_add hp
  rw [VirtualAddress.offset_eq, defaultMainMemoryPageSize_eq]
  omega

/- The bytes a chunk takes from a range that is left. -/
structure ChunkSize
    (va last : Ps3Uintptr)
    (left k : Nat) : Prop where
  pos : 0 < k
  le : k ≤ left
  next :
    MainMemory.chunkEnd va last = va + BitVec.ofNat 32 k
  toNat_next :
    (MainMemory.chunkEnd va last).toNat = va.toNat + k

theorem chunkSize
    {va last : Ps3Uintptr}
    {left : Nat}
    (hVa : va.toNat < 0xe0000000)
    (hPos : 0 < left)
    (hLast : va.toNat + left = last.toNat) :
    ChunkSize va last left
      (MainMemory.chunkEnd va last - va).toNat := by
  have hSize :=
    MainMemory.toNat_chunkEnd_sub va last hVa (by omega)
  have hEnd := MainMemory.toNat_chunkEnd va last hVa
  refine ⟨by omega, by omega, ?_, by omega⟩
  exact
    (add_distance va (MainMemory.chunkEnd va last)).symm

variable {last : Ps3Uintptr}

/- One chunk puts the first bytes that are left. -/
theorem Agrees.writeChunk
    {granule : Option GranuleId}
    {src : List Byte}
    (hAgrees : Agrees m f)
    (hRam : InRam m va src.length)
    (hPos : 0 < src.length)
    (hLast : va.toNat + src.length = last.toNat) :
    ∃ m',
      m.writeChunk va last src granule = some m' ∧
        m'.pages = m.pages ∧
        Agrees m'
          (f.set va
            (src.take
              (MainMemory.chunkEnd va last - va).toNat)) := by
  rcases hRam.pointer hPos with ⟨p, hp⟩
  have hSome :
      ∃ m', m.writeChunk va last src granule = some m' := by
    simp [MainMemory.writeChunk, hp]
  rcases hSome with ⟨m', hWrite⟩
  refine ⟨m', hWrite, ?_⟩
  rcases Option.map_eq_some_iff.mp hWrite with
    ⟨q, hq, rfl⟩
  refine ⟨rfl, ?_⟩
  refine (hAgrees.write _ hq ?_).congr rfl rfl
  intro i hi
  rw [List.length_take] at hi
  have hIn :
      i < (MainMemory.chunkEnd va last - va).toNat := by
    omega
  exact chunk_together hq (by omega) i hIn

/- The loop of `writeMemory` puts what is left to copy. -/
theorem Agrees.writeLoop
    {granule : Option GranuleId}
    (fuel : Nat)
    {src : List Byte}
    (hAgrees : Agrees m f)
    (hRam : InRam m va src.length)
    (hFuel : src.length ≤ fuel)
    (hLast : va.toNat + src.length = last.toNat) :
    ∃ m',
      MainMemory.writeLoop last granule fuel m va src =
          some m' ∧
        m'.pages = m.pages ∧
        Agrees m' (f.set va src) := by
  induction fuel generalizing m f va src with
  | zero =>
      obtain rfl := List.length_eq_zero_iff.mp
        (Nat.le_zero.mp hFuel)
      have hEq : va = last := BitVec.eq_of_toNat_eq hLast
      refine ⟨m, if_pos hEq, rfl, ?_⟩
      simpa using hAgrees
  | succ fuel ih =>
      by_cases hNil : src = []
      · subst hNil
        have hEq : va = last := BitVec.eq_of_toNat_eq hLast
        refine ⟨m, if_pos hEq, rfl, ?_⟩
        simpa using hAgrees
      · have hPos := List.length_pos_iff.mpr hNil
        have hNe : va ≠ last := by
          rintro rfl
          omega
        have hBound := hRam.fits hPos
        have hChunk :=
          chunkSize (by omega) hPos hLast
        obtain ⟨m', hWrite, hPages, hAgrees'⟩ :
            ∃ m', m.writeChunk va last src granule = _ ∧ _ :=
          hAgrees.writeChunk hRam hPos hLast
        simp only [MainMemory.writeLoop, hNe, if_false,
          hWrite, Option.bind_some]
        generalize
          (MainMemory.chunkEnd va last - va).toNat = k
            at hChunk hAgrees' ⊢
        have hRest :
            InRam m' (MainMemory.chunkEnd va last)
              (src.drop k).length := by
          rw [hChunk.next, List.length_drop]
          exact (hRam.drop k).congr hPages
        have hLe := hChunk.le
        have hChunkPos := hChunk.pos
        have hTake : (src.take k).length = k := by
          rw [List.length_take]
          omega
        obtain ⟨m'', hLoop, hPages', hAgrees''⟩ :=
          ih hAgrees' hRest
            (by rw [List.length_drop]; omega)
            (by rw [List.length_drop, hChunk.toNat_next]
                omega)
        refine ⟨m'', hLoop, hPages'.trans hPages, ?_⟩
        have hSplit :=
          FlatMemory.set_append f va (src.take k)
            (src.drop k)
            (by rw [hTake, List.length_drop]; omega)
        rw [List.take_append_drop, hTake, ← hChunk.next]
          at hSplit
        rw [hSplit]
        exact hAgrees''

/- The loop of `readMemory` gets what is left to copy. -/
theorem readLoop_eq
    (hAgrees : Agrees m f)
    (fuel : Nat)
    {dest : List Byte}
    (hRam : InRam m va n)
    (hFuel : n ≤ fuel)
    (hLast : va.toNat + n = last.toNat) :
    MainMemory.readLoop m last fuel va dest =
      some (dest ++ f.get va n) := by
  induction fuel generalizing va n dest with
  | zero =>
      obtain rfl := Nat.le_zero.mp hFuel
      have hEq : va = last := BitVec.eq_of_toNat_eq hLast
      simp [MainMemory.readLoop, hEq, FlatMemory.get]
  | succ fuel ih =>
      by_cases hZero : n = 0
      · subst hZero
        have hEq : va = last := BitVec.eq_of_toNat_eq hLast
        simp [MainMemory.readLoop, hEq, FlatMemory.get]
      · have hPos := Nat.pos_of_ne_zero hZero
        have hNe : va ≠ last := by
          rintro rfl
          omega
        have hBound := hRam.fits hPos
        have hChunk := chunkSize (by omega) hPos hLast
        rcases hRam.pointer hPos with ⟨p, hp⟩
        have hRead :
            m.host.read p
                (MainMemory.chunkEnd va last - va).toNat =
              f.get va
                (MainMemory.chunkEnd va last - va).toNat :=
          hAgrees.read (chunk_together hp (by omega))
        simp only [MainMemory.readLoop, hNe, if_false, hp,
          Option.bind_some, hRead]
        generalize
          (MainMemory.chunkEnd va last - va).toNat = k
            at hChunk ⊢
        have hLe := hChunk.le
        have hChunkPos := hChunk.pos
        have hRest :
            InRam m (MainMemory.chunkEnd va last)
              (n - k) := by
          rw [hChunk.next]
          exact hRam.drop k
        rw [ih hRest (by omega)
          (by rw [hChunk.toNat_next]; omega)]
        have hSplit := f.get_add va k (n - k)
        rw [Nat.add_sub_cancel' hLe, ← hChunk.next] at hSplit
        rw [hSplit, List.append_assoc]

theorem Agrees.writeMemory
    (hAgrees : Agrees m f)
    (va : Ps3Uintptr)
    (buf : List Byte)
    (granule : Option GranuleId)
    (hRam : InRam m va buf.length) :
    ∃ m',
      m.writeMemory va buf granule = some m' ∧
        m'.pages = m.pages ∧
        Agrees m' (f.set va buf) := by
  unfold MainMemory.writeMemory
  by_cases hSpecial : isSpecialVa va = true
  · rw [if_pos hSpecial]
    have hEmpty : buf = [] := by
      by_contra hNe
      have hBound :=
        hRam.fits (List.length_pos_iff.mpr hNe)
      have hPos := List.length_pos_iff.mpr hNe
      rw [isSpecialVa_iff] at hSpecial
      omega
    subst hEmpty
    refine ⟨m, rfl, rfl, ?_⟩
    simpa using hAgrees
  · rw [if_neg hSpecial]
    have hFit : va.toNat + buf.length < 2 ^ 32 := by
      rw [isSpecialVa_iff] at hSpecial
      rcases Nat.eq_zero_or_pos buf.length with hZero | hPos
      · omega
      · have hBound := hRam.fits hPos
        omega
    have hMarked :
        Agrees (m.mark va (BitVec.ofNat 32 buf.length)) f :=
      hAgrees.congr rfl rfl
    exact
      hMarked.writeLoop buf.length (hRam.congr rfl)
        (Nat.le_refl _) (toNat_add_ofNat va _ hFit).symm

theorem readMemory_eq
    (hAgrees : Agrees m f)
    (va len : Ps3Uintptr)
    (hRam : InRam m va len.toNat) :
    m.readMemory va len = some (f.get va len.toNat) := by
  have hOrdinary : ¬ (len = 4#32 ∧ isRawSpuVa va = true) := by
    rintro ⟨rfl, hRaw⟩
    have hBound := hRam.fits (by decide)
    rw [isRawSpuVa_iff] at hRaw
    simp only [BitVec.toNat_ofNat] at hBound
    omega
  have hLast :
      va.toNat + len.toNat = (va + len).toNat := by
    rcases Nat.eq_zero_or_pos len.toNat with hZero | hPos
    · have hLen : len = 0#32 := BitVec.eq_of_toNat_eq hZero
      simp [hLen]
    · have hBound := hRam.fits hPos
      rw [BitVec.toNat_add, Nat.mod_eq_of_lt (by omega)]
  rw [MainMemory.readMemory, if_neg hOrdinary,
    readLoop_eq hAgrees len.toNat hRam (Nat.le_refl _) hLast,
    List.nil_append]

------------------------------------------------------------
-- Typed Accesses
------------------------------------------------------------

theorem Agrees.store
    (hAgrees : Agrees m f)
    (len : AccessLen)
    (va : Ps3Uintptr)
    (value : Word len.bytes)
    (granule : Option GranuleId)
    (hRam : InRam m va len.bytes)
    (hContiguous : Contiguous m va len.bytes) :
    ∃ m',
      m.store len va value granule = some m' ∧
        m'.pages = m.pages ∧
        Agrees m' (f.set va (Bytes.bigEndian value)) := by
  rcases hRam.pointer len.bytes_pos with ⟨p, hp⟩
  rcases m.store_of_pointer len value granule hp with
    ⟨m', hStore, hPages, hHost⟩
  refine ⟨m', hStore, hPages, ?_⟩
  refine (hAgrees.write _ hp ?_).congr hPages hHost
  intro i hi
  rw [Bytes.length_bigEndian] at hi
  exact hContiguous.pointer hp len.bytes_le i hi

theorem load_eq
    (hAgrees : Agrees m f)
    (len : AccessLen)
    (va : Ps3Uintptr)
    (hRam : InRam m va len.bytes)
    (hContiguous : Contiguous m va len.bytes) :
    m.load len va =
      some
        (Bytes.ofBigEndian len.bytes
          (f.get va len.bytes)) := by
  rcases hRam.pointer len.bytes_pos with ⟨p, hp⟩
  have hVa := m.toNat_lt_of_pointer hp
  have hRead : m.host.read p len.bytes = f.get va len.bytes :=
    hAgrees.read (hContiguous.pointer hp len.bytes_le)
  rw [m.load_eq len va hVa, hp, Option.map_some, hRead]

/-
  A range that does not lie together ends on a page of
  another block.
-/
theorem exists_other_block
    (hRam : InRam m va n)
    (hp : m.getMemoryPointer va = some p)
    (hn : n ≤ 16)
    (hSplit : ¬ Contiguous m va n) :
    ∃ i q,
      i < n ∧
        m.getMemoryPointer (va + BitVec.ofNat 32 i) =
          some q ∧
        q.block ≠ p.block := by
  rw [Contiguous, not_or] at hSplit
  rcases hSplit with ⟨hLong, hNext⟩
  have hLt := m.toNat_lt_of_pointer hp
  rw [defaultMainMemoryPageSize_eq, VirtualAddress.offset_eq]
    at hLong
  -- the first address of the range on its second page
  obtain ⟨k, hk⟩ :
      ∃ k, va.toNat % 1048576 + k = 1048576 :=
    ⟨1048576 - va.toNat % 1048576, by omega⟩
  rcases Option.isSome_iff_exists.mp (hRam k (by omega)) with
    ⟨q, hq⟩
  refine ⟨k, q, by omega, hq, ?_⟩
  intro hBlock
  have hNat := toNat_add_ofNat va k (by omega)
  have hLinear := m.getMemoryPointer_linear hp hq hBlock.symm
  rcases Option.map_eq_some_iff.mp hp with ⟨x, hx, rfl⟩
  rcases Option.map_eq_some_iff.mp hq with ⟨y, hy, rfl⟩
  have hPage :
      VirtualAddress.page (va + BitVec.ofNat 32 k) =
        VirtualAddress.page va + 1 := by
    rw [VirtualAddress.page_eq, VirtualAddress.page_eq, hNat]
    omega
  rw [hPage] at hy
  apply hNext
  rw [hy, hx]
  rcases x with ⟨xBlock, xOffset⟩
  rcases y with ⟨yBlock, yOffset⟩
  simp only [HostPointer.add, VirtualAddress.offset_eq, hNat]
    at hLinear hBlock
  simp only [Option.map_some, HostPointer.add,
    Option.some.injEq, HostPointer.mk.injEq,
    defaultMainMemoryPageSize_eq]
  omega

/- One operation agrees with the array. -/
theorem Agrees.apply
    (hAgrees : Agrees m f)
    (op : Op)
    (hRam : InRam m op.range.1 op.range.2)
    (hContiguous :
      op.isTyped = true →
        Contiguous m op.range.1 op.range.2) :
    ∃ m',
      applyMain m op = some (m', (apply f op).2) ∧
        m'.pages = m.pages ∧
        Agrees m' (apply f op).1 := by
  cases op with
  | store len va value granule =>
      rcases hAgrees.store len va value granule hRam
        (hContiguous rfl) with ⟨m', hStore, hRest⟩
      exact ⟨m', by simp [applyMain, hStore, Flat.apply],
        hRest⟩
  | load len va =>
      have hLoad :=
        load_eq hAgrees len va hRam (hContiguous rfl)
      exact ⟨m, by simp [applyMain, hLoad, Flat.apply], rfl,
        hAgrees⟩
  | writeMemory va buf granule =>
      rcases hAgrees.writeMemory va buf granule hRam with
        ⟨m', hWrite, hRest⟩
      exact ⟨m', by simp [applyMain, hWrite, Flat.apply],
        hRest⟩
  | setMemory va value len granule =>
      rcases hAgrees.writeMemory va
        (List.replicate len.toNat value) granule
        (by rw [List.length_replicate]; exact hRam) with
        ⟨m', hWrite, hRest⟩
      refine ⟨m', ?_, hRest⟩
      simp [applyMain, MainMemory.setMemory, hWrite,
        Flat.apply]
  | readMemory va len =>
      have hRead := readMemory_eq hAgrees va len hRam
      exact ⟨m, by simp [applyMain, hRead, Flat.apply], rfl,
        hAgrees⟩

end Flat

end Ps3emu
