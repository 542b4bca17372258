import Ps3emu.Ppu.ByteReverse
import Ps3emu.Ppu.Vector

/-
  Loads and stores of vectors and of their elements, and the
  vectors that shift a permutation by an address.

  Key definitions include:
    * `lvxAt`, `lvlxAt`, `lvrxAt`, `lvslAt`, `lvsrAt`
    * `emulateLvewx`, `emulateStvewx`
    * `ElementAccess`

  Key theorems include:
    * `laneBE_ofBigEndian`
    * `elementAccess_iff`
-/

------------------------------------------------------------
-- Instructions
------------------------------------------------------------

namespace Ps3emu

namespace Ppu

open Lanes Sse

/- The vector that a load puts into a register. -/
def loadVector
    (value : BitVec 64 → Option M128)
    (ra rb vd : BitVec 5)
    (r : Registers VectorFile) :
    Option (Registers VectorFile) :=
  (value (effectiveAddress ra rb r)).map (r.setXmm vd)

def load128
    (mm : MainMemory)
    (va : Ps3Uintptr) : Option M128 :=
  mm.load .sixteen va

def lvxAt (mm : MainMemory) (ea : BitVec 64) : Option M128 :=
  load128 mm ((ea &&& 0xfffffff0#64).setWidth 32)

/- The low bytes of a vector that is in host memory. -/
def ofHostBytes (bytes : List Byte) : M128 :=
  pack 8 16 (fun i => bytes.getD i 0)

def endianSwapMask128 : M128 :=
  setEpi8 [0, 1, 2, 3, 4, 5, 6, 7, 8, 9, 10, 11, 12, 13, 14, 15]

def lvlxAt (mm : MainMemory) (ea : BitVec 64) : Option M128 :=
  let eb := ea &&& 0b1111#64
  (mm.readMemory (ea.setWidth 32)
      ((16#64 - eb).setWidth 32)).map
    (fun bytes =>
      shuffleEpi8 (ofHostBytes bytes) endianSwapMask128)

/- The bytes are put at the high end of a cleared vector. -/
def lvrxAt (mm : MainMemory) (ea : BitVec 64) : Option M128 :=
  let eb := ea &&& 0b1111#64
  let read :=
    if eb = 0#64 then some []
    else
      mm.readMemory ((ea - eb).setWidth 32) (eb.setWidth 32)
  read.map (fun bytes =>
    shuffleEpi8
      (ofHostBytes (List.replicate (16 - eb.toNat) 0 ++ bytes))
      endianSwapMask128)

def lvslAt (ea : BitVec 64) : M128 :=
  lvslTable.getD (ea &&& 15#64).toNat 0#128

def lvsrAt (ea : BitVec 64) : M128 :=
  lvsrTable.getD (ea &&& 15#64).toNat 0#128

def emulateLvx
    (ra rb vd : BitVec 5)
    (mm : MainMemory) :
    Registers VectorFile → Option (Registers VectorFile) :=
  loadVector (lvxAt mm) ra rb vd

def emulateLvlx
    (ra rb vd : BitVec 5)
    (mm : MainMemory) :
    Registers VectorFile → Option (Registers VectorFile) :=
  loadVector (lvlxAt mm) ra rb vd

def emulateLvrx
    (ra rb vd : BitVec 5)
    (mm : MainMemory) :
    Registers VectorFile → Option (Registers VectorFile) :=
  loadVector (lvrxAt mm) ra rb vd

def emulateLvsl
    (ra rb vd : BitVec 5) :
    Registers VectorFile → Option (Registers VectorFile) :=
  loadVector (fun ea => some (lvslAt ea)) ra rb vd

def emulateLvsr
    (ra rb vd : BitVec 5) :
    Registers VectorFile → Option (Registers VectorFile) :=
  loadVector (fun ea => some (lvsrAt ea)) ra rb vd

/- The address is not aligned. -/
def emulateLvewx
    (ra rb vd : BitVec 5)
    (mm : MainMemory) :
    Registers VectorFile → Option (Registers VectorFile) :=
  loadVector (fun ea => load128 mm (ea.setWidth 32)) ra rb vd

/- The low bits of the address select the element. -/
def emulateStvewx
    (ra rb vs : BitVec 5)
    (granule : Option GranuleId)
    (mm : MainMemory)
    (r : Registers VectorFile) : Option MainMemory :=
  let ea := effectiveAddress ra rb r
  let eb := ea &&& 3#64
  mm.store .four (ea.setWidth 32)
    (laneBE 32 4 (r.rest vs) eb.toNat) granule

------------------------------------------------------------
-- Bytes of Vectors and Blocks of Memory
------------------------------------------------------------

/- The first byte of a sequence is the highest of its word. -/
theorem laneBE_ofBigEndian
    {w : Nat}
    {bytes : List Byte}
    (hLength : bytes.length = w)
    {i : Nat}
    (hI : i < w) :
    laneBE 8 w (Bytes.ofBigEndian w bytes) i =
      bytes.getD i 0 := by
  have hByte :=
    Bytes.getElem?_littleEndian (Bytes.ofBigEndian w bytes)
      (show w - 1 - i < w by omega)
  have hBytes :
      Bytes.littleEndian (Bytes.ofBigEndian w bytes) =
        bytes.reverse := by
    rw [Bytes.ofBigEndian,
      Bytes.littleEndian_ofLittleEndian _ (by simpa)]
  have hBack : bytes.length - 1 - (w - 1 - i) = i := by omega
  rw [hBytes, List.getElem?_reverse (by omega), hBack]
    at hByte
  rw [List.getD_eq_getElem?_getD, hByte]
  rfl

/- A byte of an element is a byte of the vector. -/
theorem laneBE_laneBE
    (v : M128)
    {i j : Nat}
    (hI : i < 4)
    (hJ : j < 4) :
    laneBE 8 4 (laneBE 32 4 v i) j =
      laneBE 8 16 v (4 * i + j) := by
  have hLane :=
    @lane_lane 128 8 4 v (4 - 1 - i) (4 - 1 - j) (by omega)
  have hPos :
      4 * (4 - 1 - i) + (4 - 1 - j) = 16 - 1 - (4 * i + j) := by
    omega
  rw [hPos] at hLane
  exact hLane

/- Only words are tested for the special windows. -/
theorem load_eq_of_ne
    (mm : MainMemory)
    {len : AccessLen}
    (hLen : len ≠ .four)
    (va : Ps3Uintptr) :
    mm.load len va =
      (mm.getMemoryPointer va).map (fun p =>
        Bytes.ofBigEndian len.bytes
          (mm.host.read p len.bytes)) := by
  rw [MainMemory.load, if_neg (fun hAnd => hLen hAnd.1)]
  congr 1
  funext p
  exact Bytes.reverseWord_ofLittleEndian _
    (HostMemory.length_read _ _ _)

theorem load128_eq
    (mm : MainMemory)
    (va : Ps3Uintptr) :
    load128 mm va =
      (mm.getMemoryPointer va).map (fun p =>
        Bytes.ofBigEndian 16 (mm.host.read p 16)) :=
  load_eq_of_ne mm (by decide) va

variable {mm : MainMemory} {va : Ps3Uintptr}

theorem load128_eq_bytesAt
    (hRam : Flat.InRam mm va 16)
    (hAligned : va.toNat % 16 = 0) :
    load128 mm va =
      some (Bytes.ofBigEndian 16 (mm.bytesAt va 16)) :=
  Flat.load_eq_bytesAt .sixteen hRam
    (Flat.contiguous_of_aligned mm (by
      change _ + 16 ≤ 16
      omega))

/- An aligned block is on one page. -/
theorem inRam_of_pointer
    {p : HostPointer}
    {n : Nat}
    (hP : mm.getMemoryPointer va = some p)
    (hBlock : va.toNat % 16 + n ≤ 16) :
    Flat.InRam mm va n := by
  intro i hI
  rw [mm.getMemoryPointer_add hP i]
  · rfl
  · rw [VirtualAddress.offset_eq, defaultMainMemoryPageSize_eq]
    omega

/- The word of an address is on the page of the address. -/
theorem word_pointer
    {p : HostPointer}
    (hP : mm.getMemoryPointer va = some p) :
    ∃ q,
      mm.getMemoryPointer (va &&& 0xfffffffc#32) = some q ∧
        q.block = p.block ∧
        q.offset + va.toNat % 4 = p.offset := by
  rcases Option.map_eq_some_iff.mp hP with ⟨x, hX, rfl⟩
  have hWord :
      (va &&& 0xfffffffc#32).toNat = va.toNat / 4 * 4 :=
    Masks.toNat_and_high va 2 (by omega)
  have hPage :
      VirtualAddress.page (va &&& 0xfffffffc#32) =
        VirtualAddress.page va := by
    rw [VirtualAddress.page_eq, VirtualAddress.page_eq, hWord]
    omega
  refine
    ⟨x.add (VirtualAddress.offset (va &&& 0xfffffffc#32)),
      ?_, rfl, ?_⟩
  · rw [MainMemory.getMemoryPointer, hPage, hX]
    rfl
  · simp only [HostPointer.add, VirtualAddress.offset_eq,
      hWord]
    omega

------------------------------------------------------------
-- Elements
------------------------------------------------------------

/- The word that holds the byte at an address. -/
def wordAddress
    (ra rb : BitVec 5)
    (r : Registers VectorFile) : Ps3Uintptr :=
  (effectiveAddress ra rb r).setWidth 32 &&& 0xfffffffc#32

/- The element that is at the place of the word. -/
def elementOf
    (ra rb : BitVec 5)
    (r : Registers VectorFile) : Nat :=
  (effectiveAddress ra rb r).toNat % 16 / 4

/-
  What the instruction set says of a store of an element, of
  a load, and of a load after a store.
-/
structure ElementAccess
    (ra rb vs vd : BitVec 5)
    (granule : Option GranuleId)
    (r : Registers VectorFile)
    (mm : MainMemory) : Prop where
  store :
    ∃ mm',
      emulateStvewx ra rb vs granule mm r = some mm' ∧
        mm'.bytesAt (wordAddress ra rb r) 4 =
          Bytes.bigEndian (w := 4)
            (laneBE 32 4 (r.rest vs) (elementOf ra rb r)) ∧
        ∀ a,
          ¬ distance (wordAddress ra rb r) a < 4 →
            mm'.byte a = mm.byte a
  load :
    ∃ r',
      emulateLvewx ra rb vd mm r = some r' ∧
        laneBE 32 4 (r'.rest vd) (elementOf ra rb r) =
          Bytes.ofBigEndian 4
            (mm.bytesAt (wordAddress ra rb r) 4)
  restored :
    ∃ mm' r',
      emulateStvewx ra rb vs granule mm r = some mm' ∧
        emulateLvewx ra rb vd mm' r = some r' ∧
        laneBE 32 4 (r'.rest vd) (elementOf ra rb r) =
          laneBE 32 4 (r.rest vs) (elementOf ra rb r)

theorem emulateLvewx_eq
    (ra rb vd : BitVec 5)
    (mm : MainMemory)
    (r : Registers VectorFile) :
    emulateLvewx ra rb vd mm r =
      (load128 mm
        ((effectiveAddress ra rb r).setWidth 32)).map
          (r.setXmm vd) :=
  rfl

/- A load takes its word from the start of the vector. -/
theorem elementAccess_load
    {ra rb vd : BitVec 5}
    {r r' : Registers VectorFile}
    (hLoad : emulateLvewx ra rb vd mm r = some r') :
    ∃ p,
      mm.getMemoryPointer
          ((effectiveAddress ra rb r).setWidth 32) =
        some p ∧
      r'.rest vd =
        Bytes.ofBigEndian 16 (mm.host.read p 16) := by
  rw [emulateLvewx_eq, load128_eq, Option.map_map] at hLoad
  rcases Option.map_eq_some_iff.mp hLoad with ⟨p, hP, rfl⟩
  exact ⟨p, hP, Registers.setXmm_self _ _ _⟩

/- Memory that holds a single one tells where a word is. -/
theorem aligned_of_elementAccess
    {ra rb vs vd : BitVec 5}
    {granule : Option GranuleId}
    {r : Registers VectorFile}
    {mm : MainMemory}
    (hAll :
      ∀ host,
        ElementAccess ra rb vs vd granule r
          { mm with host := host }) :
    Flat.InRam mm (wordAddress ra rb r) 4 ∧
      (effectiveAddress ra rb r).toNat % 16 = 0 := by
  rcases (hAll mm.host).load with ⟨r₀, hLoad₀, -⟩
  rcases elementAccess_load hLoad₀ with ⟨p, hP, -⟩
  rcases word_pointer hP with ⟨q, hQ, hBlock, hOffset⟩
  have hWord :
      (wordAddress ra rb r).toNat =
        ((effectiveAddress ra rb r).setWidth 32).toNat /
          4 * 4 :=
    Masks.toNat_and_high _ 2 (by omega)
  have hRam : Flat.InRam mm (wordAddress ra rb r) 4 :=
    inRam_of_pointer hQ (by omega)
  refine ⟨hRam, ?_⟩
  obtain ⟨host, hHost⟩ :
      ∃ host : HostMemory, ∀ b o,
        host b o = if o = q.offset then 1#8 else 0#8 :=
    ⟨fun _ o => if o = q.offset then 1#8 else 0#8,
      fun _ _ => rfl⟩
  rcases (hAll host).load with ⟨r', hLoad, hElement⟩
  rcases elementAccess_load hLoad with ⟨p', hP', hVector⟩
  obtain rfl : p = p' := Option.some.inj (hP.symm.trans hP')
  have hByte :=
    congrArg (fun w => laneBE 8 4 w 0) hElement
  have hIndex : elementOf ra rb r < 4 := by
    unfold elementOf
    omega
  have hByteAt :
      ({ mm with host := host } : MainMemory).byte
          (wordAddress ra rb r + BitVec.ofNat 32 0) =
        some (host q.block q.offset) := by
    have hSame :
        wordAddress ra rb r + BitVec.ofNat 32 0 =
          wordAddress ra rb r := BitVec.add_zero _
    rw [hSame]
    exact congrArg
      (Option.map (fun p => host p.block p.offset)) hQ
  rw [laneBE_laneBE _ hIndex (by omega), hVector,
    laneBE_ofBigEndian (HostMemory.length_read _ _ _)
      (by omega),
    laneBE_ofBigEndian (MainMemory.length_bytesAt _ _ _)
      (by omega),
    List.getD_eq_getElem?_getD, List.getD_eq_getElem?_getD,
    MainMemory.getElem?_bytesAt _ _ (by omega), hByteAt]
    at hByte
  have hInside : 4 * elementOf ra rb r < 16 := by omega
  have hStart :
      p.offset + 4 * elementOf ra rb r = q.offset := by
    simpa [HostMemory.read, hHost, hInside] using hByte
  have hCut :
      ((effectiveAddress ra rb r).setWidth 32).toNat =
        (effectiveAddress ra rb r).toNat % 2 ^ 32 :=
    BitVec.toNat_setWidth _ _
  unfold elementOf at hStart
  omega

variable {r : Registers VectorFile} {ra rb : BitVec 5}

/- An aligned vector is the block of its first word. -/
theorem wordAddress_of_aligned
    (hAligned :
      (effectiveAddress ra rb r).toNat % 16 = 0) :
    wordAddress ra rb r =
        (effectiveAddress ra rb r).setWidth 32 ∧
      (wordAddress ra rb r).toNat % 16 = 0 := by
  have hCut :
      ((effectiveAddress ra rb r).setWidth 32).toNat =
        (effectiveAddress ra rb r).toNat % 2 ^ 32 :=
    BitVec.toNat_setWidth _ _
  have hHigh :
      (wordAddress ra rb r).toNat =
        ((effectiveAddress ra rb r).setWidth 32).toNat /
          4 * 4 :=
    Masks.toNat_and_high _ 2 (by omega)
  constructor
  · apply BitVec.eq_of_toNat_eq
    omega
  · omega

theorem emulateStvewx_of_aligned
    (hAligned :
      (effectiveAddress ra rb r).toNat % 16 = 0)
    (vs : BitVec 5)
    (granule : Option GranuleId)
    (mm : MainMemory) :
    emulateStvewx ra rb vs granule mm r =
      mm.store .four (wordAddress ra rb r)
        (laneBE 32 4 (r.rest vs) 0) granule := by
  have hMod :
      (effectiveAddress ra rb r &&& 3#64).toNat =
        (effectiveAddress ra rb r).toNat % 4 :=
    Masks.toNat_and_low _ 2 (by omega)
  have hLow :
      (effectiveAddress ra rb r &&& 3#64).toNat = 0 := by
    omega
  unfold emulateStvewx
  dsimp only
  rw [hLow, (wordAddress_of_aligned hAligned).1]

/- The first element of what is loaded. -/
theorem emulateLvewx_of_aligned
    (hBlock : Flat.InRam mm (wordAddress ra rb r) 16)
    (hAligned :
      (effectiveAddress ra rb r).toNat % 16 = 0)
    (vd : BitVec 5) :
    ∃ r', emulateLvewx ra rb vd mm r = some r' ∧
      laneBE 32 4 (r'.rest vd) 0 =
        Bytes.ofBigEndian 4
          (mm.bytesAt (wordAddress ra rb r) 4) := by
  rcases wordAddress_of_aligned hAligned with ⟨hWord, hMod⟩
  have hLoad := load128_eq_bytesAt hBlock hMod
  have hRegisters :
      emulateLvewx ra rb vd mm r =
        some
          (r.setXmm vd
            (Bytes.ofBigEndian 16
              (mm.bytesAt (wordAddress ra rb r) 16))) := by
    rw [emulateLvewx_eq, ← hWord, hLoad, Option.map_some]
  refine ⟨_, hRegisters, ?_⟩
  rw [Registers.setXmm_self]
  apply @eq_of_laneBE 32 8 4 rfl
  intro j hJ
  rw [laneBE_laneBE _ (by omega) hJ,
    laneBE_ofBigEndian (MainMemory.length_bytesAt _ _ _)
      (by omega),
    laneBE_ofBigEndian (MainMemory.length_bytesAt _ _ _) hJ,
    List.getD_eq_getElem?_getD, List.getD_eq_getElem?_getD,
    mm.getElem?_bytesAt _ (by omega),
    mm.getElem?_bytesAt _ hJ]
  simp

/- At an aligned address the element is the first one. -/
theorem elementAccess_of_aligned
    {ra rb vs vd : BitVec 5}
    {granule : Option GranuleId}
    (hRam : Flat.InRam mm (wordAddress ra rb r) 4)
    (hAligned :
      (effectiveAddress ra rb r).toNat % 16 = 0) :
    ElementAccess ra rb vs vd granule r mm := by
  have hMod := (wordAddress_of_aligned hAligned).2
  have hElement : elementOf ra rb r = 0 := by
    have hCut :
        ((effectiveAddress ra rb r).setWidth 32).toNat =
          (effectiveAddress ra rb r).toNat % 2 ^ 32 :=
      BitVec.toNat_setWidth _ _
    unfold elementOf
    omega
  rcases hRam.pointer (by decide) with ⟨p, hP⟩
  have hBlock : Flat.InRam mm (wordAddress ra rb r) 16 :=
    inRam_of_pointer hP (by omega)
  obtain ⟨mm', hStore, hPages, hBytes, hOthers⟩ :
      ∃ mm', mm.store .four (wordAddress ra rb r)
        (laneBE 32 4 (r.rest vs) 0) granule = some mm' ∧ _ :=
    Flat.store_bytesAt .four (laneBE 32 4 (r.rest vs) 0)
      granule hRam
      (Flat.contiguous_of_aligned mm (by
        change _ + 4 ≤ 16
        omega))
  rw [← emulateStvewx_of_aligned hAligned] at hStore
  refine ⟨⟨mm', hStore, ?_, hOthers⟩, ?_, ?_⟩
  · rw [hElement]
    exact hBytes
  · rw [hElement]
    exact emulateLvewx_of_aligned hBlock hAligned vd
  · rcases emulateLvewx_of_aligned (hBlock.congr hPages)
      hAligned vd with
      ⟨r', hLoad, hLane⟩
    refine ⟨mm', r', hStore, hLoad, ?_⟩
    rw [hElement, hLane]
    have hBack :
        mm'.bytesAt (wordAddress ra rb r) 4 =
          Bytes.bigEndian (w := 4)
            (laneBE 32 4 (r.rest vs) 0) := hBytes
    rw [hBack, Bytes.ofBigEndian_bigEndian]

/-
  Whatever memory holds, elements are stored and loaded at
  their places exactly when the address is aligned to the
  whole vector and its word is in memory.
-/
theorem elementAccess_iff
    (ra rb vs vd : BitVec 5)
    (granule : Option GranuleId)
    (r : Registers VectorFile)
    (mm : MainMemory) :
    (∀ host,
        ElementAccess ra rb vs vd granule r
          { mm with host := host }) ↔
      Flat.InRam mm (wordAddress ra rb r) 4 ∧
        (effectiveAddress ra rb r).toNat % 16 = 0 := by
  constructor
  · exact aligned_of_elementAccess
  · rintro ⟨hRam, hAligned⟩ host
    exact elementAccess_of_aligned hRam hAligned

/- Register 3 has an address that is not aligned. -/
def unaligned : Registers VectorFile :=
  ⟨0#64, 0#64, fun i => if i = 3#5 then 0x100004#64 else 0#64,
    0#32, 0#64, 0#32, fun _ => 0#128⟩

/- lvewx v1,0,r3 loads the word into the first element. -/
theorem lvewx_not_elementAccess :
    ¬ ∀ (ra rb vs vd : BitVec 5)
        (granule : Option GranuleId)
        (r : Registers VectorFile)
        (mm : MainMemory),
        Flat.InRam mm (wordAddress ra rb r) 4 →
          ElementAccess ra rb vs vd granule r mm := by
  intro hAll
  have hRam :
      Flat.InRam MainMemory.reset
        (wordAddress 0#5 3#5 unaligned) 4 := by
    have hAddress :
        wordAddress 0#5 3#5 unaligned = 0x100004#32 := by
      decide
    rw [hAddress]
    unfold Flat.InRam
    decide
  have hAligned :=
    @aligned_of_elementAccess 0#5 3#5 2#5 1#5 none unaligned
      MainMemory.reset
      (fun host => hAll 0#5 3#5 2#5 1#5 none unaligned _ hRam)
  have hMod := hAligned.2
  revert hMod
  decide

end Ppu

end Ps3emu
