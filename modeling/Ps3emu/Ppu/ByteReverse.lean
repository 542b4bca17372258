import Ps3emu.Memory.GuestBytes
import Ps3emu.Ppu.Interpreter

/-
  Loads and stores that reverse the bytes of a halfword or
  of a word.  A store reverses the whole register before it
  is cut to the width of the access.

  Key definitions include:
    * `ReversedLen`
    * `emulateLoadReversed`, `emulateStoreReversed`
    * `Reverses`

  Key theorems include:
    * `emulateStoreReversed_eq`
    * `reverses_of_top`
    * `reverses_iff`
-/

------------------------------------------------------------
-- Instructions and Their Purpose
------------------------------------------------------------

namespace Ps3emu

namespace Ppu

variable {R : Type}

/- The sum is cut to 32 bits where memory is accessed. -/
def effectiveAddress
    (ra rb : Gpr)
    (r : Registers R) : BitVec 64 :=
  getB ra r + r.gpr rb

/- The widths of the instructions. -/
inductive ReversedLen where
  | half | word
deriving DecidableEq

namespace ReversedLen

def access : ReversedLen → AccessLen
  | half => .two
  | word => .four

def bytes (len : ReversedLen) : Nat := len.access.bytes

theorem bytes_le (len : ReversedLen) : len.bytes ≤ 8 := by
  cases len <;> decide

end ReversedLen

def emulateLoadReversed
    (len : ReversedLen)
    (ra rb rt : Gpr)
    (mm : MainMemory)
    (r : Registers R) : Option (Registers R) :=
  let ea := (effectiveAddress ra rb r).setWidth 32
  (mm.load len.access ea).map (fun v =>
    r.setGPR rt ((Bytes.reverseWord v).setWidth 64))

def emulateStoreReversed
    (len : ReversedLen)
    (ra rb rs : Gpr)
    (granule : Option GranuleId)
    (mm : MainMemory)
    (r : Registers R) : Option MainMemory :=
  let ea := (effectiveAddress ra rb r).setWidth 32
  let reversed : Word 8 := Bytes.reverseWord (w := 8) (r.gpr rs)
  mm.store len.access ea
    (reversed.setWidth (8 * len.bytes)) granule

def emulateLhbrx (ra rb rt : Gpr) :
    MainMemory → Registers R → Option (Registers R) :=
  emulateLoadReversed .half ra rb rt

def emulateLwbrx (ra rb rt : Gpr) :
    MainMemory → Registers R → Option (Registers R) :=
  emulateLoadReversed .word ra rb rt

def emulateSthbrx
    (ra rb rs : Gpr)
    (granule : Option GranuleId) :
    MainMemory → Registers R → Option MainMemory :=
  emulateStoreReversed .half ra rb rs granule

def emulateStwbrx
    (ra rb rs : Gpr)
    (granule : Option GranuleId) :
    MainMemory → Registers R → Option MainMemory :=
  emulateStoreReversed .word ra rb rs granule

/- The low halfword or word of a register. -/
def lowPart
    (len : ReversedLen)
    (v : BitVec 64) : Word len.bytes :=
  v.setWidth (8 * len.bytes)

/- The high halfword or word of a register. -/
def highPart
    (len : ReversedLen)
    (v : BitVec 64) : Word len.bytes :=
  v.extractLsb' (8 * (8 - len.bytes)) (8 * len.bytes)

/-
  What the instruction set says of a store, of a load, and
  of a load after a store to the same address.
-/
structure Reverses
    (len : ReversedLen)
    (ra rb rs rt : Gpr)
    (granule : Option GranuleId)
    (r : Registers R)
    (mm : MainMemory) : Prop where
  store :
    ∃ mm',
      emulateStoreReversed len ra rb rs granule mm r =
          some mm' ∧
        mm'.bytesAt ((effectiveAddress ra rb r).setWidth 32)
            len.bytes =
          (Bytes.bigEndian
            (lowPart len (r.gpr rs))).reverse ∧
        ∀ a,
          ¬ distance
              ((effectiveAddress ra rb r).setWidth 32) a <
              len.bytes →
            mm'.byte a = mm.byte a
  load :
    emulateLoadReversed len ra rb rt mm r =
      some
        (r.setGPR rt
          ((Bytes.ofBigEndian len.bytes
            (mm.bytesAt
              ((effectiveAddress ra rb r).setWidth 32)
              len.bytes).reverse).setWidth 64))
  reversed_load :
    (emulateStoreReversed len ra rb rs granule mm r).bind
        (fun mm' =>
          emulateLoadReversed len ra rb rt mm' r) =
      some
        (r.setGPR rt
          ((lowPart len (r.gpr rs)).setWidth 64))
  plain_load :
    (emulateStoreReversed len ra rb rs granule mm r).bind
        (fun mm' =>
          mm'.load len.access
            ((effectiveAddress ra rb r).setWidth 32)) =
      some (Bytes.reverseWord (lowPart len (r.gpr rs)))

------------------------------------------------------------
-- Stores and Correctness
------------------------------------------------------------

/- The low part of the reversed register is its high part. -/
theorem emulateStoreReversed_eq
    (len : ReversedLen)
    (ra rb rs : Gpr)
    (granule : Option GranuleId)
    (mm : MainMemory)
    (r : Registers R) :
    emulateStoreReversed len ra rb rs granule mm r =
      mm.store len.access
        ((effectiveAddress ra rb r).setWidth 32)
        (Bytes.reverseWord (highPart len (r.gpr rs)))
        granule := by
  have hHigh :=
    @Bytes.setWidth_reverseWord 8 len.bytes (r.gpr rs)
      len.bytes_le
  unfold emulateStoreReversed
  dsimp only
  rw [hHigh]
  rfl

theorem bigEndian_reverseWord
    {w : Nat}
    (v : Word w) :
    Bytes.bigEndian (Bytes.reverseWord v) =
      (Bytes.bigEndian v).reverse := by
  rw [Bytes.bigEndian, Bytes.littleEndian_reverseWord]

theorem reverseWord_ofBigEndian
    {w : Nat}
    (bytes : List Byte)
    (hLength : bytes.length = w) :
    Bytes.reverseWord (Bytes.ofBigEndian w bytes) =
      Bytes.ofBigEndian w bytes.reverse := by
  have hReverse : bytes.reverse.length = w := by
    rw [List.length_reverse, hLength]
  apply Bytes.littleEndian_injective
  rw [Bytes.littleEndian_reverseWord,
    Bytes.bigEndian_ofBigEndian _ hLength, Bytes.ofBigEndian,
    List.reverse_reverse,
    Bytes.littleEndian_ofLittleEndian _ hLength]

variable {mm : MainMemory} {r : Registers R} {len : ReversedLen}

/- A load reads what the bytes say, reversed. -/
theorem emulateLoadReversed_eq
    {ra rb rt : Gpr}
    (hRam :
      Flat.InRam mm ((effectiveAddress ra rb r).setWidth 32)
        len.bytes)
    (hContiguous :
      Flat.Contiguous mm
        ((effectiveAddress ra rb r).setWidth 32) len.bytes) :
    emulateLoadReversed len ra rb rt mm r =
      some
        (r.setGPR rt
          ((Bytes.ofBigEndian len.bytes
            (mm.bytesAt
              ((effectiveAddress ra rb r).setWidth 32)
              len.bytes).reverse).setWidth 64)) := by
  unfold emulateLoadReversed
  dsimp only
  rw [Flat.load_eq_bytesAt len.access hRam hContiguous,
    Option.map_some,
    reverseWord_ofBigEndian _ (mm.length_bytesAt _ _)]
  rfl

/- A register whose high part is its low part. -/
theorem reverses_of_top
    {ra rb rs : Gpr}
    (rt : Gpr)
    (granule : Option GranuleId)
    (hRam :
      Flat.InRam mm ((effectiveAddress ra rb r).setWidth 32)
        len.bytes)
    (hContiguous :
      Flat.Contiguous mm
        ((effectiveAddress ra rb r).setWidth 32) len.bytes)
    (hTop : highPart len (r.gpr rs) = lowPart len (r.gpr rs)) :
    Reverses len ra rb rs rt granule r mm := by
  obtain ⟨mm', hStore, hPages, hBytes, hOthers⟩ :
      ∃ mm', mm.store len.access
        ((effectiveAddress ra rb r).setWidth 32)
        (Bytes.reverseWord (highPart len (r.gpr rs)))
        granule = some mm' ∧ _ :=
    Flat.store_bytesAt len.access
      (Bytes.reverseWord (highPart len (r.gpr rs))) granule
      hRam hContiguous
  rw [← emulateStoreReversed_eq] at hStore
  have hStored :
      mm'.bytesAt ((effectiveAddress ra rb r).setWidth 32)
          len.bytes =
        (Bytes.bigEndian (lowPart len (r.gpr rs))).reverse := by
    rw [← hTop, ← bigEndian_reverseWord]
    exact hBytes
  have hRam' := hRam.congr hPages
  have hContiguous' :
      Flat.Contiguous mm'
        ((effectiveAddress ra rb r).setWidth 32)
        len.bytes := by
    simpa only [Flat.Contiguous, hPages] using hContiguous
  refine ⟨⟨mm', hStore, hStored, hOthers⟩,
    emulateLoadReversed_eq hRam hContiguous, ?_, ?_⟩
  · rw [hStore, Option.bind_some,
      emulateLoadReversed_eq hRam' hContiguous', hStored,
      List.reverse_reverse, Bytes.ofBigEndian_bigEndian]
  · have hLoad :
        mm'.load len.access
            ((effectiveAddress ra rb r).setWidth 32) =
          some
            (Bytes.ofBigEndian len.bytes
              (mm'.bytesAt
                ((effectiveAddress ra rb r).setWidth 32)
                len.bytes)) :=
      Flat.load_eq_bytesAt len.access hRam' hContiguous'
    rw [hStore, Option.bind_some, hLoad, hStored,
      ← bigEndian_reverseWord, Bytes.ofBigEndian_bigEndian]

/- A store whose bytes end in another block of the host. -/
theorem contiguous_of_reverses
    {ra rb rs rt : Gpr}
    {granule : Option GranuleId}
    (hRam :
      Flat.InRam mm ((effectiveAddress ra rb r).setWidth 32)
        len.bytes)
    (hAll :
      ∀ host,
        Reverses len ra rb rs rt granule r
          { mm with host := host }) :
    Flat.Contiguous mm
      ((effectiveAddress ra rb r).setWidth 32) len.bytes := by
  have hStores :
      ∀ host : HostMemory, ∃ mm',
        MainMemory.store { mm with host := host } len.access
            ((effectiveAddress ra rb r).setWidth 32)
            (Bytes.reverseWord (highPart len (r.gpr rs)))
            granule =
          some mm' ∧
        mm'.bytesAt ((effectiveAddress ra rb r).setWidth 32)
            len.access.bytes =
          (Bytes.bigEndian (lowPart len (r.gpr rs))).reverse
      := by
    intro host
    rcases hAll host with ⟨⟨mm', hStore, hBytes, -⟩, -, -, -⟩
    rw [emulateStoreReversed_eq] at hStore
    exact ⟨mm', hStore, hBytes⟩
  exact Flat.contiguous_of_stores hRam hStores

/- A store that is right stored the low part. -/
theorem highPart_eq_of_reverses
    {ra rb rs rt : Gpr}
    {granule : Option GranuleId}
    (hRam :
      Flat.InRam mm ((effectiveAddress ra rb r).setWidth 32)
        len.bytes)
    (hContiguous :
      Flat.Contiguous mm
        ((effectiveAddress ra rb r).setWidth 32) len.bytes)
    (hReverses : Reverses len ra rb rs rt granule r mm) :
    highPart len (r.gpr rs) = lowPart len (r.gpr rs) := by
  rcases hReverses with ⟨⟨mm', hStore, hBytes, -⟩, -, -, -⟩
  rw [emulateStoreReversed_eq] at hStore
  obtain ⟨mm'', hStore', -, hBytes', -⟩ :
      ∃ mm'', mm.store len.access
        ((effectiveAddress ra rb r).setWidth 32)
        (Bytes.reverseWord (highPart len (r.gpr rs)))
        granule = some mm'' ∧ _ :=
    Flat.store_bytesAt len.access
      (Bytes.reverseWord (highPart len (r.gpr rs))) granule
      hRam hContiguous
  obtain rfl := Option.some.inj (hStore.symm.trans hStore')
  have hSame :
      (Bytes.bigEndian (highPart len (r.gpr rs))).reverse =
        (Bytes.bigEndian
          (lowPart len (r.gpr rs))).reverse := by
    rw [← bigEndian_reverseWord]
    exact hBytes'.symm.trans hBytes
  exact Bytes.littleEndian_injective
    (List.reverse_injective (List.reverse_injective hSame))

/-
  Whatever memory holds, the instructions are right when the
  bytes of the access lie together in host memory and the
  high part of the register that is stored is its low part.
-/
theorem reverses_iff
    (len : ReversedLen)
    (ra rb rs rt : Gpr)
    (granule : Option GranuleId)
    (r : Registers R)
    (mm : MainMemory)
    (hRam :
      Flat.InRam mm ((effectiveAddress ra rb r).setWidth 32)
        len.bytes) :
    (∀ host,
        Reverses len ra rb rs rt granule r
          { mm with host := host }) ↔
      Flat.Contiguous mm
          ((effectiveAddress ra rb r).setWidth 32)
          len.bytes ∧
        highPart len (r.gpr rs) = lowPart len (r.gpr rs) := by
  constructor
  · intro hAll
    have hContiguous := contiguous_of_reverses hRam hAll
    exact
      ⟨hContiguous,
        highPart_eq_of_reverses hRam hContiguous
          (hAll mm.host)⟩
  · rintro ⟨hContiguous, hTop⟩ host
    exact reverses_of_top rt granule hRam hContiguous hTop

/- An address in register 3, a value in register 4. -/
def storing (value : BitVec 64) : Registers Unit :=
  { cleared.regs with
    gpr := fun i =>
      if i = 3#5 then 0x100000#64
      else if i = 4#5 then value
      else 0#64 }

theorem inRam_storing
    (len : ReversedLen)
    (value : BitVec 64) :
    Flat.InRam MainMemory.reset
      ((effectiveAddress 0#5 3#5 (storing value)).setWidth 32)
      len.bytes := by
  have hAddress :
      (effectiveAddress 0#5 3#5 (storing value)).setWidth 32 =
        0x100000#32 := by
    simp [effectiveAddress, storing, getB]
  rw [hAddress]
  cases len <;> unfold Flat.InRam <;> decide

/- sthbrx r4,0,r3 and lhbrx r5,0,r3. -/
theorem reverses_iff_sthbrx :
    (∀ host,
        Reverses .half 0#5 3#5 4#5 5#5 none
          (storing 0x1122#64)
          { MainMemory.reset with host := host }) ↔
      Flat.Contiguous MainMemory.reset
          ((effectiveAddress 0#5 3#5
            (storing 0x1122#64)).setWidth 32)
          ReversedLen.half.bytes ∧
        highPart .half ((storing 0x1122#64).gpr 4#5) =
          lowPart .half ((storing 0x1122#64).gpr 4#5) :=
  reverses_iff .half 0#5 3#5 4#5 5#5 none
    (storing 0x1122#64) MainMemory.reset
    (inRam_storing .half 0x1122#64)

/- The halfword 0x1122 is stored as zeros. -/
theorem sthbrx_not_reverses :
    ¬ ∀ (len : ReversedLen)
        (ra rb rs rt : Gpr)
        (granule : Option GranuleId)
        (r : Registers Unit)
        (mm : MainMemory),
        Flat.InRam mm
            ((effectiveAddress ra rb r).setWidth 32)
            len.bytes →
          Reverses len ra rb rs rt granule r mm := by
  intro hAll
  have hRam := inRam_storing .half 0x1122#64
  have hTop :=
    highPart_eq_of_reverses hRam
      (Flat.contiguous_of_aligned _ (by decide))
      (hAll .half 0#5 3#5 4#5 5#5 none (storing 0x1122#64)
        MainMemory.reset hRam)
  revert hTop
  decide

end Ppu

end Ps3emu
