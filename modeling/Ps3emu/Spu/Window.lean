import Ps3emu.Memory.MainMemory
import Ps3emu.Spu.Channels

/-
  Main-memory words in the windows of SPU threads and raw
  SPUs.  Stores decode the two windows separately, while
  loads decode every special address as one of the raw
  window.

  Key definitions include:
    * `SpuSystem`, `Machine`
    * `Machine.store32`, `Machine.load32`
    * `Window`, `Location`, `WindowOk`

  Key theorems include:
    * `splitRawSpuAddress_address`
    * `splitSpuThreadAddress_address`
    * `Machine.windowOk_iff`
-/

------------------------------------------------------------
-- Machines and Addresses
------------------------------------------------------------

namespace Ps3emu

/-
  The SPU thread objects, the list `_spuThreads` of the
  process, and the thread of each raw SPU.
-/
structure SpuSystem where
  threads : Nat → SPUThread
  spuThreads : List Nat
  rawSpus : Nat → Option Nat

namespace SpuSystem

def put
    (s : SpuSystem)
    (th : Nat)
    (t : SPUThread) : SpuSystem :=
  { s with threads := Function.update s.threads th t }

/- `getSpu` asserts that the thread has a number. -/
def getSpu (t : SPUThread) : Option Nat :=
  t.spu.bind (fun n => if n ≤ 255 then some n else none)

/- `find_if`, which asks every thread before the match. -/
def findSpu
    (s : SpuSystem)
    (spuNum : Nat) : List Nat → Option Nat
  | [] => none
  | th :: rest =>
      (getSpu (s.threads th)).bind (fun n =>
        if n = spuNum then some th else findSpu s spuNum rest)

def getSpuThreadBySpuNum
    (s : SpuSystem)
    (spuNum : Nat) : Option Nat :=
  s.findSpu spuNum s.spuThreads

def findRawSpuThread
    (s : SpuSystem)
    (id : Nat) : Option Nat :=
  s.rawSpus id

/-
  `memcpy(th->ptr(offset), src, len)`.  The pointer asserts
  its offset, and the copy may not leave the local storage.
-/
def copyToLs
    (s : SpuSystem)
    (th : Nat)
    (offset : Ps3Uintptr)
    (buf : List Byte) : Option SpuSystem :=
  let t := s.threads th
  if offset.toNat < localStorageSize ∧
      offset.toNat + buf.length ≤ localStorageSize then
    some
      (s.put th
        { t with ls := t.ls.set (offset.setWidth 18) buf })
  else none

end SpuSystem

/- Main memory together with the SPUs. -/
structure Machine where
  mm : MainMemory
  spus : SpuSystem

def rawSpuProblemOffset : Ps3Uintptr := 0x40000#32

def rawSpuOffset : Ps3Uintptr := 0x100000#32

def spuThreadOffsetAddr : Ps3Uintptr := 0x100000#32

def spuThreadSnr1 : Ps3Uintptr := 0x5400c#32

def spuThreadSnr2 : Ps3Uintptr := 0x5c00c#32

/- The id and the offset of a raw-SPU address. -/
def splitRawSpuAddress
    (va : Ps3Uintptr) : Ps3Uintptr × Ps3Uintptr :=
  let offset := va &&& 0x3ffff#32
  ((va - offset - rawSpuBaseAddr &&& ~~~rawSpuProblemOffset) /
      rawSpuOffset,
    offset)

/- The number and the offset of an SPU-thread address. -/
def splitSpuThreadAddress
    (va : Ps3Uintptr) : Ps3Uintptr × Ps3Uintptr :=
  let va := va &&& ~~~spuThreadBaseAddr
  (va / spuThreadOffsetAddr, va &&& 0x5ffff#32)

namespace SpuSystem

def writeRawSpuVa
    (s : SpuSystem)
    (va : Ps3Uintptr)
    (src : List Byte) : Option SpuSystem :=
  let (id, offset) := splitRawSpuAddress va
  (s.findRawSpuThread id.toNat).bind (fun th =>
    if va &&& rawSpuProblemOffset == rawSpuProblemOffset then
      if src.length = 4 then
        let val := Bytes.ofBigEndian 4 src
        ((s.threads th).mmioWrite offset.toNat val).map
          (s.put th)
      else none
    else s.copyToLs th offset src)

def readRawSpuVa
    (s : SpuSystem)
    (va : Ps3Uintptr) : Option (SpuSystem × Word 4) :=
  let (id, offset) := splitRawSpuAddress va
  (s.findRawSpuThread id.toNat).bind (fun th =>
    let t := s.threads th
    if va &&& rawSpuProblemOffset == rawSpuProblemOffset then
      (t.mmioRead offset.toNat).map (fun (t', val) =>
        (s.put th t', val))
    else if offset.toNat < localStorageSize then
      some
        (s,
          Bytes.ofBigEndian 4
            (t.ls.get (offset.setWidth 18) 4))
    else none)

/- The second comparison repeats the first register. -/
def writeSpuThreadVa
    (s : SpuSystem)
    (va : Ps3Uintptr)
    (val : List Byte) : Option SpuSystem :=
  let (spu, offset) := splitSpuThreadAddress va
  (s.getSpuThreadBySpuNum spu.toNat).bind (fun th =>
    let t := s.threads th
    let word := Bytes.ofBigEndian 4 (val.take 4)
    if offset = spuThreadSnr1 then
      (t.mmioWrite TagClassId.spuSigNotify1.offset word).map
        (s.put th)
    else if offset = spuThreadSnr1 then
      (t.mmioWrite TagClassId.spuSigNotify2.offset word).map
        (s.put th)
    else s.copyToLs th offset val)

end SpuSystem

namespace Machine

/- `writeSpecialMemory` before the store to main memory. -/
def store32
    (m : Machine)
    (va : Ps3Uintptr)
    (value : Word 4)
    (granule : Option GranuleId) : Option Machine :=
  let reversed := Bytes.littleEndian (Bytes.reverseWord value)
  if isSpuThreadVa va then
    (m.spus.writeSpuThreadVa va reversed).map (fun spus =>
      { m with spus })
  else if isRawSpuVa va then
    (m.spus.writeRawSpuVa va reversed).map (fun spus =>
      { m with spus })
  else
    (m.mm.store .four va value granule).map (fun mm =>
      { m with mm })

/- `readSpecialMemory` before the load from main memory. -/
def load32
    (m : Machine)
    (va : Ps3Uintptr) : Option (Machine × Word 4) :=
  if isRawSpuVa va then
    (m.spus.readRawSpuVa va).map (fun (spus, special) =>
      ({ m with spus },
        Bytes.reverseWord
          (Bytes.ofLittleEndian 4
            (Bytes.bigEndian special))))
  else (m.mm.load .four va).map (fun value => (m, value))

end Machine

------------------------------------------------------------
-- Windows
------------------------------------------------------------

inductive Window where
  | thread
  | raw
deriving DecidableEq

/- The address of an offset in a window. -/
def Window.address
    (w : Window)
    (spu off : Nat) : Ps3Uintptr :=
  let base :=
    match w with
    | .thread => spuThreadBaseAddr
    | .raw => rawSpuBaseAddr
  BitVec.ofNat 32 (base.toNat + spu * 0x100000 + off)

theorem toNat_address_thread
    (spu off : Nat)
    (hSpu : spu < 256)
    (hOff : off < 0x100000) :
    (Window.thread.address spu off).toNat =
      0xf0000000 + spu * 0x100000 + off := by
  simp only [Window.address, spuThreadBaseAddr,
    BitVec.toNat_ofNat]
  omega

theorem toNat_address_raw
    (id off : Nat)
    (hId : id < 256)
    (hOff : off < 0x100000) :
    (Window.raw.address id off).toNat =
      0xe0000000 + id * 0x100000 + off := by
  simp only [Window.address, rawSpuBaseAddr,
    BitVec.toNat_ofNat]
  omega

/- A word shifted past a mask keeps what the mask leaves. -/
theorem toNat_and_not_problem
    (va : Ps3Uintptr) :
    ((va &&& ~~~rawSpuProblemOffset) / rawSpuOffset).toNat =
      va.toNat / 0x100000 := by
  have hShift :
      (va &&& ~~~rawSpuProblemOffset) >>> 20 =
        va >>> 20 := by
    have hHigh :
        (~~~rawSpuProblemOffset) >>> 20 = 0xfff#32 := by
      decide
    rw [BitVec.ushiftRight_and_distrib, hHigh]
    apply BitVec.eq_of_toNat_eq
    have hLow := Masks.toNat_and_low (va >>> 20) 12 (by omega)
    have hVa := va.isLt
    refine hLow.trans (Nat.mod_eq_of_lt ?_)
    rw [Masks.toNat_ushiftRight]
    omega
  have hDiv := Masks.toNat_ushiftRight va 20
  rw [← hShift, Masks.toNat_ushiftRight] at hDiv
  exact hDiv

/- The problem-state bit of an address. -/
theorem and_problem_iff
    (va : Ps3Uintptr) :
    (va &&& rawSpuProblemOffset == rawSpuProblemOffset) =
      true ↔ va.toNat / 0x40000 % 2 = 1 := by
  have hPow : rawSpuProblemOffset = BitVec.twoPow 32 18 := by
    decide
  rw [beq_iff_eq, hPow, BitVec.and_twoPow]
  have hBit :
      va.getLsbD 18 = decide (va.toNat / 0x40000 % 2 = 1) :=
    Nat.testBit_eq_decide_div_mod_eq
  rw [hBit]
  by_cases hOdd : va.toNat / 0x40000 % 2 = 1
  · simp [hOdd]
  · simp only [hOdd, decide_false, Bool.false_eq_true,
      if_false, iff_false]
    decide

/- The raw window decodes to the id and the low offset. -/
theorem splitRawSpuAddress_address
    (id off : Nat)
    (hId : id < 256)
    (hOff : off < 0x100000) :
    (splitRawSpuAddress (Window.raw.address id off)).1.toNat =
        id ∧
      (splitRawSpuAddress
        (Window.raw.address id off)).2.toNat =
        off % 0x40000 := by
  have hVa := toNat_address_raw id off hId hOff
  generalize Window.raw.address id off = va at hVa
  have hLow : (va &&& 0x3ffff#32).toNat = off % 0x40000 := by
    refine (Masks.toNat_and_low va 18 (by omega)).trans ?_
    omega
  refine ⟨?_, hLow⟩
  have hSub :
      (va - (va &&& 0x3ffff#32)).toNat =
        va.toNat - off % 0x40000 := by
    rw [Masks.toNat_sub_of_le _ _ (by omega), hLow]
  have hBase :
      (va - (va &&& 0x3ffff#32) - rawSpuBaseAddr).toNat =
        va.toNat - off % 0x40000 - 0xe0000000 := by
    have hConst : rawSpuBaseAddr.toNat = 0xe0000000 := rfl
    rw [Masks.toNat_sub_of_le _ _ (by omega), hSub, hConst]
  simp only [splitRawSpuAddress]
  rw [toNat_and_not_problem, hBase]
  omega

/-
  The thread window decodes to the number and to the offset
  without its bits 17 and 19.
-/
theorem splitSpuThreadAddress_address
    (spu off : Nat)
    (hSpu : spu < 256)
    (hOff : off < 0x80000) :
    (splitSpuThreadAddress
        (Window.thread.address spu off)).1.toNat = spu ∧
      (splitSpuThreadAddress
        (Window.thread.address spu off)).2 =
        BitVec.ofNat 32 off &&& 0x5ffff#32 := by
  have hVa := toNat_address_thread spu off hSpu (by omega)
  generalize Window.thread.address spu off = va at hVa
  have hNot : ~~~spuThreadBaseAddr = 0xfffffff#32 := by decide
  have hLow :
      (va &&& ~~~spuThreadBaseAddr).toNat =
        spu * 0x100000 + off := by
    rw [hNot]
    refine (Masks.toNat_and_low va 28 (by omega)).trans ?_
    omega
  constructor
  · have hDiv :
        (va &&& ~~~spuThreadBaseAddr).toNat / 0x100000 =
          spu := by
      omega
    exact hDiv
  · have hMask :
        (0x7ffff#32) &&& 0x5ffff#32 = 0x5ffff#32 := by decide
    have hOffset :
        va &&& ~~~spuThreadBaseAddr &&& 0x7ffff#32 =
          BitVec.ofNat 32 off := by
      apply BitVec.eq_of_toNat_eq
      refine
        (Masks.toNat_and_low _ 19 (by omega)).trans ?_
      rw [hLow, BitVec.toNat_ofNat]
      omega
    simp only [splitSpuThreadAddress]
    rw [← hOffset, BitVec.and_assoc _ 0x7ffff#32, hMask]

/- What an offset of a window stands for. -/
inductive Location where
  | ls (offset : BitVec 18)
  | snr1
  | snr2
deriving DecidableEq

/- The offsets whose meaning does not depend on the window. -/
def locate (off : Nat) : Option Location :=
  if off < localStorageSize then
    some (.ls (BitVec.ofNat 18 off))
  else if off = spuThreadSnr1.toNat then some .snr1
  else if off = spuThreadSnr2.toNat then some .snr2
  else none

/- Change one location of a thread. -/
def Location.put
    (t : SPUThread)
    (value : Word 4) : Location → SPUThread
  | .ls offset =>
      { t with ls := t.ls.set offset (Bytes.bigEndian value) }
  | .snr1 =>
      t.setChannels
        { t.channels with
          snr1 := t.channels.snr1.set value }
  | .snr2 =>
      t.setChannels
        { t.channels with
          snr2 := t.channels.snr2.set value }

/- The thread that owns a window. -/
def Window.owner
    (w : Window)
    (s : SpuSystem)
    (spu : Nat) : Option Nat :=
  match w with
  | .thread => s.getSpuThreadBySpuNum spu
  | .raw => s.findRawSpuThread spu

namespace Machine

def putLocation
    (m : Machine)
    (th : Nat)
    (loc : Location)
    (value : Word 4) : Machine :=
  { m with
    spus := m.spus.put th (loc.put (m.spus.threads th) value) }

/-
  A store changes the location and nothing else, a load from
  the same local-storage address returns the stored word,
  and no other local-storage word changes.
-/
structure WindowOk
    (w : Window)
    (spu off : Nat)
    (loc : Location) : Prop where
  store :
    ∀ (m : Machine) th value granule,
      w.owner m.spus spu = some th →
      m.store32 (w.address spu off) value granule =
        some (m.putLocation th loc value)
  load :
    off < localStorageSize →
      ∀ (m m' : Machine) th value granule,
        w.owner m.spus spu = some th →
        m.store32 (w.address spu off) value granule =
          some m' →
        m'.load32 (w.address spu off) = some (m', value)
  distinct :
    off < localStorageSize →
      ∀ (m m' : Machine) th value granule off',
        w.owner m.spus spu = some th →
        m.store32 (w.address spu off) value granule =
          some m' →
        off' < localStorageSize →
        off' % 4 = 0 →
        off' ≠ off →
        (m'.spus.threads th).ls.get
            (BitVec.ofNat 18 off') 4 =
          (m.spus.threads th).ls.get
            (BitVec.ofNat 18 off') 4

end Machine

------------------------------------------------------------
-- Raw Window
------------------------------------------------------------

/- Words at different aligned offsets share no byte. -/
theorem ls_get_set_of_ne
    (ls : FlatMemory 18)
    (value : Word 4)
    (off off' : Nat)
    (hOff : off < localStorageSize)
    (hAligned : off % 4 = 0)
    (hOff' : off' < localStorageSize)
    (hAligned' : off' % 4 = 0)
    (hNe : off' ≠ off) :
    (ls.set (BitVec.ofNat 18 off)
        (Bytes.bigEndian value)).get
        (BitVec.ofNat 18 off') 4 =
      ls.get (BitVec.ofNat 18 off') 4 := by
  unfold localStorageSize at hOff hOff'
  apply ls.get_set_of_disjoint
  intro i hi
  rw [Bytes.length_bigEndian, BitVec.toNat_sub,
    BitVec.toNat_add, BitVec.toNat_ofNat,
    BitVec.toNat_ofNat, BitVec.toNat_ofNat]
  omega

namespace Machine

/- The raw window is not mistaken for the thread window. -/
theorem isSpuThreadVa_raw
    (id off : Nat)
    (hId : id < 256)
    (hOff : off < 0x100000) :
    isSpuThreadVa (Window.raw.address id off) = false := by
  rw [Bool.eq_false_iff, ne_eq, isSpuThreadVa_iff,
    toNat_address_raw id off hId hOff]
  omega

theorem isRawSpuVa_raw
    (id off : Nat)
    (hId : id < 256)
    (hOff : off < 0x100000) :
    isRawSpuVa (Window.raw.address id off) = true := by
  rw [isRawSpuVa_iff, toNat_address_raw id off hId hOff]
  omega

/- A raw address below the problem state is local storage. -/
theorem raw_not_problem
    (id off : Nat)
    (hId : id < 256)
    (hOff : off < localStorageSize) :
    ¬ (Window.raw.address id off &&& rawSpuProblemOffset ==
      rawSpuProblemOffset) = true := by
  unfold localStorageSize at hOff
  rw [and_problem_iff,
    toNat_address_raw id off hId (by omega)]
  omega

variable (m : Machine)

/- A store to the raw window writes the big-endian bytes. -/
theorem store32_raw
    (id off : Nat)
    (value : Word 4)
    (granule : Option GranuleId)
    (hId : id < 256)
    (hOff : off < 0x100000) :
    m.store32 (Window.raw.address id off) value granule =
      (m.spus.writeRawSpuVa (Window.raw.address id off)
        (Bytes.bigEndian value)).map (fun spus =>
          { m with spus }) := by
  simp only [store32, isSpuThreadVa_raw id off hId hOff,
    isRawSpuVa_raw id off hId hOff, Bool.false_eq_true,
    if_false, if_true, Bytes.littleEndian_reverseWord]

theorem store32_raw_ls
    (id off th : Nat)
    (value : Word 4)
    (granule : Option GranuleId)
    (hId : id < 256)
    (hOff : off < localStorageSize)
    (hAligned : off % 4 = 0)
    (hOwner : Window.raw.owner m.spus id = some th) :
    m.store32 (Window.raw.address id off) value granule =
      some
        (m.putLocation th (.ls (BitVec.ofNat 18 off))
          value) := by
  have hProblem := raw_not_problem id off hId hOff
  unfold localStorageSize at hOff
  rcases splitRawSpuAddress_address id off hId (by omega)
    with ⟨hSpu, hOffset⟩
  rw [Nat.mod_eq_of_lt (by omega)] at hOffset
  have hThread : m.spus.findRawSpuThread id = some th :=
    hOwner
  have hIndex :
      (splitRawSpuAddress
          (Window.raw.address id off)).2.setWidth 18 =
        BitVec.ofNat 18 off := by
    apply BitVec.eq_of_toNat_eq
    rw [BitVec.toNat_setWidth, BitVec.toNat_ofNat, hOffset]
  have hFits :
      off < localStorageSize ∧
        off + (Bytes.bigEndian value).length ≤
          localStorageSize := by
    rw [Bytes.length_bigEndian]
    unfold localStorageSize
    omega
  rw [m.store32_raw id off value granule hId (by omega)]
  simp only [SpuSystem.writeRawSpuVa, hSpu, hThread,
    Option.bind_some, hProblem, Bool.false_eq_true, if_false,
    SpuSystem.copyToLs, hOffset, hIndex]
  rw [if_pos hFits]
  rfl

/- A raw signal register is reached through its offset. -/
theorem store32_raw_signal
    (id off th : Nat)
    (value : Word 4)
    (granule : Option GranuleId)
    (t : SPUThread)
    (hId : id < 256)
    (hOff : off < 0x80000)
    (hProblem : 0x40000 ≤ off)
    (hWrite :
      (m.spus.threads th).mmioWrite (off % 0x40000) value =
        some t)
    (hOwner : Window.raw.owner m.spus id = some th) :
    m.store32 (Window.raw.address id off) value granule =
      some { m with spus := m.spus.put th t } := by
  rcases splitRawSpuAddress_address id off hId (by omega)
    with ⟨hSpu, hOffset⟩
  have hThread : m.spus.findRawSpuThread id = some th :=
    hOwner
  have hBit :
      (Window.raw.address id off &&& rawSpuProblemOffset ==
        rawSpuProblemOffset) = true := by
    rw [and_problem_iff,
      toNat_address_raw id off hId (by omega)]
    omega
  rw [m.store32_raw id off value granule hId (by omega)]
  simp only [SpuSystem.writeRawSpuVa, hSpu, hThread,
    Option.bind_some, hBit, if_true, Bytes.length_bigEndian,
    Bytes.ofBigEndian_bigEndian, hOffset]
  rw [hWrite]
  rfl

theorem load32_raw_ls
    (id off th : Nat)
    (hId : id < 256)
    (hOff : off < localStorageSize)
    (hOwner : Window.raw.owner m.spus id = some th) :
    m.load32 (Window.raw.address id off) =
      some
        (m,
          Bytes.ofBigEndian 4
            ((m.spus.threads th).ls.get
              (BitVec.ofNat 18 off) 4)) := by
  have hProblem := raw_not_problem id off hId hOff
  have hFits := hOff
  unfold localStorageSize at hOff
  rcases splitRawSpuAddress_address id off hId (by omega)
    with ⟨hSpu, hOffset⟩
  rw [Nat.mod_eq_of_lt (by omega)] at hOffset
  have hThread : m.spus.findRawSpuThread id = some th :=
    hOwner
  have hIndex :
      (splitRawSpuAddress
          (Window.raw.address id off)).2.setWidth 18 =
        BitVec.ofNat 18 off := by
    apply BitVec.eq_of_toNat_eq
    rw [BitVec.toNat_setWidth, BitVec.toNat_ofNat, hOffset]
  simp only [load32, isRawSpuVa_raw id off hId (by omega),
    if_true, SpuSystem.readRawSpuVa, hSpu, hThread,
    Option.bind_some, hProblem, if_false, hOffset, hFits,
    hIndex, Option.map_some, Bool.false_eq_true]
  rw [Bytes.reverseWord_ofLittleEndian _ (by simp),
    Bytes.ofBigEndian_bigEndian]

theorem windowOk_raw
    (id off : Nat)
    (loc : Location)
    (hId : id < 256)
    (hAligned : off % 4 = 0)
    (hLoc : locate off = some loc) :
    WindowOk .raw id off loc := by
  have hStore :
      ∀ (m : Machine) th value granule,
        Window.raw.owner m.spus id = some th →
        m.store32 (Window.raw.address id off) value granule =
          some (m.putLocation th loc value) := by
    intro m th value granule hOwner
    unfold locate at hLoc
    split at hLoc
    case isTrue hOff =>
      obtain rfl := Option.some.inj hLoc
      exact
        m.store32_raw_ls id off th value granule hId hOff
          hAligned hOwner
    case isFalse =>
      split at hLoc
      case isTrue hSnr1 =>
        obtain rfl := Option.some.inj hLoc
        rw [hSnr1]
        refine
          m.store32_raw_signal id _ th value granule _ hId
            (by decide) (by decide) ?_ hOwner
        exact
          (m.spus.threads th).mmioWrite_sigNotify1 value
      case isFalse =>
        split at hLoc
        case isTrue hSnr2 =>
          obtain rfl := Option.some.inj hLoc
          rw [hSnr2]
          refine
            m.store32_raw_signal id _ th value granule _ hId
              (by decide) (by decide) ?_ hOwner
          exact
            (m.spus.threads th).mmioWrite_sigNotify2 value
        case isFalse => cases hLoc
  refine ⟨hStore, ?_, ?_⟩
  · intro hOff m m' th value granule hOwner hStored
    rw [m.store32_raw_ls id off th value granule hId hOff
      hAligned hOwner] at hStored
    obtain rfl := Option.some.inj hStored
    have hOwner' :
        Window.raw.owner
            (m.putLocation th (.ls (BitVec.ofNat 18 off))
              value).spus id =
          some th := hOwner
    have hLength := Bytes.length_bigEndian value
    have hBack :=
      FlatMemory.get_set_self (m.spus.threads th).ls
        (BitVec.ofNat 18 off) (Bytes.bigEndian value)
        (by rw [hLength]; decide)
    rw [hLength] at hBack
    rw [load32_raw_ls _ id off th hId hOff hOwner']
    simp [putLocation, SpuSystem.put, Location.put, hBack,
      Bytes.ofBigEndian_bigEndian]
  · intro hOff m m' th value granule off' hOwner hStored
      hOff' hAligned' hNe
    rw [m.store32_raw_ls id off th value granule hId hOff
      hAligned hOwner] at hStored
    obtain rfl := Option.some.inj hStored
    have hKept :=
      ls_get_set_of_ne (m.spus.threads th).ls value off off'
        hOff hAligned hOff' hAligned' hNe
    simpa [putLocation, SpuSystem.put, Location.put] using
      hKept

------------------------------------------------------------
-- Thread Window
------------------------------------------------------------

theorem store32_thread
    (spu off : Nat)
    (value : Word 4)
    (granule : Option GranuleId)
    (hSpu : spu < 256)
    (hOff : off < 0x100000) :
    m.store32 (Window.thread.address spu off) value granule =
      (m.spus.writeSpuThreadVa (Window.thread.address spu off)
        (Bytes.bigEndian value)).map (fun spus =>
          { m with spus }) := by
  have hThread :
      isSpuThreadVa (Window.thread.address spu off) =
        true := by
    rw [isSpuThreadVa_iff,
      toNat_address_thread spu off hSpu hOff]
    omega
  simp only [store32, hThread, if_true,
    Bytes.littleEndian_reverseWord]

/- The first register is the one that both tests find. -/
theorem store32_thread_snr1
    (spu th : Nat)
    (value : Word 4)
    (granule : Option GranuleId)
    (hSpu : spu < 256)
    (hOwner : Window.thread.owner m.spus spu = some th) :
    m.store32
        (Window.thread.address spu spuThreadSnr1.toNat) value
        granule =
      some (m.putLocation th .snr1 value) := by
  rcases splitSpuThreadAddress_address spu
    spuThreadSnr1.toNat hSpu (by decide) with
    ⟨hNum, hOffset⟩
  have hRegister :
      (splitSpuThreadAddress
        (Window.thread.address spu
          spuThreadSnr1.toNat)).2 = spuThreadSnr1 :=
    hOffset.trans (by decide)
  have hThread :
      m.spus.getSpuThreadBySpuNum spu = some th := hOwner
  have hTake :
      (Bytes.bigEndian value).take 4 =
        Bytes.bigEndian value := by
    apply List.take_of_length_le
    rw [Bytes.length_bigEndian]
  have hWrite :=
    (m.spus.threads th).mmioWrite_sigNotify1 value
  rw [m.store32_thread spu _ value granule hSpu (by decide)]
  simp only [SpuSystem.writeSpuThreadVa, hNum, hRegister,
    if_true, hThread, Option.bind_some, hTake,
    Bytes.ofBigEndian_bigEndian, TagClassId.offset]
  rw [hWrite]
  rfl

/-
  The offset of the second register passes both tests and is
  taken for local storage, beyond whose end it lies.
-/
theorem store32_thread_snr2
    (spu : Nat)
    (value : Word 4)
    (granule : Option GranuleId)
    (hSpu : spu < 256) :
    m.store32
        (Window.thread.address spu spuThreadSnr2.toNat) value
        granule =
      none := by
  rcases splitSpuThreadAddress_address spu
    spuThreadSnr2.toNat hSpu (by decide) with
    ⟨hNum, hOffset⟩
  have hRegister :
      (splitSpuThreadAddress
        (Window.thread.address spu
          spuThreadSnr2.toNat)).2 = spuThreadSnr2 :=
    hOffset.trans (by decide)
  have hNe : ¬ spuThreadSnr2 = spuThreadSnr1 := by decide
  have hBeyond :
      ¬ (spuThreadSnr2.toNat < localStorageSize ∧
        spuThreadSnr2.toNat + (Bytes.bigEndian value).length ≤
          localStorageSize) := by
    rintro ⟨hBelow, -⟩
    revert hBelow
    decide
  rw [m.store32_thread spu _ value granule hSpu (by decide)]
  simp only [SpuSystem.writeSpuThreadVa, hNum, hRegister, hNe,
    if_false, SpuSystem.copyToLs]
  cases m.spus.getSpuThreadBySpuNum spu with
  | none => rfl
  | some th =>
      rw [Option.bind_some, if_neg hBeyond]
      rfl

/-
  The mask of the thread window drops bit 17, so that the
  upper half of the local storage is the lower half again.
-/
theorem store32_thread_ls
    (spu off th : Nat)
    (value : Word 4)
    (granule : Option GranuleId)
    (hSpu : spu < 256)
    (hOff : off < localStorageSize)
    (hAligned : off % 4 = 0)
    (hOwner : Window.thread.owner m.spus spu = some th) :
    m.store32 (Window.thread.address spu off) value granule =
      some
        (m.putLocation th
          (.ls (BitVec.ofNat 18 (off % 0x20000))) value) := by
  unfold localStorageSize at hOff
  rcases splitSpuThreadAddress_address spu off hSpu (by omega)
    with ⟨hNum, hOffset⟩
  have hLow :
      (BitVec.ofNat 32 off &&& 0x5ffff#32).toNat =
        off % 0x20000 := by
    have hMask :
        (0x3ffff#32) &&& 0x5ffff#32 = 0x1ffff#32 := by decide
    have hBelow :
        BitVec.ofNat 32 off &&& 0x3ffff#32 =
          BitVec.ofNat 32 off := by
      apply BitVec.eq_of_toNat_eq
      refine
        (Masks.toNat_and_low _ 18 (by omega)).trans ?_
      rw [BitVec.toNat_ofNat]
      omega
    rw [← hBelow, BitVec.and_assoc, hMask]
    refine (Masks.toNat_and_low _ 17 (by omega)).trans ?_
    rw [BitVec.toNat_ofNat]
    omega
  rw [← hOffset] at hLow
  have hNe :
      ¬ (splitSpuThreadAddress
        (Window.thread.address spu off)).2 =
          spuThreadSnr1 := by
    intro hEq
    rw [hEq] at hLow
    have hConst : spuThreadSnr1.toNat = 0x5400c := rfl
    omega
  have hIndex :
      (splitSpuThreadAddress
          (Window.thread.address spu off)).2.setWidth 18 =
        BitVec.ofNat 18 (off % 0x20000) := by
    apply BitVec.eq_of_toNat_eq
    rw [BitVec.toNat_setWidth, BitVec.toNat_ofNat, hLow]
  have hFits :
      off % 0x20000 < localStorageSize ∧
        off % 0x20000 + (Bytes.bigEndian value).length ≤
          localStorageSize := by
    rw [Bytes.length_bigEndian]
    unfold localStorageSize
    omega
  have hThread :
      m.spus.getSpuThreadBySpuNum spu = some th := hOwner
  rw [m.store32_thread spu _ value granule hSpu (by omega)]
  simp only [SpuSystem.writeSpuThreadVa, hNum, hNe, if_false,
    hThread, Option.bind_some, SpuSystem.copyToLs, hLow,
    hIndex]
  rw [if_pos hFits]
  rfl

/- A machine whose only thread has the given number. -/
def oneThread (spu : Nat) : Machine where
  mm := MainMemory.reset
  spus :=
    { threads := fun _ =>
        { ls := fun _ => 0, spu := some spu }
      spuThreads := [0]
      rawSpus := fun _ => none }

theorem owner_oneThread
    (spu : Nat)
    (hSpu : spu < 256) :
    Window.thread.owner (oneThread spu).spus spu =
      some 0 := by
  have hLe : spu ≤ 255 := by omega
  simp [Window.owner, SpuSystem.getSpuThreadBySpuNum,
    SpuSystem.findSpu, oneThread, SpuSystem.getSpu, hLe]

/- Loads from the thread window look for a raw SPU. -/
theorem load32_of_no_raw
    (va : Ps3Uintptr)
    (hRaw : isRawSpuVa va = true)
    (hNone : m.spus.rawSpus = fun _ => none) :
    m.load32 va = none := by
  simp only [load32, hRaw, if_true, SpuSystem.readRawSpuVa,
    SpuSystem.findRawSpuThread, hNone, Option.bind_none,
    Option.map_none]

theorem not_windowOk_thread
    (spu off : Nat)
    (loc : Location)
    (hSpu : spu < 256)
    (hLoc : locate off = some loc)
    (hNe : off ≠ spuThreadSnr1.toNat) :
    ¬ WindowOk .thread spu off loc := by
  intro hOk
  have hOwner := owner_oneThread spu hSpu
  have hStore := hOk.store (oneThread spu) 0 0 none hOwner
  unfold locate at hLoc
  split at hLoc
  case isTrue hOff =>
    have hLoad :=
      hOk.load hOff (oneThread spu) _ 0 0 none hOwner hStore
    have hRaw :
        isRawSpuVa (Window.thread.address spu off) =
          true := by
      unfold localStorageSize at hOff
      rw [isRawSpuVa_iff,
        toNat_address_thread spu off hSpu (by omega)]
      omega
    have hNone := load32_of_no_raw
      ((oneThread spu).putLocation 0 loc 0) _ hRaw rfl
    rw [hNone] at hLoad
    cases hLoad
  case isFalse =>
    split at hLoc
    case isTrue hSnr2 =>
      rw [hSnr2, store32_thread_snr2 _ spu 0 none hSpu]
        at hStore
      cases hStore
    case isFalse => cases hLoc

/-
  A window address is decoded correctly in the raw window,
  and in the thread window only for the first register.
-/
theorem windowOk_iff
    (w : Window)
    (spu off : Nat)
    (loc : Location)
    (hSpu : spu < 256)
    (hAligned : off % 4 = 0)
    (hLoc : locate off = some loc) :
    WindowOk w spu off loc ↔
      w = .raw ∨ off = spuThreadSnr1.toNat := by
  cases w with
  | raw =>
      have hOk := windowOk_raw spu off loc hSpu hAligned hLoc
      simp [hOk]
  | thread =>
      constructor
      · intro hOk
        refine .inr ?_
        by_contra hNe
        exact not_windowOk_thread spu off loc hSpu hLoc hNe
          hOk
      · rintro (hRaw | rfl)
        · cases hRaw
        · have hSnr1 : Location.snr1 = loc := by
            have hLocate :
                locate spuThreadSnr1.toNat =
                  some .snr1 := by decide
            exact
              Option.some.inj (hLocate.symm.trans hLoc)
          subst hSnr1
          refine ⟨?_, ?_, ?_⟩
          · intro m th value granule hOwner
            exact
              m.store32_thread_snr1 spu th value granule
                hSpu hOwner
          · intro hOff
            exact absurd hOff (by decide)
          · intro hOff
            exact absurd hOff (by decide)

theorem windowOk_iff_raw_word :
    WindowOk .raw 3 0x100
      (.ls 0x100#18) :=
  (windowOk_iff .raw 3 0x100 _ (by decide) (by decide)
    (by decide)).mpr (.inl rfl)

/- The second register of a thread cannot be stored to. -/
theorem thread_snr2_not_windowOk :
    ¬ ∀ (w : Window) (spu off : Nat) (loc : Location),
        spu < 256 →
        off % 4 = 0 →
        locate off = some loc →
        WindowOk w spu off loc := by
  intro hAll
  have hOk :=
    hAll .thread 0 spuThreadSnr2.toNat .snr2 (by decide)
      (by decide) (by decide)
  have hStore :=
    hOk.store (oneThread 0) 0 0 none
      (owner_oneThread 0 (by decide))
  rw [store32_thread_snr2 _ 0 0 none (by decide)] at hStore
  cases hStore

end Machine

end Ps3emu
