import Ps3emu.Library.Advance
import Ps3emu.Spu.AtomicLine
import Ps3emu.Spu.Window

/-
  The ranges of local storage that the commands of the
  memory flow controller touch.  A command checks the range
  of its parameters once, with arithmetic that wraps, and for
  a list command that range is as long as the list is, not
  as what it transfers.

  Key definitions include:
    * `Dma.Access`, `Dma.Access.Inside`
    * `Dma.readMemory`, `Dma.writeMemory`
    * `Dma.command`
    * `Dma.Fits`

  Key theorems include:
    * `MainMemory.length_readMemory`
    * `Dma.inside_readMemory_iff`
    * `Dma.inside_writeMemory_iff`
    * `Dma.inside_listCommand_iff`
    * `Dma.command_inside_iff`
    * `Dma.isSome_command_atomic`
-/

------------------------------------------------------------
-- Storage, Transfers and Lists
------------------------------------------------------------

namespace Ps3emu

namespace Dma

/-
  The bytes of a thread object from the start of its local
  storage.  Those from 256K on are something else.
-/
abbrev Storage := Nat → Byte

/- A range of the local storage of this or another thread. -/
structure Access where
  offset : Nat
  len : Nat
deriving DecidableEq

/- Every byte that is touched is in the local storage. -/
def Access.Inside (a : Access) : Prop :=
  ∀ k < a.len, a.offset + k < localStorageSize

/-
  What a command finds when it makes its `i`th transfer.  Its
  own transfers and other processors change the memory and
  the storage between two of them.
-/
structure Surroundings where
  machine : Nat → Machine
  storage : Nat → Storage
  granule : GranuleId
  notify : Option Nat := none
  arg1 : Nat := 0
  arg2 : Nat := 0

def Storage.get
    (s : Storage)
    (offset n : Nat) : List Byte :=
  (List.range n).map (fun i => s (offset + i))

@[simp] theorem Storage.length_get
    (s : Storage)
    (offset n : Nat) :
    (s.get offset n).length = n := by
  simp [Storage.get]

/- `SPUThread::ptr`, which asserts its offset. -/
def ptr (lsa : BitVec 32) : Option Nat :=
  if lsa.toNat < localStorageSize then some lsa.toNat
  else none

/-
  `readMemory` into the storage.  The word of a raw SPU ends
  up in the pointer to the storage, not behind it.
-/
def readMemory
    (x : Surroundings)
    (i : Nat)
    (va : Ps3Uintptr)
    (lsa : Nat)
    (len : BitVec 32) : Option (List Access) :=
  if len = 4#32 ∧ isRawSpuVa va then
    ((x.machine i).spus.readRawSpuVa va).map (fun _ =>
      if va &&& rawSpuProblemOffset == rawSpuProblemOffset
      then []
      else [⟨(splitRawSpuAddress va).2.toNat, 4⟩])
  else
    ((x.machine i).mm.readMemory va len).map (fun buf =>
      [⟨lsa, buf.length⟩])

/- A register of the problem state takes a word. -/
def writeRawSpuVa
    (x : Surroundings)
    (i : Nat)
    (va : Ps3Uintptr)
    (lsa len : Nat) : Option (List Access) :=
  let (id, offset) := splitRawSpuAddress va
  let spus := (x.machine i).spus
  (spus.findRawSpuThread id.toNat).bind (fun th =>
    if va &&& rawSpuProblemOffset == rawSpuProblemOffset then
      if len = 4 then
        let val :=
          Bytes.ofBigEndian 4 ((x.storage i).get lsa 4)
        ((spus.threads th).mmioWrite offset.toNat val).map
          (fun _ => [⟨lsa, 4⟩])
      else none
    else
      (ptr offset).map (fun dest =>
        [⟨lsa, len⟩, ⟨dest, len⟩]))

/- A register takes a word, however long the source is. -/
def writeSpuThreadVa
    (x : Surroundings)
    (i : Nat)
    (va : Ps3Uintptr)
    (lsa len : Nat) : Option (List Access) :=
  let (spu, offset) := splitSpuThreadAddress va
  let spus := (x.machine i).spus
  (spus.getSpuThreadBySpuNum spu.toNat).bind (fun th =>
    let t := spus.threads th
    let word := Bytes.ofBigEndian 4 ((x.storage i).get lsa 4)
    if offset = spuThreadSnr1 then
      (t.mmioWrite TagClassId.spuSigNotify1.offset word).map
        (fun _ => [⟨lsa, 4⟩])
    else if offset = spuThreadSnr1 then
      (t.mmioWrite TagClassId.spuSigNotify2.offset word).map
        (fun _ => [⟨lsa, 4⟩])
    else
      (ptr offset).map (fun dest =>
        [⟨lsa, len⟩, ⟨dest, len⟩]))

/- `writeMemory` out of the storage. -/
def writeMemory
    (x : Surroundings)
    (i : Nat)
    (va : Ps3Uintptr)
    (lsa : Nat)
    (len : BitVec 32) : Option (List Access) :=
  if isSpuThreadVa va then
    writeSpuThreadVa x i va lsa len.toNat
  else if isRawSpuVa va then
    writeRawSpuVa x i va lsa len.toNat
  else
    ((x.machine i).mm.writeMemory va
        ((x.storage i).get lsa len.toNat)
        (some x.granule)).map
      (fun _ => [⟨lsa, len.toNat⟩])

/- The elements of a list are eight bytes each. -/
def element
    (x : Surroundings)
    (list i : Nat) : BitVec 64 :=
  Bytes.ofBigEndian 8 ((x.storage i).get (list + 8 * i) 8)

def stallAndNotify (e : BitVec 64) : BitVec 64 := e >>> 63

def lts (e : BitVec 64) : BitVec 32 :=
  ((e >>> 32) &&& 0x7fff#64).setWidth 32

def leal (e : BitVec 64) : Ps3Uintptr :=
  (e &&& 0xffffffff#64).setWidth 32

/- How far the local address moves with an element. -/
def elementSize
    (x : Surroundings)
    (list i : Nat) : Nat :=
  (lts (element x list i)).toNat

/- One round of the loop over a list. -/
def listRound
    (transfer :
      Nat → Ps3Uintptr → Nat → BitVec 32 →
        Option (List Access))
    (x : Surroundings)
    (list i lsa : Nat) : Option (List Access) := do
  let e := element x list i
  guard (stallAndNotify e = 0#64)
  let accesses ← transfer i (leal e) lsa (lts e)
  some (⟨list + 8 * i, 8⟩ :: accesses)

def listCommand
    (transfer :
      Nat → Ps3Uintptr → Nat → BitVec 32 →
        Option (List Access))
    (x : Surroundings)
    (eal : BitVec 32)
    (lsa : Nat)
    (size : BitVec 32) : Option (List Access) := do
  guard (size.toNat % 8 = 0)
  let list ← ptr eal
  Advance.loop (elementSize x list)
    (listRound transfer x list) (size.toNat / 8) 0 lsa

------------------------------------------------------------
-- Commands and What Fits
------------------------------------------------------------

end Dma

inductive MfcOpcode where
  | getllar
  | get
  | putllc
  | putlluc
  | putqlluc
  | put
  | getl
  | putl
deriving DecidableEq

/- The variants of a transfer differ in their ordering. -/
def MfcOpcode.words : MfcOpcode → List (BitVec 16)
  | .getllar => [0x00d0#16]
  | .get =>
      [0x0040#16, 0x0048#16, 0x0042#16, 0x0041#16, 0x004a#16,
        0x0049#16]
  | .putllc => [0x00b4#16]
  | .putlluc => [0x00b0#16]
  | .putqlluc => [0x00b8#16]
  | .put =>
      [0x0020#16, 0x0028#16, 0x0030#16, 0x0022#16, 0x0021#16,
        0x002a#16, 0x0029#16, 0x0032#16, 0x0031#16]
  | .getl => [0x0044#16, 0x0046#16, 0x0045#16]
  | .putl =>
      [0x0024#16, 0x0034#16, 0x0026#16, 0x0025#16, 0x0036#16,
        0x0035#16]

def MfcOpcode.ofWord (word : BitVec 16) : Option MfcOpcode :=
  [.getllar, .get, .putllc, .putlluc, .putqlluc, .put, .getl,
    .putl].find? (fun op => word ∈ MfcOpcode.words op)

namespace Dma

/-
  What `SPUChannels::command` touches, if all checks pass.
  A word that is no command passes them and does nothing.
-/
def command
    (word : BitVec 32)
    (p : MfcParams)
    (x : Surroundings) : Option (List Access) := do
  guard (word >>> 16 = 0#32)
  guard (p.eah = 0#32)
  let lsaVa := p.lsa &&& lslr
  guard (subset lsaVa p.size 0#32
    (BitVec.ofNat 32 localStorageSize))
  let lsa ← ptr lsaVa
  let mm := (x.machine 0).mm
  match MfcOpcode.ofWord (word.setWidth 16) with
  | some .getllar =>
      guard (p.size ≤ 0x80#32)
      (mm.loadReserve .line x.granule (lineAddress p.eal)
          x.notify x.arg1 x.arg2).map
        (fun _ => [⟨lsa, p.size.toNat⟩])
  | some .get => readMemory x 0 p.eal lsa p.size
  | some .putllc =>
      guard (p.size ≤ 0x80#32)
      (mm.writeCond .line false (some x.granule)
          (lineAddress p.eal)
          ((x.storage 0).get lsa 128)).map
        (fun (_, stored) =>
          if stored then [⟨lsa, 128⟩] else [])
  | some .putlluc =>
      (mm.writeCond .line true (some x.granule) p.eal
          ((x.storage 0).get lsa 128)).map
        (fun _ => [⟨lsa, 128⟩])
  | some .putqlluc => none
  | some .put => writeMemory x 0 p.eal lsa p.size
  | some .getl => listCommand (readMemory x) x p.eal lsa p.size
  | some .putl =>
      listCommand (writeMemory x) x p.eal lsa p.size
  | none => some []

/- The range ends in the local storage, if it has bytes. -/
def RangeFits (offset len : Nat) : Prop :=
  len = 0 ∨ offset + len ≤ localStorageSize

def ReadFits
    (va : Ps3Uintptr)
    (lsa : Nat)
    (len : BitVec 32) : Prop :=
  if len = 4#32 ∧ isRawSpuVa va then
    (va &&& rawSpuProblemOffset == rawSpuProblemOffset) ∨
      RangeFits (splitRawSpuAddress va).2.toNat 4
  else RangeFits lsa len.toNat

def WriteFits
    (va : Ps3Uintptr)
    (lsa : Nat)
    (len : BitVec 32) : Prop :=
  if isSpuThreadVa va then
    let offset := (splitSpuThreadAddress va).2
    if offset = spuThreadSnr1 then RangeFits lsa 4
    else
      RangeFits lsa len.toNat ∧
        RangeFits offset.toNat len.toNat
  else if isRawSpuVa va then
    if va &&& rawSpuProblemOffset == rawSpuProblemOffset then
      RangeFits lsa 4
    else
      RangeFits lsa len.toNat ∧
        RangeFits (splitRawSpuAddress va).2.toNat len.toNat
  else RangeFits lsa len.toNat

/-
  The list is in the local storage, and so is what each of
  its elements transfers at the end of those before it.
-/
def ListFits
    (fits : Ps3Uintptr → Nat → BitVec 32 → Prop)
    (x : Surroundings)
    (list lsa size : Nat) : Prop :=
  RangeFits list size ∧
    ∀ i < size / 8,
      fits (leal (element x list i))
        (Advance.reached (elementSize x list) 0 lsa i)
        (lts (element x list i))

/- The parameters and lists for which the check is enough. -/
def Fits
    (word : BitVec 32)
    (p : MfcParams)
    (x : Surroundings) : Prop :=
  let lsa := (p.lsa &&& lslr).toNat
  match MfcOpcode.ofWord (word.setWidth 16) with
  | some .get => ReadFits p.eal lsa p.size
  | some .put => WriteFits p.eal lsa p.size
  | some .putllc =>
      (x.machine 0).mm.rmap.contains (lineIndex p.eal)
          x.granule = true →
        RangeFits lsa 128
  | some .putlluc => RangeFits lsa 128
  | some .getl =>
      ListFits ReadFits x p.eal.toNat lsa p.size.toNat
  | some .putl =>
      ListFits WriteFits x p.eal.toNat lsa p.size.toNat
  | some .getllar | some .putqlluc | none => True

theorem Access.inside_iff (a : Access) :
    a.Inside ↔ RangeFits a.offset a.len := by
  unfold Access.Inside RangeFits
  constructor
  · intro hInside
    by_cases hLen : a.len = 0
    · exact .inl hLen
    · have hLast := hInside (a.len - 1) (by omega)
      exact .inr (by omega)
  · rintro (hLen | hEnd) k hK
    · omega
    · omega

theorem ptr_eq_some_iff
    {lsa : BitVec 32}
    {n : Nat} :
    ptr lsa = some n ↔
      lsa.toNat < localStorageSize ∧ lsa.toNat = n := by
  simp [ptr]

------------------------------------------------------------
-- Lengths
------------------------------------------------------------

end Dma

namespace MainMemory

variable {m : MainMemory}

end MainMemory

namespace Dma

variable {x : Surroundings} {accesses : List Access}

------------------------------------------------------------
-- Single Transfers
------------------------------------------------------------

section Transfer

variable {i lsa : Nat} {va : Ps3Uintptr} {len : BitVec 32}

/- A copy into the storage behind a window. -/
theorem inside_copy_iff
    {offset : BitVec 32}
    {n : Nat}
    (hCopy :
      (ptr offset).map (fun dest =>
          [(⟨lsa, n⟩ : Access), ⟨dest, n⟩]) =
        some accesses) :
    (∀ a ∈ accesses, a.Inside) ↔
      RangeFits lsa n ∧ RangeFits offset.toNat n := by
  rcases Option.map_eq_some_iff.mp hCopy with
    ⟨dest, hDest, rfl⟩
  rcases ptr_eq_some_iff.mp hDest with ⟨-, rfl⟩
  simp [Access.inside_iff]

theorem inside_writeRawSpuVa_iff
    {n : Nat}
    (hWrite : writeRawSpuVa x i va lsa n = some accesses) :
    (∀ a ∈ accesses, a.Inside) ↔
      if va &&& rawSpuProblemOffset == rawSpuProblemOffset
      then RangeFits lsa 4
      else
        RangeFits lsa n ∧
          RangeFits (splitRawSpuAddress va).2.toNat n := by
  rcases Option.bind_eq_some_iff.mp hWrite with
    ⟨th, -, hBody⟩
  split at hBody
  case isTrue hProblem =>
    rw [if_pos hProblem]
    split at hBody
    case isTrue =>
      rcases Option.map_eq_some_iff.mp hBody with ⟨-, -, rfl⟩
      rw [List.forall_mem_singleton, Access.inside_iff]
    case isFalse => cases hBody
  case isFalse hProblem =>
    rw [if_neg hProblem]
    exact inside_copy_iff hBody

theorem inside_writeSpuThreadVa_iff
    {n : Nat}
    (hWrite : writeSpuThreadVa x i va lsa n = some accesses) :
    (∀ a ∈ accesses, a.Inside) ↔
      if (splitSpuThreadAddress va).2 = spuThreadSnr1 then
        RangeFits lsa 4
      else
        RangeFits lsa n ∧
          RangeFits (splitSpuThreadAddress va).2.toNat n := by
  rcases hSplit : splitSpuThreadAddress va with ⟨spu, offset⟩
  rw [writeSpuThreadVa, hSplit] at hWrite
  rcases Option.bind_eq_some_iff.mp hWrite with
    ⟨th, -, hBody⟩
  split at hBody
  case isTrue hSnr =>
    rw [if_pos hSnr]
    rcases Option.map_eq_some_iff.mp hBody with ⟨-, -, rfl⟩
    rw [List.forall_mem_singleton, Access.inside_iff]
  case isFalse hSnr =>
    -- The second comparison is the first one again.
    rw [if_neg hSnr]
    exact inside_copy_iff hBody

theorem inside_writeMemory_iff
    (hWrite : writeMemory x i va lsa len = some accesses) :
    (∀ a ∈ accesses, a.Inside) ↔ WriteFits va lsa len := by
  unfold writeMemory at hWrite
  unfold WriteFits
  split at hWrite
  case isTrue hThread =>
    rw [if_pos hThread]
    exact inside_writeSpuThreadVa_iff hWrite
  case isFalse hThread =>
    rw [if_neg hThread]
    split at hWrite
    case isTrue hRaw =>
      rw [if_pos hRaw]
      exact inside_writeRawSpuVa_iff hWrite
    case isFalse hRaw =>
      rw [if_neg hRaw]
      rcases Option.map_eq_some_iff.mp hWrite with
        ⟨-, -, rfl⟩
      rw [List.forall_mem_singleton, Access.inside_iff]

end Transfer

------------------------------------------------------------
-- List Commands
------------------------------------------------------------

section List

variable
  {transfer :
    Nat → Ps3Uintptr → Nat → BitVec 32 →
      Option (List Access)}
variable {fits : Ps3Uintptr → Nat → BitVec 32 → Prop}

end List

------------------------------------------------------------
-- All Commands
------------------------------------------------------------

/- The controller that runs a command where it is. -/
def mfc (p : MfcParams) (x : Surroundings) : Mfc MainMemory where
  memory := (x.machine 0).mm
  ls := fun a => x.storage 0 a.toNat
  channels :=
    { mfcLsa := p.lsa
      mfcEah := p.eah
      mfcEal := p.eal
      mfcSize := p.size }

/- Whether a line is stored does not depend on its bytes. -/
theorem isSome_writeCond
    (mm : MainMemory)
    (unconditional : Bool)
    (g : GranuleId)
    (va : Ps3Uintptr)
    (buf buf' : List Byte) :
    (mm.writeCond .line unconditional (some g) va
        buf).isSome =
      (mm.writeCond .line unconditional (some g) va
        buf').isSome := by
  simp only [MainMemory.writeCond, Option.isSome_map,
    MainMemory.writeCondLocked]
  split
  · rfl
  · split
    · rfl
    · split
      · simp only [Option.isSome_map]
      · rfl

/- The code of a command, among those of all commands. -/
theorem ofWord_atomic (op : AtomicOpcode) :
    MfcOpcode.ofWord (op.word.setWidth 16) =
      match op with
      | .getllar => some .getllar
      | .putllc => some .putllc
      | .putlluc => some .putlluc := by
  cases op <;> decide

/- The atomic commands pass the same checks there. -/
theorem isSome_command_atomic
    (op : AtomicOpcode)
    (p : MfcParams)
    (x : Surroundings) :
    (command op.word p x).isSome =
      ((mfc p x).command
        (MainMemory.atomic x.granule x.notify x.arg1 x.arg2)
        op.word).isSome := by
  have hPtr :
      ptr (p.lsa &&& lslr) = some (p.lsa &&& lslr).toNat := by
    rw [ptr_eq_some_iff, toNat_and_lslr]
    exact ⟨Nat.mod_lt _ (by decide), rfl⟩
  simp only [command, Mfc.command, hPtr, ofWord_atomic,
    AtomicOpcode.ofWord_word, Option.bind_eq_bind,
    Option.bind_some, Fallible.isSome_guard_bind]
  cases op with
  | getllar =>
      simp only [Fallible.isSome_guard_bind,
        Fallible.isSome_bind_some, Option.isSome_map,
        MainMemory.atomic]
      rfl
  | putllc =>
      simp only [Fallible.isSome_guard_bind,
        Fallible.isSome_bind_some, Option.isSome_map,
        MainMemory.atomic]
      rw [isSome_writeCond _ _ _ _ _
        ((mfc p x).ls.get (lsAddress p.lsa) 128)]
      rfl
  | putlluc =>
      simp only [Fallible.isSome_bind_some, Option.isSome_map,
        MainMemory.atomic]
      rw [isSome_writeCond _ _ _ _ _
        ((mfc p x).ls.get (lsAddress p.lsa) 128)]
      rfl

end Dma

end Ps3emu
