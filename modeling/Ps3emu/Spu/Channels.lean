import Ps3emu.Library.FlatMemory
import Mathlib.Logic.Function.Basic

/-
  An SPU thread as the PPU sees it through a window: its
  local storage and the channel registers behind its
  memory-mapped problem state.

  Key definitions include:
    * `SpuSignal`, `SPUChannels`, `SPUThread`
    * `TagClassId`
    * `SPUThread.mmioWrite`, `SPUThread.mmioRead`

  Key theorems include:
    * `TagClassId.ofOffset_offset`
    * `SPUThread.mmioWrite_sigNotify1`
    * `SPUThread.mmioWrite_sigNotify2`
-/

------------------------------------------------------------
-- Threads and Registers
------------------------------------------------------------

namespace Ps3emu

structure SpuSignal where
  value : BitVec 32 := 0
  count : Nat := 0
deriving DecidableEq

def SpuSignal.set
    (_ : SpuSignal)
    (value : BitVec 32) : SpuSignal :=
  { value, count := 1 }

/- The channels that the memory-mapped registers reach. -/
structure SPUChannels where
  outboundMailbox : List (BitVec 32) := []
  outboundInterruptMailbox : List (BitVec 32) := []
  inboundMailbox : List (BitVec 32) := []
  mfcLsa : BitVec 32 := 0
  mfcEah : BitVec 32 := 0
  mfcEal : BitVec 32 := 0
  mfcSize : BitVec 32 := 0
  mfcTagId : BitVec 32 := 0
  mfcCmd : BitVec 32 := 0
  mfcRdTagMask : BitVec 32 := 0
  spuStatus : BitVec 32 := 0
  snr1 : SpuSignal := {}
  snr2 : SpuSignal := {}
deriving DecidableEq

/- Calls out of a register write into other code. -/
inductive MmioCall where
  | run
  | command (word : BitVec 32)
deriving DecidableEq

def localStorageSize : Nat := 256 * 1024

/-
  The local storage is an array of 2^18 bytes.  A thread of
  a group has the number `spu`, a raw SPU thread has none.
  `calls` lists the calls that register writes made.
-/
structure SPUThread where
  ls : FlatMemory 18
  channels : SPUChannels := {}
  spu : Option Nat := none
  nip : BitVec 32 := 0
  calls : List MmioCall := []

inductive TagClassId where
  | mfcLsa
  | mfcEah
  | mfcEal
  | mfcSizeTag
  | mfcClassCmd
  | mfcQStatus
  | prxyQueryType
  | prxyQueryMask
  | prxyTagStatus
  | spuOutIntrMbox
  | spuOutMBox
  | spuInMBox
  | spuMBoxStatus
  | spuRunCntl
  | spuStatus
  | spuNpc
  | spuSigNotify1
  | spuSigNotify2
deriving DecidableEq

namespace TagClassId

def offset : TagClassId → Nat
  | mfcLsa => 0x3004
  | mfcEah => 0x3008
  | mfcEal => 0x300c
  | mfcSizeTag => 0x3010
  | mfcClassCmd => 0x3014
  | mfcQStatus => 0x3104
  | prxyQueryType => 0x3204
  | prxyQueryMask => 0x321c
  | prxyTagStatus => 0x322c
  | spuOutIntrMbox => 0x4000
  | spuOutMBox => 0x4004
  | spuInMBox => 0x400c
  | spuMBoxStatus => 0x4014
  | spuRunCntl => 0x401c
  | spuStatus => 0x4024
  | spuNpc => 0x4034
  | spuSigNotify1 => 0x1400c
  | spuSigNotify2 => 0x1c00c

def all : List TagClassId :=
  [mfcLsa, mfcEah, mfcEal, mfcSizeTag, mfcClassCmd,
    mfcQStatus, prxyQueryType, prxyQueryMask, prxyTagStatus,
    spuOutIntrMbox, spuOutMBox, spuInMBox, spuMBoxStatus,
    spuRunCntl, spuStatus, spuNpc, spuSigNotify1,
    spuSigNotify2]

/- The register at an offset, if there is one. -/
def ofOffset (n : Nat) : Option TagClassId :=
  all.find? (fun tag => tag.offset == n)

theorem ofOffset_offset (tag : TagClassId) :
    ofOffset tag.offset = some tag := by
  cases tag <;> decide

end TagClassId

------------------------------------------------------------
-- Memory-Mapped Accesses
------------------------------------------------------------

/- The highest address of the local storage. -/
def lslr : BitVec 32 := 0x3ffff#32

def spuStatusR : BitVec 32 := 1#32

namespace SPUThread

def setChannels
    (t : SPUThread)
    (channels : SPUChannels) : SPUThread :=
  { t with channels }

/-
  A full mailbox blocks the writer, and an offset that is
  not listed throws.
-/
def mmioWrite
    (t : SPUThread)
    (offset : Nat)
    (data : BitVec 32) : Option SPUThread :=
  let c := t.channels
  match TagClassId.ofOffset offset with
  | some .spuRunCntl =>
      if data = 1#32 then
        some
          { t with
            calls := t.calls ++ [.run]
            channels :=
              { c with
                spuStatus := c.spuStatus ||| spuStatusR } }
      else none
  | some .spuInMBox =>
      if c.inboundMailbox.length < 4 then
        some
          (t.setChannels
            { c with
              inboundMailbox :=
                c.inboundMailbox ++ [data] })
      else none
  | some .mfcLsa => some (t.setChannels { c with mfcLsa := data })
  | some .mfcEah => some (t.setChannels { c with mfcEah := data })
  | some .mfcEal => some (t.setChannels { c with mfcEal := data })
  | some .mfcSizeTag =>
      some
        (t.setChannels
          { c with
            mfcSize := data >>> 16
            mfcTagId := data &&& 0xff#32 })
  | some .mfcClassCmd =>
      some { t with calls := t.calls ++ [.command data] }
  | some .prxyQueryMask =>
      some (t.setChannels { c with mfcRdTagMask := data })
  | some .prxyQueryType => some t
  | some .spuNpc =>
      if data < lslr then some { t with nip := data } else none
  | some .spuSigNotify1 =>
      some (t.setChannels { c with snr1 := c.snr1.set data })
  | some .spuSigNotify2 =>
      some (t.setChannels { c with snr2 := c.snr2.set data })
  | _ => none

/- An empty mailbox blocks the reader. -/
def mmioRead
    (t : SPUThread)
    (offset : Nat) : Option (SPUThread × BitVec 32) :=
  let c := t.channels
  match TagClassId.ofOffset offset with
  | some .spuStatus => some (t, c.spuStatus)
  | some .spuOutMBox =>
      match c.outboundMailbox with
      | value :: rest =>
          some
            (t.setChannels { c with outboundMailbox := rest },
              value)
      | [] => none
  | some .spuOutIntrMbox =>
      match c.outboundInterruptMailbox with
      | value :: rest =>
          some
            (t.setChannels
              { c with outboundInterruptMailbox := rest },
              value)
      | [] => none
  | some .mfcClassCmd => some (t, c.mfcCmd)
  | some .mfcQStatus => some (t, 0x8000ffff#32)
  | some .spuMBoxStatus =>
      some
        (t,
          BitVec.ofNat 32 c.outboundInterruptMailbox.length
              <<< 16 |||
            BitVec.ofNat 32 (4 - c.inboundMailbox.length)
              <<< 8 |||
            BitVec.ofNat 32 c.outboundMailbox.length)
  | some .prxyQueryType => some (t, 1#32)
  | some .prxyTagStatus => some (t, 0xffffffff#32)
  | some .spuSigNotify1 => some (t, c.snr1.value)
  | some .spuSigNotify2 => some (t, c.snr2.value)
  | _ => none

theorem mmioWrite_sigNotify1
    (t : SPUThread)
    (data : BitVec 32) :
    t.mmioWrite 0x1400c data =
      some
        (t.setChannels
          { t.channels with
            snr1 := t.channels.snr1.set data }) := by
  have hTag :
      TagClassId.ofOffset 0x1400c =
        some .spuSigNotify1 := by decide
  simp only [mmioWrite, hTag]

theorem mmioWrite_sigNotify2
    (t : SPUThread)
    (data : BitVec 32) :
    t.mmioWrite 0x1c00c data =
      some
        (t.setChannels
          { t.channels with
            snr2 := t.channels.snr2.set data }) := by
  have hTag :
      TagClassId.ofOffset 0x1c00c =
        some .spuSigNotify2 := by decide
  simp only [mmioWrite, hTag]

end SPUThread

end Ps3emu
