import Ps3emu.Rewriter.CodeMap
import Ps3emu.Spu.Channels
import Ps3emu.Spu.Instruction

/-
  The interpreter of SPU instructions, and the analysis that
  tells where a branch leads.

  Key definitions include:
    * `Spu.Registers`, `Spu.Thread`
    * `Spu.Env`
    * `Spu.SPUDasm`, `Spu.interpret`, `Spu.step`
    * `Spu.analyzeSpu`
-/

------------------------------------------------------------
-- Registers
------------------------------------------------------------

namespace Ps3emu

namespace Spu

variable {R : Type}

inductive Fault where
  | breakpoint
  | illegalInstruction
  | infiniteLoop
  | stopSignal (type : BitVec 14)
  | assertion
  | other
deriving DecidableEq

/- `rest` is what the handlers use besides: the storage. -/
structure Registers (R : Type) where
  r : BitVec 7 → BitVec 128
  srr0 : BitVec 32
  rest : R

structure Thread (R : Type) where
  nip : BitVec 32
  regs : Registers R

/- `R128::w<0>`, the preferred word. -/
def w0 (value : BitVec 128) : BitVec 32 :=
  value.extractLsb' 96 32

/- `R128::hw_pref`, the preferred halfword. -/
def hwPref (value : BitVec 128) : BitVec 16 :=
  value.extractLsb' 96 16

/- `_mm_set_epi32(word, 0, 0, 0)`. -/
def inW0 (word : BitVec 32) : BitVec 128 :=
  word.setWidth 128 <<< 96

def Registers.set
    (r : Registers R)
    (i : BitVec 7)
    (value : BitVec 128) : Registers R :=
  { r with r := fun j => if j = i then value else r.r j }

namespace Thread

/- Asserts that the address is in the local storage. -/
def setNip
    (t : Thread R)
    (nip : BitVec 32) : Except Fault (Thread R) :=
  if nip < lslr then .ok { t with nip } else .error .assertion

def link
    (t : Thread R)
    (rt : BitVec 7)
    (cia : BitVec 64) : Thread R :=
  { t with
    regs :=
      t.regs.set rt
        (inW0
          (((cia + 4#64) &&& lslr.setWidth 64).setWidth 32)) }

end Thread

------------------------------------------------------------
-- Branches and Interpreter
------------------------------------------------------------

/- `signed_lshift32(i16, 2)`. -/
def offset (x : BitVec 32) : BitVec 32 :=
  (i16 x).signExtend 32 <<< 2

/- `(cia + offset) & LSLR`, in 64 bits. -/
def relative
    (x : BitVec 32)
    (cia : BitVec 64) : BitVec 32 :=
  ((cia + (offset x).signExtend 64) &&&
    lslr.setWidth 64).setWidth 32

def absolute (x : BitVec 32) : BitVec 32 := offset x &&& lslr

def br_cia_lsa
    (x : BitVec 32)
    (cia : BitVec 32) : BitVec 32 :=
  (offset x + cia) &&& lslr &&& 0xfffffffc#32

/- The address in the preferred word of a register. -/
def address
    (r : Registers R)
    (i : BitVec 7) : BitVec 32 :=
  w0 (r.r i) &&& lslr &&& 0xfffffffc#32

def branchIf
    (taken : Bool)
    (nip : BitVec 32)
    (t : Thread R) : Except Fault (Thread R) :=
  if taken then t.setNip nip else .ok t

/- The test of a conditional branch, in a word or halfword. -/
def isZero (r : Registers R) (i : BitVec 7) : Bool :=
  w0 (r.r i) == 0

def isZeroHw (r : Registers R) (i : BitVec 7) : Bool :=
  hwPref (r.r i) == 0

def emulateDirect
    (j : DirectBranch)
    (x : BitVec 32)
    (cia : BitVec 64)
    (t : Thread R) : Except Fault (Thread R) :=
  let lsa := br_cia_lsa x (cia.setWidth 32)
  match j with
  | .br =>
      if offset x = 0 then .error .infiniteLoop
      else t.setNip (relative x cia)
  | .bra => t.setNip (absolute x)
  | .brsl => (t.link (rt x) cia).setNip (relative x cia)
  | .brasl => (t.link (rt x) cia).setNip (absolute x)
  | .brnz => branchIf (!isZero t.regs (rt x)) lsa t
  | .brz => branchIf (isZero t.regs (rt x)) lsa t
  | .brhnz => branchIf (!isZeroHw t.regs (rt x)) lsa t
  | .brhz => branchIf (isZeroHw t.regs (rt x)) lsa t

/- `bisl` links before it reads the address. -/
def emulateIndirect
    (j : IndirectBranch)
    (x : BitVec 32)
    (cia : BitVec 64)
    (t : Thread R) : Except Fault (Thread R) :=
  let lsa := address t.regs (ra x)
  match j with
  | .bi => t.setNip lsa
  | .iret =>
      (t.setNip t.regs.srr0).bind (fun _ => .error .assertion)
  | .bisl =>
      let t := t.link (rt x) cia
      t.setNip (address t.regs (ra x))
  | .biz => branchIf (isZero t.regs (rt x)) lsa t
  | .binz => branchIf (!isZero t.regs (rt x)) lsa t
  | .bihz => branchIf (isZeroHw t.regs (rt x)) lsa t
  | .bihnz => branchIf (!isZeroHw t.regs (rt x)) lsa t

/- The condition on which an instruction halts. -/
def halts
    (j : HaltInstr)
    (x : BitVec 32)
    (r : Registers R) : Bool :=
  let a := w0 (r.r (ra x))
  let b := w0 (r.r (rb x))
  let i := (i10 x).signExtend 32
  match j with
  | .heq => a == b
  | .heqi => a == i
  | .hgt => b.slt a
  | .hgti => i.slt a
  | .hlgt => b.ult a
  | .hlgti => i.ult a

def emulateHalt
    (j : HaltInstr)
    (x : BitVec 32)
    (t : Thread R) : Except Fault (Thread R) :=
  if halts j x t.regs then .error .breakpoint else .ok t

def emulateSystem
    (j : SystemInstr)
    (x : BitVec 32) : Except Fault (Thread R) :=
  match j with
  | .stop => .error (.stopSignal (stopAndSignalType x))
  | .stopd => .error .breakpoint
  | .bbcall => .error .assertion

/-
  What is not modelled: the instructions on registers and
  the local storage, and the reads of channels, which have
  no access to the next instruction address; and the writes
  of channels, which do.  A write of `MFC_Cmd` may store to
  the memory-mapped register `SPU_NPC`.
-/
structure Env (R : Type) where
  memory :
    MemoryInstr → BitVec 32 → BitVec 64 → Registers R →
      Except Fault (Registers R)
  compute :
    ComputeInstr → BitVec 32 → Registers R →
      Except Fault (Registers R)
  read :
    BitVec 7 → Registers R →
      Except Fault (BitVec 32 × Registers R)
  readCount :
    BitVec 7 → Registers R →
      Except Fault (BitVec 32 × Registers R)
  write :
    BitVec 7 → BitVec 32 → Thread R → Except Fault (Thread R)

/- Run an instruction that only has to do with registers. -/
def onRegisters
    (f : Registers R → Except Fault (Registers R))
    (t : Thread R) : Except Fault (Thread R) :=
  (f t.regs).map (fun regs => { t with regs })

/- The value that is read is put into the target register. -/
def readInto
    (read :
      BitVec 7 → Registers R →
        Except Fault (BitVec 32 × Registers R))
    (x : BitVec 32)
    (r : Registers R) : Except Fault (Registers R) :=
  (read (ca x) r).map (fun p => p.2.set (rt x) (inW0 p.1))

def emulateChannel
    (env : Env R)
    (j : ChannelInstr)
    (x : BitVec 32)
    (t : Thread R) : Except Fault (Thread R) :=
  match j with
  | .rdch => onRegisters (readInto env.read x) t
  | .rchcnt => onRegisters (readInto env.readCount x) t
  | .wrch => env.write (ca x) (w0 (t.regs.r (rt x))) t

def emulateInstr
    (env : Env R)
    (i : Instr)
    (x : BitVec 32)
    (cia : BitVec 64)
    (t : Thread R) : Except Fault (Thread R) :=
  match i with
  | .direct j => emulateDirect j x cia t
  | .indirect j => emulateIndirect j x cia t
  | .halt j => emulateHalt j x t
  | .system j => emulateSystem j x
  | .channel j => emulateChannel env j x t
  | .hint _ => .ok t
  | .memory j => onRegisters (env.memory j x cia) t
  | .compute j => onRegisters (env.compute j x) t

/- `SPUDasm<DasmMode::Emulate>`. -/
def SPUDasm
    (env : Env R)
    (x : BitVec 32)
    (cia : BitVec 32)
    (t : Thread R) : Except Fault (Thread R) :=
  match decode x with
  | some i => emulateInstr env i x (cia.setWidth 64) t
  | none => .error .illegalInstruction

/- The word is interpreted after the address was advanced. -/
def interpret
    (env : Env R)
    (x : BitVec 32)
    (cia : BitVec 32)
    (t : Thread R) : Except Fault (Thread R) :=
  SPUDasm env x cia { t with nip := cia + 4#32 }

/- One round of the loop, in which `setNip` advances it. -/
def step
    (env : Env R)
    (x : BitVec 32)
    (cia : BitVec 32)
    (t : Thread R) : Except Fault (Thread R) :=
  (t.setNip (cia + 4#32)).bind (SPUDasm env x cia)

------------------------------------------------------------
-- Analysis
------------------------------------------------------------

inductive OperandType where
  | none | imm | ppu_r | ppu_v | spu_r
deriving DecidableEq

structure OperandInfo where
  type : OperandType
  num : BitVec 32
  imm : BitVec 32
deriving DecidableEq

structure InstructionInfo extends Rewriter.InstructionInfo where
  extInfo : Bool
  inputs : List OperandInfo
  outputs : List OperandInfo
deriving DecidableEq

def SYS_SPU_THREAD_STOP_GROUP_EXIT : BitVec 14 := 0x0101
def SYS_SPU_THREAD_STOP_THREAD_EXIT : BitVec 14 := 0x0102

def spuR (i : BitVec 7) : OperandInfo :=
  ⟨.spu_r, i.setWidth 32, 0⟩

def immediate (value : BitVec 32) : OperandInfo :=
  ⟨.imm, 0, value⟩

def abs_lsa (x : BitVec 32) : BitVec 32 :=
  offset x &&& lslr &&& 0xfffffff0#32

def cia_lsa (x cia : BitVec 32) : BitVec 32 :=
  (offset x + cia) &&& lslr &&& 0xfffffff0#32

def analyze11
    (x : BitVec 32)
    (info : InstructionInfo) : InstructionInfo :=
  let o := op11 x
  if o = 0b00110101000#11 then -- bi
    { info with
      extInfo := true
      inputs := [spuR (ra x)]
      flow := true }
  else if o = 0b00110101010#11 then -- iret
    { info with flow := true }
  else if o = 0b00110101001#11 then -- bisl
    { info with flow := true, passthrough := true }
  else if o = 0b00100101000#11 ∨ -- biz
      o = 0b00100101001#11 ∨ -- binz
      o = 0b00100101010#11 ∨ -- bihz
      o = 0b00100101011#11 then -- bihnz
    { info with passthrough := true, flow := true }
  else if o = 0b00000000000#11 then -- stop
    let type := stopAndSignalType x
    { info with
      extInfo := true
      inputs := [immediate (type.setWidth 32)]
      flow :=
        type == SYS_SPU_THREAD_STOP_GROUP_EXIT ||
          type == SYS_SPU_THREAD_STOP_THREAD_EXIT }
  else if o = 0b00101000000#11 then -- stopd
    { info with flow := true }
  else info

def analyze9
    (x cia : BitVec 32)
    (info : InstructionInfo) : InstructionInfo :=
  let o := op9 x
  if o = 0b001100100#9 ∨ o = 0b001100110#9 then -- br, brsl
    { info with
      target := some ((cia + offset x) &&& lslr)
      flow := true
      passthrough := o == 0b001100110#9 }
  else if o = 0b001100000#9 ∨
      o = 0b001100010#9 then -- bra, brasl
    { info with
      target := some (offset x &&& lslr)
      flow := true
      passthrough := o == 0b001100010#9 }
  else if o = 0b001000010#9 ∨ -- brnz
      o = 0b001000000#9 ∨ -- brz
      o = 0b001000110#9 ∨ -- brhnz
      o = 0b001000100#9 then -- brhz
    { info with
      target := some (br_cia_lsa x cia)
      passthrough := true
      flow := true }
  else if o = 0b001100001#9 ∨ o = 0b001000001#9 then -- lqa, stqa
    { info with
      extInfo := true
      inputs := [immediate (abs_lsa x)]
      outputs := [spuR (rt x)] }
  else if o = 0b001100111#9 ∨ o = 0b001000111#9 then -- lqr, stqr
    { info with
      extInfo := true
      inputs := [immediate (cia_lsa x cia)]
      outputs := [spuR (rt x)] }
  else info

def analyze7
    (x : BitVec 32)
    (info : InstructionInfo) : InstructionInfo :=
  if op x 7 = 0b0100001 then -- ila
    { info with
      extInfo := true
      inputs := [immediate ((i18 x).setWidth 32)]
      outputs := [spuR (rt x)] }
  else info

def analyze4
    (x : BitVec 32)
    (info : InstructionInfo) : InstructionInfo :=
  if op x 4 = 0b1000 then -- selb
    { info with
      extInfo := true
      inputs := [spuR (ra x), spuR (rb x), spuR (rc x)]
      outputs := [spuR (rtAbc x)] }
  else info

def noInfo : InstructionInfo where
  flow := false
  passthrough := false
  target := none
  extInfo := false
  inputs := []
  outputs := []

/- The switches follow each other. -/
def analyzeSpu (x cia : BitVec 32) : InstructionInfo :=
  analyze4 x (analyze7 x (analyze9 x cia (analyze11 x noInfo)))

end Spu

end Ps3emu
