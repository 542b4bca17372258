import Ps3emu.Ppu.Integer
import Ps3emu.Rewriter.CodeMap

/-
  The interpreter of PPU instructions, and the functions that
  tell where a branch leads.

  Key definitions include:
    * `Env`
    * `emulate`, `step`
    * `isTaken`, `getTargetAddress`
    * `analyze`
-/

------------------------------------------------------------
-- Condition Register and System Registers
------------------------------------------------------------

namespace Ps3emu

namespace Ppu

variable {R : Type}

/- What the instructions on two condition bits share. -/
def emulateCrLogical
    (op : Bool → Bool → Bool)
    (bt ba bb : BitVec 5)
    (r : Registers R) : Registers R :=
  { r with
    cr := bitSet r.cr bt.toNat
      (op (bitTest r.cr 32 ba.toNat)
        (bitTest r.cr 32 bb.toNat)) }

def emulateCrand (bt ba bb : BitVec 5) :
    Registers R → Registers R :=
  emulateCrLogical (fun a b => a && b) bt ba bb

def emulateCror (bt ba bb : BitVec 5) :
    Registers R → Registers R :=
  emulateCrLogical (fun a b => a || b) bt ba bb

def emulateCrxor (bt ba bb : BitVec 5) :
    Registers R → Registers R :=
  emulateCrLogical (fun a b => xor a b) bt ba bb

def emulateCrnand (bt ba bb : BitVec 5) :
    Registers R → Registers R :=
  emulateCrLogical (fun a b => !(a && b)) bt ba bb

/- Only the first operand is negated. -/
def emulateCrnor (bt ba bb : BitVec 5) :
    Registers R → Registers R :=
  emulateCrLogical (fun a b => !a || b) bt ba bb

def emulateCreqv (bt ba bb : BitVec 5) :
    Registers R → Registers R :=
  emulateCrLogical (fun a b => a == b) bt ba bb

def emulateCrandc (bt ba bb : BitVec 5) :
    Registers R → Registers R :=
  emulateCrLogical (fun a b => a && !b) bt ba bb

def emulateCrorc (bt ba bb : BitVec 5) :
    Registers R → Registers R :=
  emulateCrLogical (fun a b => a || !b) bt ba bb

def emulateMcrf
    (bf bfa : CrIndex)
    (r : Registers R) : Registers R :=
  r.setCRF bf (r.getCRF bfa)

def emulateMfcr
    (rt : Gpr)
    (r : Registers R) : Registers R :=
  r.setGPR rt (r.cr.setWidth 64)

/- The first field that is selected. -/
def emulateMtocrf
    (fxm : BitVec 8)
    (rs : Gpr)
    (r : Registers R) : Registers R :=
  let n :=
    if fxm.getLsbD 7 then 0
    else if fxm.getLsbD 6 then 1
    else if fxm.getLsbD 5 then 2
    else if fxm.getLsbD 4 then 3
    else if fxm.getLsbD 3 then 4
    else if fxm.getLsbD 2 then 5
    else if fxm.getLsbD 1 then 6
    else 7
  let m := mask 32 (4 * n) (4 * n + 3)
  let cr := r.cr.setWidth 64 &&& ~~~m
  { r with cr := (cr ||| (r.gpr rs &&& m)).setWidth 32 }

def sprXer : BitVec 10 := 1#10 <<< 5
def sprLr : BitVec 10 := 8#10 <<< 5
def sprCtr : BitVec 10 := 9#10 <<< 5
def sprVrsave : BitVec 10 := 8#10

def emulateMtspr
    (rs : Gpr)
    (spr : BitVec 10)
    (r : Registers R) : Except Fault (Registers R) :=
  let value := r.gpr rs
  if spr = sprXer then .ok { r with xer := value }
  else if spr = sprLr then .ok { r with lr := value }
  else if spr = sprCtr then .ok { r with ctr := value }
  else if spr = sprVrsave then
    .ok { r with vrsave := value.setWidth 32 }
  else .error .illegalInstruction

/- The value passes through a variable of 32 bits. -/
def emulateMfspr
    (spr : BitVec 10)
    (rs : Gpr)
    (r : Registers R) : Except Fault (Registers R) :=
  let put := fun (v : BitVec 32) =>
    Except.ok (r.setGPR rs (v.setWidth 64))
  if spr = sprXer then put (r.xer.setWidth 32)
  else if spr = sprLr then put (r.lr.setWidth 32)
  else if spr = sprCtr then put (r.ctr.setWidth 32)
  else if spr = sprVrsave then put r.vrsave
  else .error .illegalInstruction

def emulateRegister
    (i : RegisterInstr)
    (x : BitVec 32)
    (r : Registers R) : Except Fault (Registers R) :=
  match i with
  | .mtspr => emulateMtspr (rs x) (spr x) r
  | .mfspr => emulateMfspr (spr x) (rs x) r
  | .mfcr => .ok (emulateMfcr (rt x) r)
  | .mtocrf => .ok (emulateMtocrf (fxm x) (rs x) r)
  | .crand => .ok (emulateCrand (bt x) (ba x) (bb x) r)
  | .cror => .ok (emulateCror (bt x) (ba x) (bb x) r)
  | .crxor => .ok (emulateCrxor (bt x) (ba x) (bb x) r)
  | .crnand => .ok (emulateCrnand (bt x) (ba x) (bb x) r)
  | .crnor => .ok (emulateCrnor (bt x) (ba x) (bb x) r)
  | .creqv => .ok (emulateCreqv (bt x) (ba x) (bb x) r)
  | .crandc => .ok (emulateCrandc (bt x) (ba x) (bb x) r)
  | .crorc => .ok (emulateCrorc (bt x) (ba x) (bb x) r)
  | .mcrf => .ok (emulateMcrf (bf x) (bfa x) r)

------------------------------------------------------------
-- Branches
------------------------------------------------------------

/- The target of an unconditional branch. -/
def getNIAI
    (x : BitVec 32)
    (cia : BitVec 64) : BitVec 64 :=
  let ext := ((li x).signExtend 32 <<< 2).signExtend 64
  if aa x then ext else cia + ext

/- The target of a conditional branch. -/
def getNIAB
    (x : BitVec 32)
    (cia : BitVec 64) : BitVec 64 :=
  let ext := ((bd x).signExtend 32 <<< 2).signExtend 64
  if aa x then ext else ext + cia

/- The test of a branch, on the registers as they are. -/
def isTakenBo
    (bo0 bo1 bo2 bo3 : Bool)
    (r : Registers R)
    (bi : BitVec 5) : Bool :=
  let ctrOk := bo2 || xor (r.ctr != 0#64) bo3
  let condOk := bo0 || bitTest r.cr 32 bi.toNat == bo1
  ctrOk && condOk

namespace PPUThread

def setNIP
    (t : PPUThread R)
    (value : BitVec 64) : PPUThread R :=
  { t with nip := value.setWidth 32 }

def setLR
    (t : PPUThread R)
    (value : BitVec 64) : PPUThread R :=
  { t with regs := { t.regs with lr := value } }

def setCTR
    (t : PPUThread R)
    (value : BitVec 64) : PPUThread R :=
  { t with regs := { t.regs with ctr := value } }

end PPUThread

/- `if (!bo2) TH->setCTR(TH->getCTR() - 1)`. -/
def countDown
    (bo2 : Bool)
    (t : PPUThread R) : PPUThread R :=
  if bo2 then t else t.setCTR (t.regs.ctr - 1#64)

/- `if (lk) TH->setLR(cia + 4)`. -/
def link
    (lk : Bool)
    (cia : BitVec 64)
    (t : PPUThread R) : PPUThread R :=
  if lk then t.setLR (cia + 4#64) else t

def emulateB
    (nia : BitVec 64)
    (lk : Bool)
    (cia : BitVec 64)
    (t : PPUThread R) : PPUThread R :=
  (link lk cia t).setNIP nia

def emulateBc
    (bo0 bo1 bo2 bo3 : Bool)
    (bi : BitVec 5)
    (lk : Bool)
    (nia cia : BitVec 64)
    (t : PPUThread R) : PPUThread R :=
  let t := link lk cia (countDown bo2 t)
  if isTakenBo bo0 bo1 bo2 bo3 t.regs bi then t.setNIP nia
  else t

def emulateBclr
    (bo0 bo1 bo2 bo3 : Bool)
    (bi : BitVec 5)
    (lk : Bool)
    (cia : BitVec 64)
    (t : PPUThread R) : PPUThread R :=
  let t := countDown bo2 t
  let lr := t.regs.lr
  let t := link lk cia t
  if isTakenBo bo0 bo1 bo2 bo3 t.regs bi then
    t.setNIP (lr &&& ~~~3#64)
  else t

def emulateBcctr
    (bo0 bo1 : Bool)
    (bi : BitVec 5)
    (lk : Bool)
    (cia : BitVec 64)
    (t : PPUThread R) : PPUThread R :=
  let condOk :=
    bo0 || bitTest t.regs.cr 32 bi.toNat == bo1
  let t := link lk cia t
  if condOk then t.setNIP (t.regs.ctr &&& ~~~3#64) else t

def emulateBranch
    (i : BranchInstr)
    (x : BitVec 32)
    (cia : BitVec 64)
    (t : PPUThread R) : PPUThread R :=
  match i with
  | .b => emulateB (getNIAI x cia) (lk x) cia t
  | .bc =>
      emulateBc (bo0 x) (bo1 x) (bo2 x) (bo3 x) (bi x)
        (lk x) (getNIAB x cia) cia t
  | .bclr =>
      emulateBclr (bo0 x) (bo1 x) (bo2 x) (bo3 x) (bi x)
        (lk x) cia t
  | .bcctr =>
      emulateBcctr (bo0 x) (bo1 x) (bi x) (lk x) cia t

------------------------------------------------------------
-- Interpreter and Analysis
------------------------------------------------------------

/-
  What is not modelled: the instructions of the other units,
  which have no access to the next instruction pointer; the
  system calls, none of which sets it; and the calls into the
  emulator, which do set it.
-/
structure Env (R : Type) where
  memory :
    MemoryInstr → BitVec 32 → Registers R →
      Except Fault (Registers R)
  floating :
    FloatingInstr → BitVec 32 → Registers R →
      Except Fault (Registers R)
  vector :
    VectorInstr → BitVec 32 → Registers R →
      Except Fault (Registers R)
  scall : Registers R → Except Fault (Registers R)
  ncall :
    BitVec 26 → PPUThread R → Except Fault (PPUThread R)

/- A trap is either a breakpoint or illegal. -/
def emulateTrap
    (cond ra rb : BitVec 5) : Except Fault (PPUThread R) :=
  if cond = 31#5 ∧ ra = rb then .error .breakpoint
  else .error .illegalInstruction

/- Runs an instruction that only has to do with registers. -/
def onRegisters
    (f : Registers R → Except Fault (Registers R))
    (t : PPUThread R) : Except Fault (PPUThread R) :=
  (f t.regs).map (fun r => { t with regs := r })

def emulateSystem
    (env : Env R)
    (i : SystemInstr)
    (x : BitVec 32)
    (t : PPUThread R) : Except Fault (PPUThread R) :=
  match i with
  | .ncall => env.ncall (idx x) t
  | .bbcall => .error .assertion
  | .sc => onRegisters env.scall t
  | .td => emulateTrap (trapTo x) (ra x) (rb x)
  | .tw => emulateTrap (trapTo x) (ra x) (rb x)

def emulateInstr
    (env : Env R)
    (i : Instr)
    (x : BitVec 32)
    (cia : BitVec 64)
    (t : PPUThread R) : Except Fault (PPUThread R) :=
  match i with
  | .integer i => onRegisters (emulateInteger i x) t
  | .register i => onRegisters (emulateRegister i x) t
  | .branch i => .ok (emulateBranch i x cia t)
  | .system i => emulateSystem env i x t
  | .hint _ => .ok t
  | .memory i => onRegisters (env.memory i x) t
  | .floating i => onRegisters (env.floating i x) t
  | .vector i => onRegisters (env.vector i x) t

/- `ppu_dasm<DasmMode::Emulate>`. -/
def emulate
    (env : Env R)
    (x : BitVec 32)
    (cia : BitVec 64)
    (t : PPUThread R) : Except Fault (PPUThread R) :=
  match decode x with
  | some i => emulateInstr env i x cia t
  | none => .error .illegalInstruction

/- One round of the loop of a thread. -/
def step
    (env : Env R)
    (x : BitVec 32)
    (cia : BitVec 32)
    (t : PPUThread R) : Except Fault (PPUThread R) :=
  emulate env x (cia.setWidth 64)
    { t with nip := cia + 4#32 }

/- An environment whose calls leave everything alone. -/
def idle (R : Type) : Env R where
  memory _ _ r := .ok r
  floating _ _ r := .ok r
  vector _ _ r := .ok r
  scall r := .ok r
  ncall _ t := .ok t

/- A thread at address 0, with its registers cleared. -/
def cleared : PPUThread Unit where
  nip := 0
  regs :=
    { lr := 0
      ctr := 0
      gpr := fun _ => 0
      cr := 0
      xer := 0
      vrsave := 0
      rest := () }

/- Throws for a word that is not `b` or `bc`. -/
def isTaken
    (x : BitVec 32)
    (_ : BitVec 32)
    (t : PPUThread R) : Except Fault Bool :=
  if opcd x = 18#6 then .ok true
  else if opcd x = 16#6 then
    .ok (isTakenBo (bo0 x) (bo1 x) (bo2 x) (bo3 x)
      t.regs (bi x))
  else .error .other

def getTargetAddress
    (x : BitVec 32)
    (cia : BitVec 32) : Except Fault (BitVec 64) :=
  if opcd x = 18#6 then .ok (getNIAI x (cia.setWidth 64))
  else if opcd x = 16#6 then
    .ok (getNIAB x (cia.setWidth 64))
  else .error .other

open Rewriter (InstructionInfo)

def noFlow : InstructionInfo :=
  { flow := false, passthrough := false, target := none }

/- The tests follow each other; at most one of them holds. -/
def analyze
    (x : BitVec 32)
    (cia : BitVec 32) : InstructionInfo :=
  let info := noFlow
  let info :=
    if opcd x = 1#6 then { info with flow := true } else info
  let info :=
    if opcd x = 18#6 then
      { flow := true
        target := some
          ((getNIAI x (cia.setWidth 64)).setWidth 32)
        passthrough := lk x }
    else info
  let info :=
    if opcd x = 16#6 then
      { flow := true
        passthrough := !(bo2 x && bo0 x) || lk x
        target := some
          ((getNIAB x (cia.setWidth 64)).setWidth 32) }
    else info
  if opcd x = 19#6 then
    let info :=
      if xoX x = 16#10 then
        { info with
          flow := true
          passthrough := !(bo2 x && bo0 x) || lk x }
      else info
    if xoX x = 528#10 then
      { info with
        flow := true
        passthrough := !bo0 x || lk x }
    else info
  else info

end Ppu

end Ps3emu
