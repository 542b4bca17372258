import Mathlib.Data.Fin.VecNotation
import Ps3emu.Shaders.FragmentInstr

/-
  Instructions of vertex programs.  An instruction word has a
  scalar and a vector slot, and both may be active.

  Key definitions include:
    * `VertexWords`, `VertexDecoded`
    * `vertexOpcodes0`, `vertexOpcodes1`
    * `VertexInstr`, `vertexDasmSlot`
    * `vertexDasmInstr`
-/

------------------------------------------------------------
-- Enumerations
------------------------------------------------------------

namespace Ps3emu

namespace Shaders

inductive VertexOp where
  | MUL | ADD | MAD | DP3 | DPH | DP4 | DST | MIN | MAX | SLT
  | SGE | ARL | FRC | FLR | SEQ | SFL | SGT | SLE | SNE | STR
  | SSG | ARR | ARA | TXL | NOP | MOV | POP | RCP | RCC | RSQ
  | EXP | LOG | LIT | BRA | BRI | CAL | CLI | RET | LG2 | EX2
  | SIN | COS | BRB | CLB | PSH | MVA
  deriving DecidableEq, Repr

/- `dest_mask_t::fromInt16`. -/
def DestMask.fromInt16 (mask : BitVec 4) : DestMask where
  x := mask.getLsbD 3
  y := mask.getLsbD 2
  z := mask.getLsbD 1
  w := mask.getLsbD 0

------------------------------------------------------------
-- Instruction Words and Opcodes
------------------------------------------------------------

open Ppu (field)

/- The literals of the indices of sources and arguments. -/
instance neZeroThree : NeZero 3 := ⟨by decide⟩

instance neZeroFour : NeZero 4 := ⟨by decide⟩

/- `vertex_raw_instr_t`. -/
structure VertexWords where
  b0 : BitVec 32
  b1 : BitVec 32
  b2 : BitVec 32
  b3 : BitVec 32

/- The words of an instruction are big-endian. -/
def VertexWords.ofSlot (instr : Slot) : VertexWords :=
  let byte : Fin 4 → Fin 4 → Byte := fun n k =>
    instr ⟨4 * n + k, by omega⟩
  let word : Fin 4 → BitVec 32 := fun n =>
    byte n 0 ++ byte n 1 ++ byte n 2 ++ byte n 3
  ⟨word 0, word 1, word 2, word 3⟩

structure VertexDecodedArg where
  isNeg : Bool
  isAbs : Bool
  swizzle : Swizzle
  regNum : Nat
  regType : Nat
  deriving DecidableEq, Repr

/- `vertex_decoded_instr_t`. -/
structure VertexDecoded where
  isLast : Bool
  isComplexOffset : Bool
  outputRegNum : Nat
  destRegNum : Nat
  addrDataRegNum : Nat
  mask1 : BitVec 4
  mask2 : BitVec 4
  args : Fin 3 → VertexDecodedArg
  vDispl : Nat
  inputVNum : Nat
  opcode1 : Nat
  opcode2 : Nat
  dispComponent : Nat
  condSwizzle : Swizzle
  condRelation : Cond
  flag2 : Bool
  hasCond : Bool
  isAddrReg : Bool
  isCondC1 : Bool
  isSat : Bool
  vIndexHasDispl : Bool
  outputHasComplexOffset : Bool
  setsC : Bool
  maskSelector : Bool
  label : Nat

def VertexWords.arg0 (i : VertexWords) : VertexDecodedArg where
  isNeg := field i.b1 24 25 = 1
  isAbs := field i.b0 10 11 = 1
  swizzle :=
    { x := .ofField (field i.b1 25 27)
      y := .ofField (field i.b1 27 29)
      z := .ofField (field i.b1 29 31)
      w := .ofField (field i.b1 31 32 ++ field i.b2 0 1) }
  regNum := (field i.b2 1 7).toNat
  regType := (field i.b2 7 9).toNat

def VertexWords.arg1 (i : VertexWords) : VertexDecodedArg where
  isNeg := field i.b2 9 10 = 1
  isAbs := field i.b0 9 10 = 1
  swizzle :=
    { x := .ofField (field i.b2 10 12)
      y := .ofField (field i.b2 12 14)
      z := .ofField (field i.b2 14 16)
      w := .ofField (field i.b2 16 18) }
  regNum := (field i.b2 18 24).toNat
  regType := (field i.b2 24 26).toNat

def VertexWords.arg2 (i : VertexWords) : VertexDecodedArg where
  isNeg := field i.b2 26 27 = 1
  isAbs := field i.b0 8 9 = 1
  swizzle :=
    { x := .ofField (field i.b2 27 29)
      y := .ofField (field i.b2 29 31)
      z := .ofField (field i.b2 31 32 ++ field i.b3 0 1)
      w := .ofField (field i.b3 1 3) }
  regNum := (field i.b3 3 9).toNat
  regType := (field i.b3 9 11).toNat

/- The fields that are decoded for both slots. -/
def VertexWords.decode (i : VertexWords) : VertexDecoded where
  label :=
    (field i.b0 8 9 ++ field i.b2 26 27 ++ field i.b2 27 29 ++
      field i.b2 29 31 ++ field i.b2 31 32 ++
        field i.b3 0 1 ++ field i.b3 1 3).toNat
  hasCond := field i.b0 18 19 = 1
  isLast := field i.b3 31 32 = 1
  isComplexOffset := field i.b3 30 31 = 1
  outputRegNum := (field i.b3 25 30).toNat
  destRegNum := (field i.b3 19 25).toNat
  addrDataRegNum := (field i.b0 11 17).toNat
  mask1 := field i.b3 15 19
  mask2 := field i.b3 11 15
  vDispl := (field i.b1 20 24).toNat
  inputVNum := (field i.b1 10 20).toNat
  opcode1 := (field i.b1 5 10).toNat
  opcode2 := (field i.b1 0 5).toNat
  dispComponent := (field i.b0 30 32).toNat
  condSwizzle :=
    { x := .ofField (field i.b0 22 24)
      y := .ofField (field i.b0 24 26)
      z := .ofField (field i.b0 26 28)
      w := .ofField (field i.b0 28 30) }
  condRelation := .ofField (field i.b0 19 22)
  flag2 := field i.b0 17 18 = 1
  isAddrReg := field i.b0 7 8 = 1
  isCondC1 := field i.b0 6 7 = 1
  isSat := field i.b0 5 6 = 1
  vIndexHasDispl := field i.b0 4 5 = 1
  outputHasComplexOffset := field i.b0 3 4 = 1
  setsC := field i.b0 2 3 = 1
  maskSelector := field i.b0 1 2 = 1
  args := ![i.arg0, i.arg1, i.arg2]

/-
  `vertex_opcode_t`: of the type of the output only whether
  there is one.
-/
structure VertexOpcode where
  opCount : Nat
  control : Bool
  addrReg : Bool
  tex : Bool
  instr : VertexOp
  hasOutput : Bool
  deriving DecidableEq, Repr

/- An opcode of so many arguments and no other property. -/
def plainOpcode (opCount : Nat) (instr : VertexOp) :
    VertexOpcode :=
  ⟨opCount, false, false, false, instr, true⟩

/- The opcodes of the vector slot. -/
def vertexOpcodes1 : List VertexOpcode :=
  [⟨0, false, false, false, .NOP, false⟩,
    plainOpcode 1 .MOV, plainOpcode 2 .MUL,
    plainOpcode 2 .ADD, plainOpcode 3 .MAD,
    plainOpcode 2 .DP3, plainOpcode 2 .DPH,
    plainOpcode 2 .DP4, plainOpcode 2 .DST,
    plainOpcode 2 .MIN, plainOpcode 2 .MAX,
    plainOpcode 2 .SLT, plainOpcode 2 .SGE,
    ⟨1, false, true, false, .ARL, true⟩,
    plainOpcode 1 .FRC, plainOpcode 1 .FLR,
    plainOpcode 2 .SEQ, plainOpcode 0 .SFL,
    plainOpcode 2 .SGT, plainOpcode 2 .SLE,
    plainOpcode 2 .SNE, plainOpcode 0 .STR,
    plainOpcode 1 .SSG,
    ⟨1, false, true, false, .ARR, true⟩,
    ⟨1, false, true, false, .ARA, true⟩,
    ⟨2, false, false, true, .TXL, true⟩,
    ⟨1, false, false, false, .PSH, false⟩,
    ⟨0, false, false, false, .POP, false⟩]

/- The opcodes of the scalar slot. -/
def vertexOpcodes0 : List VertexOpcode :=
  [⟨0, false, false, false, .NOP, false⟩,
    plainOpcode 1 .MOV, plainOpcode 1 .RCP,
    ⟨1, false, false, false, .RCC, false⟩,
    plainOpcode 1 .RSQ, plainOpcode 1 .EXP,
    plainOpcode 1 .LOG, plainOpcode 1 .LIT,
    ⟨1, true, false, false, .BRA, false⟩,
    ⟨1, true, false, false, .BRI, false⟩,
    ⟨1, true, false, false, .CAL, false⟩,
    ⟨1, true, false, false, .CLI, true⟩,
    ⟨0, true, false, false, .RET, false⟩,
    plainOpcode 1 .LG2, plainOpcode 1 .EX2,
    plainOpcode 1 .SIN, plainOpcode 1 .COS,
    plainOpcode 1 .BRB, plainOpcode 1 .CLB,
    ⟨1, false, false, false, .PSH, false⟩,
    ⟨1, false, false, false, .POP, false⟩]

------------------------------------------------------------
-- Decoded Instructions
------------------------------------------------------------

/- `vertex_arg_ref_t`. -/
inductive VertexRef where
  | address (reg component displ : Nat)
  | num (n : Nat)
  deriving DecidableEq, Repr

/- `VertexVariantArg`. -/
inductive VertexArg where
  | output (ref : VertexRef)
  | input
      (ref : VertexRef)
      (isNeg isAbs : Bool)
      (swizzle : Swizzle)
  | const
      (ref : VertexRef)
      (isNeg isAbs : Bool)
      (swizzle : Swizzle)
  | temp
      (ref : VertexRef)
      (isNeg isAbs : Bool)
      (swizzle : Swizzle)
  | addressReg (a : Nat)
  | condReg (c : Nat)
  | label (l : Nat)
  | tex (num : Nat)
  deriving DecidableEq, Repr

structure VertexInstr where
  opCount : Nat
  isSat : Bool
  args : Fin 4 → VertexArg
  mask : DestMask
  operation : VertexOp
  isLast : Bool
  control : ControlMod
  condition : Condition
  isBranch : Bool

/- The opcode of the scalar or of the vector slot. -/
def VertexDecoded.opcode
    (instr : VertexDecoded)
    (slot : Bool) : Option VertexOpcode :=
  if slot then vertexOpcodes1[instr.opcode1]?
  else vertexOpcodes0[instr.opcode2]?

/- The sources of a slot, in the order of the operation. -/
def VertexDecoded.source
    (instr : VertexDecoded)
    (slot : Bool)
    (opcode : VertexOpcode) : Fin 3 → VertexDecodedArg :=
  if slot then
    if opcode.instr = .ADD then
      ![instr.args 0, instr.args 2, instr.args 2]
    else instr.args
  else ![instr.args 2, instr.args 1, instr.args 2]

/- A destination, and the mask if it comes with one. -/
abbrev VertexDest := VertexArg × Option DestMask

/- The output register, which one of the slots may write. -/
def outputDest
    (instr : VertexDecoded)
    (slot : Bool) : Option VertexDest :=
  if instr.outputRegNum ≠ 31 ∧ slot = instr.maskSelector then
    let ref :=
      if instr.outputHasComplexOffset then
        VertexRef.address instr.isAddrReg.toNat
          instr.dispComponent instr.outputRegNum
      else .num instr.outputRegNum
    some
      (.output ref,
        some
          (.fromInt16
            (if instr.maskSelector then instr.mask1
              else instr.mask2)))
  else none

def tempReg (num : Nat) : VertexArg :=
  .temp (.num num) false false Swizzle.xyzw

/- The other destination.  An address register has no mask. -/
def registerDest
    (instr : VertexDecoded)
    (slot : Bool)
    (opcode : VertexOpcode) : Option VertexDest :=
  let mask1 : DestMask :=
    .fromInt16 (if opcode.instr = .PSH then 15 else instr.mask1)
  if opcode.control = false ∧ slot = false ∧
      opcode.instr ≠ .PSH then
    if instr.addrDataRegNum ≠ 63 ∨
        instr.maskSelector = true ∨
          instr.outputRegNum = 31 then
      if instr.destRegNum = 63 then
        some (.condReg 0, some (.fromInt16 instr.mask2))
      else if opcode.addrReg then
        some (.addressReg instr.destRegNum, none)
      else
        some
          (tempReg instr.destRegNum,
            some (.fromInt16 instr.mask2))
    else none
  else if instr.addrDataRegNum ≠ 63 then
    if opcode.addrReg then
      some (.addressReg instr.addrDataRegNum, none)
    else some (tempReg instr.addrDataRegNum, some mask1)
  else if
      (instr.maskSelector = false ∨ instr.outputRegNum = 31) ∧
        opcode.control = false then
    some (.condReg 0, some mask1)
  else none

def destinations
    (instr : VertexDecoded)
    (slot : Bool)
    (opcode : VertexOpcode) : List VertexDest :=
  if opcode.hasOutput then
    (outputDest instr slot).toList ++
      (registerDest instr slot opcode).toList
  else []

/- The index of an input or a constant. -/
def displaced
    (instr : VertexDecoded)
    (hasDispl : Bool)
    (num : Nat) : VertexRef :=
  if hasDispl then
    .address instr.isAddrReg.toNat instr.dispComponent num
  else .num num

def sourceArg
    (instr : VertexDecoded)
    (slot : Bool)
    (opcode : VertexOpcode)
    (n : Fin 3) : VertexArg :=
  let arg := instr.source slot opcode n
  if opcode.control then .label instr.label
  else if opcode.instr = .ARA ∨ opcode.instr = .PSH then
    .addressReg instr.isAddrReg.toNat
  else if n = 1 ∧ opcode.tex = true then
    .tex (arg.regNum % 4)
  else if arg.regType = 2 then
    .input (displaced instr instr.vIndexHasDispl instr.vDispl)
      arg.isNeg arg.isAbs arg.swizzle
  else if arg.regType = 3 then
    .const
      (displaced instr instr.isComplexOffset instr.inputVNum)
      arg.isNeg arg.isAbs arg.swizzle
  else
    .temp (.num arg.regNum) arg.isNeg arg.isAbs arg.swizzle

/- The mask of the last destination that comes with one. -/
def lastMask (dests : List VertexDest) (old : DestMask) :
    DestMask :=
  dests.foldl (fun mask dest => dest.2.getD mask) old

/-
  `vertex_dasm_slot`, which leaves in `res` what it does not
  set.  There is no fifth argument to store.
-/
def vertexDasmSlot
    (instr : VertexDecoded)
    (slot : Bool)
    (res : VertexInstr) : Option VertexInstr :=
  (instr.opcode slot).bind (fun opcode =>
    let dests := destinations instr slot opcode
    let args :=
      dests.map Prod.fst ++
        ((List.finRange 3).take opcode.opCount).map
          (sourceArg instr slot opcode)
    if args.length ≤ 4 then
      some
        { opCount := args.length
          isSat := instr.isSat
          args := fun n => args.getD n (res.args n)
          mask := lastMask dests res.mask
          operation := opcode.instr
          isLast := instr.isLast
          control :=
            if instr.flag2 = true ∧ slot = instr.setsC then
              if instr.isCondC1 then .C1 else .C0
            else .None
          condition :=
            if instr.hasCond = true ∨ opcode.control = true then
              ⟨instr.condRelation, instr.isCondC1,
                instr.condSwizzle⟩
            else { res.condition with relation := .TR }
          isBranch := opcode.control }
    else none)

/-
  `vertex_dasm_instr`: the active slots, a branch last.  The
  results are stored over those of the instruction before.
-/
def vertexDasmInstr
    (instr : Slot)
    (res : VertexInstr × VertexInstr) :
    Option (List VertexInstr) :=
  let decoded := (VertexWords.ofSlot instr).decode
  if decoded.opcode2 = 0 then
    (vertexDasmSlot decoded true res.1).map (fun i => [i])
  else if decoded.opcode1 = 0 then
    (vertexDasmSlot decoded false res.1).map (fun i => [i])
  else
    (vertexDasmSlot decoded false res.1).bind (fun scalar =>
      (vertexDasmSlot decoded true res.2).map (fun vector =>
        if scalar.isBranch then [vector, scalar]
        else [scalar, vector]))

end Shaders

end Ps3emu
