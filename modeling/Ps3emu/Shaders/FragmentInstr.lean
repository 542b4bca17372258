import Mathlib.Data.Fin.VecNotation
import Mathlib.Data.Fintype.Pi
import Ps3emu.Library.Bytes
import Ps3emu.Ppu.BitField
import Ps3emu.Shaders.AST

/-
  Instructions of fragment programs.  An instruction is one
  slot of sixteen bytes, followed by a slot with a constant
  if one of its arguments is a constant.

  Key definitions include:
    * `Slot`, `readFragmentInstr`, `readFragmentImmVal`
    * `FragmentWords`, `fragmentOpcodes`
    * `fragmentScanInstr`
    * `FragmentInstr`, `fragmentDasmInstr`

  Key theorems include:
    * `fragmentScanInstr_of_dasm`
    * `exists_dasm_of_scan`
-/

------------------------------------------------------------
-- Slots and Enumerations
------------------------------------------------------------

namespace Ps3emu

namespace Shaders

abbrev Slot := Fin 16 → Byte

/- The slot of zeros. -/
def Slot.zero : Slot := fun _ => 0

/- `_mm_shuffle_epi8`: each byte comes from the named one. -/
def shuffle (val : Slot) (mask : Fin 16 → Fin 16) : Slot :=
  fun i => val (mask i)

/- The masks of the source are listed highest byte first. -/
def rsxLoad16 (ptr : Slot) (twoBytes : Bool) : Slot :=
  shuffle ptr
    (if twoBytes then
      ![2, 3, 0, 1, 6, 7, 4, 5, 10, 11, 8, 9, 14, 15, 12, 13]
    else
      ![1, 0, 3, 2, 5, 4, 7, 6, 9, 8, 11, 10, 13, 12, 15, 14])

def readFragmentImmVal (ptr : Slot) : Slot :=
  rsxLoad16 ptr false

def readFragmentInstr (ptr : Slot) : Slot :=
  rsxLoad16 ptr true

@[simp] theorem readFragmentImmVal_zero :
    readFragmentImmVal Slot.zero = Slot.zero := rfl

/- The `n`-th little-endian word of a slot. -/
def Slot.word (s : Slot) (n : Fin 4) : BitVec 32 :=
  s ⟨4 * n + 3, by omega⟩ ++ s ⟨4 * n + 2, by omega⟩ ++
    s ⟨4 * n + 1, by omega⟩ ++ s ⟨4 * n, by omega⟩

inductive ClampMod where
  | R | H | X | B
  deriving DecidableEq, Repr

inductive ControlMod where
  | None | C0 | C1
  deriving DecidableEq, Repr

inductive ScaleMod where
  | None | M2 | M4 | M8 | Illegal | D2 | D4 | D8
  deriving DecidableEq, Repr

inductive RegType where
  | R | H
  deriving DecidableEq, Repr

inductive Cond where
  | FL | LT | EQ | LE | GT | NE | GE | TR
  deriving DecidableEq, Repr

inductive InputAttr where
  | WPOS | COL0 | COL1 | FOGC
  | TEX0 | TEX1 | TEX2 | TEX3 | TEX4
  | TEX5 | TEX6 | TEX7 | TEX8 | TEX9
  | SSA | v15
  deriving DecidableEq, Repr

inductive OpType where
  | Temp | Attr | Const | Illegal
  deriving DecidableEq, Repr

inductive FragmentOp where
  | NOP | MOV | MUL | ADD | MAD | DP3 | DP4 | DST | MIN | MAX
  | SLT | SGE | SLE | SGT | SNE | SEQ | FRC | FLR | KIL | PK4
  | UP4 | DDX | DDY | TEX | TXP | TXD | RCP | RSQ | EX2 | LG2
  | LIT | LRP | STR | SFL | COS | SIN | PK2 | UP2 | POW | PKB
  | UPB | PK16 | UP16 | BEM | PKG | UPG | DP2A | TXL | TXB
  | TEXBEM | TXPBEM | BEMLUM | REFL | TIMESWTEX | DP2 | NRM
  | DIV | DIVSQ | LIF | FENCT | FENCB | BRK | CAL | IFE | LOOP
  | REP | RET
  deriving DecidableEq, Repr

def ClampMod.ofField (x : BitVec 2) : ClampMod :=
  match x.toNat with
  | 0 => .R
  | 1 => .H
  | 2 => .X
  | _ => .B

def ScaleMod.ofField (x : BitVec 3) : ScaleMod :=
  match x.toNat with
  | 0 => .None
  | 1 => .M2
  | 2 => .M4
  | 3 => .M8
  | 4 => .Illegal
  | 5 => .D2
  | 6 => .D4
  | _ => .D8

def RegType.ofField (x : BitVec 1) : RegType :=
  if x = 0 then .R else .H

def Cond.ofField (x : BitVec 3) : Cond :=
  match x.toNat with
  | 0 => .FL
  | 1 => .LT
  | 2 => .EQ
  | 3 => .LE
  | 4 => .GT
  | 5 => .NE
  | 6 => .GE
  | _ => .TR

def OpType.ofField (x : BitVec 2) : OpType :=
  match x.toNat with
  | 0 => .Temp
  | 1 => .Attr
  | 2 => .Const
  | _ => .Illegal

def InputAttr.ofField (x : BitVec 4) : InputAttr :=
  match x.toNat with
  | 0 => .WPOS
  | 1 => .COL0
  | 2 => .COL1
  | 3 => .FOGC
  | 4 => .TEX0
  | 5 => .TEX1
  | 6 => .TEX2
  | 7 => .TEX3
  | 8 => .TEX4
  | 9 => .TEX5
  | 10 => .TEX6
  | 11 => .TEX7
  | 12 => .TEX8
  | 13 => .TEX9
  | 14 => .SSA
  | _ => .v15

def Swizzle2bit.ofField (x : BitVec 2) : Swizzle2bit :=
  match x.toNat with
  | 0 => .X
  | 1 => .Y
  | 2 => .Z
  | _ => .W

/- The test of a condition register, and which one it is. -/
structure Condition where
  relation : Cond
  isC1 : Bool
  swizzle : Swizzle
  deriving DecidableEq, Repr

------------------------------------------------------------
-- Instruction Words
------------------------------------------------------------

open Ppu (field)

/- `fragment_instr_t`. -/
structure FragmentWords where
  b0 : BitVec 32
  b1 : BitVec 32
  b2 : BitVec 32
  b3 : BitVec 32

def FragmentWords.ofSlot (instr : Slot) : FragmentWords :=
  let buf := readFragmentInstr instr
  ⟨buf.word 0, buf.word 1, buf.word 2, buf.word 3⟩

namespace FragmentWords

variable (i : FragmentWords)

def opcode : Nat :=
  ((field i.b2 24 25).toNat <<< 6) ||| (field i.b0 26 32).toNat

def lastInstr : Bool :=
  field i.b0 7 8 = 1

def control : ControlMod :=
  if field i.b0 15 16 = 1 then
    if field i.b1 24 25 = 1 then .C1 else .C0
  else .None

def inputAttr : InputAttr :=
  .ofField (field i.b0 23 24 ++ field i.b0 8 11)

/-
  The fields of the arguments stand in the second, the third
  and the fourth word, at the same places of each.
-/
def opWord (n : Nat) : BitVec 32 :=
  if n = 0 then i.b1 else if n = 1 then i.b2 else i.b3

def opType (n : Nat) : OpType :=
  .ofField (field (i.opWord n) 6 8)

def opNeg (n : Nat) : Bool :=
  field (i.opWord n) 22 23 = 1

def opAbs (n : Nat) : Bool :=
  field (i.opWord n) 26 27 = 1

def opRegNum (n : Nat) : Nat :=
  (field (i.opWord n) 0 6).toNat

def opRegType (n : Nat) : RegType :=
  .ofField (field (i.opWord n) 15 16)

def opMask (n : Nat) : Swizzle where
  x := .ofField (field (i.opWord n) 13 15)
  y := .ofField (field (i.opWord n) 11 13)
  z := .ofField (field (i.opWord n) 9 11)
  w :=
    .ofField
      (field (i.opWord n) 23 24 ++ field (i.opWord n) 8 9)

def destMask : DestMask where
  x := field i.b0 14 15 = 1
  y := field i.b0 13 14 = 1
  z := field i.b0 12 13 = 1
  w := field i.b0 11 12 = 1

def condition : Condition where
  relation := .ofField (field i.b1 19 22)
  isC1 := field i.b1 25 26 = 1
  swizzle :=
    { x := .ofField (field i.b1 17 19)
      y := .ofField (field i.b1 31 32 ++ field i.b1 16 17)
      z := .ofField (field i.b1 29 31)
      w := .ofField (field i.b1 27 29) }

end FragmentWords

/-
  `fragment_opcode_t`: the number of arguments, and whether
  the last argument names a texture.
-/
structure FragmentOpcode where
  opCount : Nat
  tex : Bool
  instr : FragmentOp
  deriving DecidableEq, Repr

/- The illegal opcodes have no operation of their own. -/
def fragmentOpcodes : List FragmentOpcode :=
  [⟨0, false, .NOP⟩, ⟨1, false, .MOV⟩, ⟨2, false, .MUL⟩,
    ⟨2, false, .ADD⟩, ⟨3, false, .MAD⟩, ⟨2, false, .DP3⟩,
    ⟨2, false, .DP4⟩, ⟨2, false, .DST⟩, ⟨2, false, .MIN⟩,
    ⟨2, false, .MAX⟩, ⟨2, false, .SLT⟩, ⟨2, false, .SGE⟩,
    ⟨2, false, .SLE⟩, ⟨2, false, .SGT⟩, ⟨2, false, .SNE⟩,
    ⟨2, false, .SEQ⟩, ⟨1, false, .FRC⟩, ⟨1, false, .FLR⟩,
    ⟨0, false, .KIL⟩, ⟨1, false, .PK4⟩, ⟨1, false, .UP4⟩,
    ⟨1, false, .DDX⟩, ⟨1, false, .DDY⟩, ⟨2, true, .TEX⟩,
    ⟨2, true, .TXP⟩, ⟨3, true, .TXD⟩, ⟨1, false, .RCP⟩,
    ⟨1, false, .RSQ⟩, ⟨1, false, .EX2⟩, ⟨1, false, .LG2⟩,
    ⟨1, false, .LIT⟩, ⟨3, false, .LRP⟩, ⟨2, false, .STR⟩,
    ⟨2, false, .SFL⟩, ⟨1, false, .COS⟩, ⟨1, false, .SIN⟩,
    ⟨1, false, .PK2⟩, ⟨1, false, .UP2⟩, ⟨2, false, .POW⟩,
    ⟨1, false, .PKB⟩, ⟨1, false, .UPB⟩, ⟨1, false, .PK16⟩,
    ⟨1, false, .UP16⟩, ⟨3, false, .BEM⟩, ⟨1, false, .PKG⟩,
    ⟨1, false, .UPG⟩, ⟨3, false, .DP2A⟩, ⟨3, true, .TXL⟩,
    ⟨0, false, .NOP⟩, ⟨3, true, .TXB⟩, ⟨0, false, .NOP⟩,
    ⟨3, true, .TEXBEM⟩, ⟨3, true, .TXPBEM⟩, ⟨3, false, .BEMLUM⟩,
    ⟨2, false, .REFL⟩, ⟨1, true, .TIMESWTEX⟩, ⟨2, false, .DP2⟩,
    ⟨1, false, .NRM⟩, ⟨2, false, .DIV⟩, ⟨2, false, .DIVSQ⟩,
    ⟨1, false, .LIF⟩, ⟨0, false, .FENCT⟩, ⟨0, false, .FENCB⟩,
    ⟨0, false, .NOP⟩, ⟨0, false, .BRK⟩, ⟨0, false, .CAL⟩,
    ⟨0, false, .IFE⟩, ⟨0, false, .LOOP⟩, ⟨0, false, .REP⟩,
    ⟨0, false, .RET⟩]

/- Whether one of the arguments of an opcode is a constant. -/
def FragmentWords.hasConst
    (i : FragmentWords)
    (opcode : FragmentOpcode) : Bool :=
  (List.range opcode.opCount).any (fun n =>
    i.opType n == .Const)

/-
  Whether an instruction has a constant and whether it is the
  last.  An opcode past the end of the table is not decoded.
-/
def fragmentScanInstr (instr : Slot) : Option (Bool × Bool) :=
  let i := FragmentWords.ofSlot instr
  fragmentOpcodes[i.opcode]?.map (fun opcode =>
    (i.hasConst opcode, i.lastInstr))

------------------------------------------------------------
-- Decoded Instructions
------------------------------------------------------------

open Ppu (field)

structure FragmentArgument where
  type : OpType
  isNeg : Bool
  isAbs : Bool
  swizzle : Swizzle
  regNum : Nat
  regType : RegType
  immVal : Slot
  deriving DecidableEq

structure FragmentInstr where
  elseLabel : Nat
  endifLabel : Nat
  opcode : FragmentOpcode
  condition : Condition
  clamp : ClampMod
  control : ControlMod
  scale : ScaleMod
  destMask : DestMask
  isBx2 : Bool
  isSat : Bool
  reg : RegType
  isRegC : Bool
  regNum : Nat
  inputAttr : InputAttr
  isLast : Bool
  arguments : List FragmentArgument
  texNum : Nat
  deriving DecidableEq

/- A constant is read from the slot after the instruction. -/
def fragmentArgument
    (i : FragmentWords)
    (next : Option Slot)
    (n : Nat) : Option FragmentArgument :=
  let arg : Slot → FragmentArgument := fun immVal =>
    { type := i.opType n
      isNeg := i.opNeg n
      isAbs := i.opAbs n
      swizzle := i.opMask n
      regNum := i.opRegNum n
      regType := i.opRegType n
      immVal }
  if i.opType n = .Const then
    next.map (fun s => arg (readFragmentImmVal s))
  else some (arg Slot.zero)

/-
  The instruction and its size in slots.  The labels of `IFE`
  stand in the third and the fourth word of the slot, read as
  a constant is.
-/
def fragmentDasmInstr
    (instr : Slot)
    (next : Option Slot) : Option (FragmentInstr × Nat) :=
  let i := FragmentWords.ofSlot instr
  let buf := readFragmentImmVal instr
  fragmentOpcodes[i.opcode]?.bind (fun opcode =>
    ((List.range opcode.opCount).mapM
      (fragmentArgument i next)).map (fun arguments =>
        ({ elseLabel :=
             if opcode.instr = .IFE then
               ((buf.word 2 >>> 2) &&& 0x1ffff).toNat
             else 0
           endifLabel :=
             if opcode.instr = .IFE then
               ((buf.word 3 >>> 2) &&& 0x1ffff).toNat
             else 0
           opcode
           condition := i.condition
           clamp := .ofField (field i.b0 16 18)
           control := i.control
           scale := .ofField (field i.b2 25 28)
           destMask := i.destMask
           isBx2 := field i.b0 18 19 = 1
           isSat := field i.b0 24 25 = 1
           reg := .ofField (field i.b0 0 1)
           isRegC := field i.b0 25 26 = 1
           regNum := (field i.b0 1 7).toNat
           inputAttr := i.inputAttr
           isLast := i.lastInstr
           arguments
           texNum := (field i.b0 19 23).toNat },
          if i.hasConst opcode then 2 else 1)))

/- Decoding agrees with scanning. -/
theorem fragmentScanInstr_of_dasm
    {instr : Slot}
    {next : Option Slot}
    {fi : FragmentInstr}
    {size : Nat}
    (hDasm : fragmentDasmInstr instr next = some (fi, size)) :
    fragmentScanInstr instr =
        some (decide (size = 2), fi.isLast) ∧
      (size = 1 ∨ size = 2) := by
  simp only [fragmentDasmInstr] at hDasm
  rcases Option.bind_eq_some_iff.mp hDasm with
    ⟨opcode, hOpcode, hRest⟩
  rcases Option.map_eq_some_iff.mp hRest with
    ⟨arguments, -, hPair⟩
  obtain ⟨rfl, rfl⟩ := Prod.mk.inj hPair
  simp only [fragmentScanInstr, hOpcode, Option.map_some]
  cases (FragmentWords.ofSlot instr).hasConst opcode with
  | true => simp
  | false => simp

variable {A B : Type} {f : A → Option B}

/- The arguments are decoded one by one. -/
theorem exists_mapM
    (l : List A)
    (hAll : ∀ a ∈ l, (f a).isSome = true) :
    ∃ bs, l.mapM f = some bs := by
  induction l with
  | nil => exact ⟨[], rfl⟩
  | cons a rest ih =>
      rcases Option.isSome_iff_exists.mp (hAll a (by simp)) with
        ⟨b, hb⟩
      rcases ih (fun x hx => hAll x (by simp [hx])) with
        ⟨bs, hbs⟩
      exact ⟨b :: bs, by simp [List.mapM_cons, hb, hbs]⟩

variable {bs : List B}

theorem length_of_mapM
    {l : List A}
    (hRun : l.mapM f = some bs) :
    bs.length = l.length := by
  induction l generalizing bs with
  | nil =>
      obtain rfl := Option.some.inj hRun
      rfl
  | cons a rest ih =>
      simp only [List.mapM_cons, Option.bind_eq_bind,
        Option.bind_eq_some_iff, Option.pure_def,
        Option.some.injEq] at hRun
      rcases hRun with ⟨b, -, tail, hTail, rfl⟩
      rw [List.length_cons, List.length_cons, ih hTail]

/- Each result of a list of decodings, and each of its inputs. -/
theorem exists_of_mapM
    {l : List A}
    {n : Nat}
    {b : B}
    (hRun : l.mapM f = some bs)
    (hGet : bs[n]? = some b) :
    ∃ a ∈ l, f a = some b := by
  induction l generalizing bs n with
  | nil =>
      obtain rfl := Option.some.inj hRun
      cases hGet
  | cons a rest ih =>
      simp only [List.mapM_cons, Option.bind_eq_bind,
        Option.bind_eq_some_iff, Option.pure_def,
        Option.some.injEq] at hRun
      rcases hRun with ⟨b', hb', tail, hTail, rfl⟩
      cases n with
      | zero =>
          obtain rfl := Option.some.inj hGet
          exact ⟨a, by simp, hb'⟩
      | succ n =>
          rcases ih hTail hGet with ⟨a', hMem, ha'⟩
          exact ⟨a', by simp [hMem], ha'⟩

theorem exists_arg_of_mapM
    {l : List A}
    {a : A}
    (hRun : l.mapM f = some bs)
    (hMem : a ∈ l) :
    ∃ b, f a = some b := by
  induction l generalizing bs with
  | nil => cases hMem
  | cons a' rest ih =>
      simp only [List.mapM_cons, Option.bind_eq_bind,
        Option.bind_eq_some_iff, Option.pure_def,
        Option.some.injEq] at hRun
      rcases hRun with ⟨b, hb, tail, hTail, -⟩
      rcases List.mem_cons.mp hMem with rfl | hIn
      · exact ⟨b, hb⟩
      · exact ih hTail hIn

/- A decoded constant was there to be read. -/
theorem next_isSome_of_dasm
    {instr : Slot}
    {next : Option Slot}
    {fi : FragmentInstr}
    (hDasm : fragmentDasmInstr instr next = some (fi, 2)) :
    next.isSome = true := by
  rcases Option.bind_eq_some_iff.mp hDasm with
    ⟨opcode, hOpcode, hRest⟩
  rcases Option.map_eq_some_iff.mp hRest with
    ⟨arguments, hArguments, hPair⟩
  have hSize := (Prod.mk.inj hPair).2
  split at hSize
  case isFalse => cases hSize
  case isTrue hConst =>
    rw [FragmentWords.hasConst, List.any_eq_true] at hConst
    rcases hConst with ⟨n, hn, hType⟩
    rcases exists_arg_of_mapM hArguments hn with ⟨a, ha⟩
    rw [fragmentArgument, if_pos (beq_iff_eq.mp hType)] at ha
    rcases Option.map_eq_some_iff.mp ha with ⟨s, hs, -⟩
    rw [hs]
    rfl

/- What is scanned can be decoded, if its constant is there. -/
theorem exists_dasm_of_scan
    {instr : Slot}
    {next : Option Slot}
    {isConst isLast : Bool}
    (hScan :
      fragmentScanInstr instr = some (isConst, isLast))
    (hNext : isConst = true → next.isSome = true) :
    ∃ fi,
      fragmentDasmInstr instr next =
          some (fi, if isConst then 2 else 1) ∧
        fi.isLast = isLast := by
  rcases Option.map_eq_some_iff.mp hScan with
    ⟨opcode, hOpcode, hPair⟩
  obtain ⟨rfl, rfl⟩ := Prod.mk.inj hPair
  have hArguments :
      ∃ arguments,
        (List.range opcode.opCount).mapM
            (fragmentArgument (FragmentWords.ofSlot instr)
              next) =
          some arguments := by
    apply exists_mapM
    intro n hn
    rw [fragmentArgument]
    split
    case isTrue hConst =>
      rw [Option.isSome_map]
      apply hNext
      rw [FragmentWords.hasConst, List.any_eq_true]
      exact ⟨n, hn, beq_iff_eq.mpr hConst⟩
    case isFalse => rfl
  rcases hArguments with ⟨arguments, hArguments⟩
  simp only [fragmentDasmInstr, hOpcode, Option.bind_some,
    hArguments, Option.map_some]
  exact ⟨_, rfl, rfl⟩

end Shaders

end Ps3emu
