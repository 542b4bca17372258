import Ps3emu.Library.Switch
import Ps3emu.Ppu.BitField

/-
  The fields of SPU instruction words, and the switches that
  tell which instruction a word is.

  Key definitions include:
    * `Spu.Instr`
    * `Spu.decode`
    * `Spu.BranchWord`

  Key theorems include:
    * `Spu.decode_eq_direct`
    * `Spu.decode_eq_indirect`
-/

------------------------------------------------------------
-- Fields and Instructions
------------------------------------------------------------

namespace Ps3emu

namespace Spu

open Ppu (field)

variable (x : BitVec 32)

/- `OP4` to `OP11`: the first bits of a word. -/
def op (width : Nat) : Nat := (field x 0 width).toNat

def op9 : BitVec 9 := field x 0 9
def op11 : BitVec 11 := field x 0 11

/- `RT_ABC` is the target of the forms with three sources. -/
def rb : BitVec 7 := field x 11 18
def ra : BitVec 7 := field x 18 25
def rc : BitVec 7 := field x 25 32
def rt : BitVec 7 := field x 25 32
def rtAbc : BitVec 7 := field x 4 11
def ca : BitVec 7 := field x 18 25

def i7 : BitVec 7 := field x 11 18
def i10 : BitVec 10 := field x 8 18
def i16 : BitVec 16 := field x 9 25
def i18 : BitVec 18 := field x 7 25

def stopAndSignalType : BitVec 14 := field x 18 32

/- Branches to an address that is in the word. -/
inductive DirectBranch where
  | br | bra | brsl | brasl | brnz | brz | brhnz | brhz
deriving DecidableEq

/- Branches to an address that is in a register. -/
inductive IndirectBranch where
  | bi | iret | bisl | biz | binz | bihz | bihnz
deriving DecidableEq

/- Halts on a condition. -/
inductive HaltInstr where
  | heq | hgt | hlgt | heqi | hgti | hlgti
deriving DecidableEq

inductive SystemInstr where
  | stop | stopd | bbcall
deriving DecidableEq

inductive ChannelInstr where
  | rdch | rchcnt | wrch
deriving DecidableEq

/- Instructions with an empty handler, or that only wait. -/
inductive HintInstr where
  | lnop | nop | sync | dsync | hbr | hbra | hbrr
deriving DecidableEq

/- Loads from the local storage, and stores to it. -/
inductive MemoryInstr where
  | lqd | lqx | lqa | lqr | stqd | stqx | stqa | stqr
deriving DecidableEq

/- Instructions on registers alone. -/
inductive ComputeInstr where
  | cbd | cbx | chd | chx | cwd | cwx | cdd | cdx | ah | a
  | sf | addx | cg | cgx | bg | bgx | mpy | mpyu | mpyh
  | mpys | mpyhh | mpyhha | mpyhhu | mpyhhau | clz | cntb
  | fsmb | fsmh | fsm | gbb | gbh | gb | avgb | absdb
  | sumb | xsbh | xshw | xswd | and | andc | or | orc | orx
  | xor | nand | nor | eqv | shlh | shlhi | shl | shli
  | shlqbi | shlqbii | shlqby | shlqbyi | shlqbybi | roth
  | rothi | rot | roti | rotqby | rotqbyi | rotqbybi
  | rotqbi | rotqbii | rothm | rothmi | rotm | rotmi
  | rotqmby | rotqmbyi | rotqmbybi | rotqmbi | rotqmbii
  | rotmah | rotmahi | rotma | rotmai | ceqb | ceqh | ceq
  | cgtb | cgth | cgt | clgtb | clgth | clgt | fa | dfa
  | fs | dfs | fm | dfm | dfma | dfnms | dfms | dfnma
  | frest | frsqest | fi | frds | fesd | dfceq | dfcmeq
  | dfcgt | dfcmgt | dftsv | fceq | fcmeq | fcgt | fcmgt
  | fscrwr | fscrrd | sfh | sfx | csflt | cflts | cuflt
  | cfltu | ilh | ilhu | il | iohl | fsmbi | ahi | ai
  | sfhi | sfi | mpyi | mpyui | andbi | andhi | andi | orbi
  | orhi | ori | xorbi | xorhi | xori | ceqbi | ceqhi
  | ceqi | cgtbi | cgthi | cgti | clgtbi | clgthi | clgti
  | ila | mpya | selb | shufb | fma | fnms | fms
deriving DecidableEq

inductive Instr where
  | direct (i : DirectBranch)
  | indirect (i : IndirectBranch)
  | halt (i : HaltInstr)
  | system (i : SystemInstr)
  | channel (i : ChannelInstr)
  | hint (i : HintInstr)
  | memory (i : MemoryInstr)
  | compute (i : ComputeInstr)
deriving DecidableEq

------------------------------------------------------------
-- Opcode Tables
------------------------------------------------------------

def opcode11 : List (Nat × Instr) :=
  [(0b00111000100, .memory .lqx), (0b00101000100, .memory .stqx),
    (0b00111110100, .compute .cbd), (0b00111010100, .compute .cbx),
    (0b00111110101, .compute .chd), (0b00111010101, .compute .chx),
    (0b00111110110, .compute .cwd), (0b00111010110, .compute .cwx),
    (0b00111110111, .compute .cdd), (0b00111010111, .compute .cdx),
    (0b00011001000, .compute .ah), (0b00011000000, .compute .a),
    (0b00001000000, .compute .sf), (0b01101000000, .compute .addx),
    (0b00011000010, .compute .cg), (0b01101000010, .compute .cgx),
    (0b00001000010, .compute .bg), (0b01101000011, .compute .bgx),
    (0b01111000100, .compute .mpy),
    (0b01111001100, .compute .mpyu),
    (0b01111000101, .compute .mpyh),
    (0b01111000111, .compute .mpys),
    (0b01111000110, .compute .mpyhh),
    (0b01101000110, .compute .mpyhha),
    (0b01111001110, .compute .mpyhhu),
    (0b01101001110, .compute .mpyhhau),
    (0b01010100101, .compute .clz),
    (0b01010110100, .compute .cntb),
    (0b00110110110, .compute .fsmb),
    (0b00110110101, .compute .fsmh),
    (0b00110110100, .compute .fsm), (0b00110110010, .compute .gbb),
    (0b00110110001, .compute .gbh), (0b00110110000, .compute .gb),
    (0b00011010011, .compute .avgb),
    (0b00001010011, .compute .absdb),
    (0b01001010011, .compute .sumb),
    (0b01010110110, .compute .xsbh),
    (0b01010101110, .compute .xshw),
    (0b01010100110, .compute .xswd),
    (0b00011000001, .compute .and),
    (0b01011000001, .compute .andc), (0b00001000001, .compute .or),
    (0b01011001001, .compute .orc), (0b00111110000, .compute .orx),
    (0b01001000001, .compute .xor),
    (0b00011001001, .compute .nand),
    (0b00001001001, .compute .nor), (0b01001001001, .compute .eqv),
    (0b00001011111, .compute .shlh),
    (0b00001111111, .compute .shlhi),
    (0b00001011011, .compute .shl),
    (0b00001111011, .compute .shli),
    (0b00111011011, .compute .shlqbi),
    (0b00111111011, .compute .shlqbii),
    (0b00111011111, .compute .shlqby),
    (0b00111111111, .compute .shlqbyi),
    (0b00111001111, .compute .shlqbybi),
    (0b00001011100, .compute .roth),
    (0b00001111100, .compute .rothi),
    (0b00001011000, .compute .rot),
    (0b00001111000, .compute .roti),
    (0b00111011100, .compute .rotqby),
    (0b00111111100, .compute .rotqbyi),
    (0b00111001100, .compute .rotqbybi),
    (0b00111011000, .compute .rotqbi),
    (0b00111111000, .compute .rotqbii),
    (0b00001011101, .compute .rothm),
    (0b00001111101, .compute .rothmi),
    (0b00001011001, .compute .rotm),
    (0b00001111001, .compute .rotmi),
    (0b00111011101, .compute .rotqmby),
    (0b00111111101, .compute .rotqmbyi),
    (0b00111001101, .compute .rotqmbybi),
    (0b00111011001, .compute .rotqmbi),
    (0b00111111001, .compute .rotqmbii),
    (0b00001011110, .compute .rotmah),
    (0b00001111110, .compute .rotmahi),
    (0b00001011010, .compute .rotma),
    (0b00001111010, .compute .rotmai), (0b01111011000, .halt .heq),
    (0b01001011000, .halt .hgt), (0b01011011000, .halt .hlgt),
    (0b01111010000, .compute .ceqb),
    (0b01111001000, .compute .ceqh),
    (0b01111000000, .compute .ceq),
    (0b01001010000, .compute .cgtb),
    (0b01001001000, .compute .cgth),
    (0b01001000000, .compute .cgt),
    (0b01011010000, .compute .clgtb),
    (0b01011001000, .compute .clgth),
    (0b01011000000, .compute .clgt),
    (0b00110101000, .indirect .bi),
    (0b00110101010, .indirect .iret),
    (0b00110101001, .indirect .bisl),
    (0b00100101000, .indirect .biz),
    (0b00100101001, .indirect .binz),
    (0b00100101010, .indirect .bihz),
    (0b00100101011, .indirect .bihnz), (0b00110101100, .hint .hbr),
    (0b01011000100, .compute .fa), (0b01011001100, .compute .dfa),
    (0b01011000101, .compute .fs), (0b01011001101, .compute .dfs),
    (0b01011000110, .compute .fm), (0b01011001110, .compute .dfm),
    (0b01101011100, .compute .dfma),
    (0b01101011110, .compute .dfnms),
    (0b01101011101, .compute .dfms),
    (0b01101011111, .compute .dfnma),
    (0b00110111000, .compute .frest),
    (0b00110111001, .compute .frsqest),
    (0b01111010100, .compute .fi), (0b01110111001, .compute .frds),
    (0b01110111000, .compute .fesd),
    (0b01111000011, .compute .dfceq),
    (0b01111001011, .compute .dfcmeq),
    (0b01011000011, .compute .dfcgt),
    (0b01011001011, .compute .dfcmgt),
    (0b01110111111, .compute .dftsv),
    (0b01111000010, .compute .fceq),
    (0b01111001010, .compute .fcmeq),
    (0b01011000010, .compute .fcgt),
    (0b01011001010, .compute .fcmgt),
    (0b01110111010, .compute .fscrwr),
    (0b01110011000, .compute .fscrrd),
    (0b00000000000, .system .stop),
    (0b00101000000, .system .stopd), (0b00000000001, .hint .lnop),
    (0b01000000001, .hint .nop), (0b00000000010, .hint .sync),
    (0b00000000011, .hint .dsync), (0b00000001101, .channel .rdch),
    (0b00000001111, .channel .rchcnt),
    (0b00100001101, .channel .wrch),
    (0b00001001000, .compute .sfh), (0b01101000001, .compute .sfx)]

def opcode10 : List (Nat × Instr) :=
  [(0b0111011010, .compute .csflt),
    (0b0111011000, .compute .cflts),
    (0b0111011011, .compute .cuflt),
    (0b0111011001, .compute .cfltu)]

def opcode9 : List (Nat × Instr) :=
  [(0b001100001, .memory .lqa), (0b001100111, .memory .lqr),
    (0b001000001, .memory .stqa), (0b001000111, .memory .stqr),
    (0b010000011, .compute .ilh), (0b010000010, .compute .ilhu),
    (0b010000001, .compute .il), (0b011000001, .compute .iohl),
    (0b001100101, .compute .fsmbi), (0b001100100, .direct .br),
    (0b001100000, .direct .bra), (0b001100110, .direct .brsl),
    (0b001100010, .direct .brasl), (0b001000010, .direct .brnz),
    (0b001000000, .direct .brz), (0b001000110, .direct .brhnz),
    (0b001000100, .direct .brhz)]

def opcode8 : List (Nat × Instr) :=
  [(0b00110100, .memory .lqd), (0b00100100, .memory .stqd),
    (0b00011101, .compute .ahi), (0b00011100, .compute .ai),
    (0b00001101, .compute .sfhi), (0b00001100, .compute .sfi),
    (0b01110100, .compute .mpyi), (0b01110101, .compute .mpyui),
    (0b00010110, .compute .andbi), (0b00010101, .compute .andhi),
    (0b00010100, .compute .andi), (0b00000110, .compute .orbi),
    (0b00000101, .compute .orhi), (0b00000100, .compute .ori),
    (0b01000110, .compute .xorbi), (0b01000101, .compute .xorhi),
    (0b01000100, .compute .xori), (0b01111111, .halt .heqi),
    (0b01001111, .halt .hgti), (0b01011111, .halt .hlgti),
    (0b01111110, .compute .ceqbi), (0b01111101, .compute .ceqhi),
    (0b01111100, .compute .ceqi), (0b01001110, .compute .cgtbi),
    (0b01001101, .compute .cgthi), (0b01001100, .compute .cgti),
    (0b01011110, .compute .clgtbi), (0b01011101, .compute .clgthi),
    (0b01011100, .compute .clgti)]

def opcode7 : List (Nat × Instr) :=
  [(0b0100001, .compute .ila), (0b0001000, .hint .hbra),
    (0b0001001, .hint .hbrr)]

def opcode6 : List (Nat × Instr) :=
  [(0b100100, .system .bbcall)]

def opcode4 : List (Nat × Instr) :=
  [(0b1100, .compute .mpya), (0b1000, .compute .selb),
    (0b1011, .compute .shufb), (0b1110, .compute .fma),
    (0b1101, .compute .fnms), (0b1111, .compute .fms)]

/- The switches in the order in which they are tried. -/
def switches : List (Nat × List (Nat × Instr)) :=
  [(11, opcode11), (10, opcode10), (9, opcode9),
    (8, opcode8), (7, opcode7), (6, opcode6), (4, opcode4)]

/- A word that has no case is illegal. -/
def decode : Option Instr :=
  Switch.decode (fun width x => op x width) switches x

------------------------------------------------------------
-- Branch Words
------------------------------------------------------------

def DirectBranch.opcode : DirectBranch → BitVec 9
  | .br => 0b001100100
  | .bra => 0b001100000
  | .brsl => 0b001100110
  | .brasl => 0b001100010
  | .brnz => 0b001000010
  | .brz => 0b001000000
  | .brhnz => 0b001000110
  | .brhz => 0b001000100

def IndirectBranch.opcode : IndirectBranch → BitVec 11
  | .bi => 0b00110101000
  | .iret => 0b00110101010
  | .bisl => 0b00110101001
  | .biz => 0b00100101000
  | .binz => 0b00100101001
  | .bihz => 0b00100101010
  | .bihnz => 0b00100101011

/- The branches are in two switches, under their opcodes. -/
def branchCase (width k : Nat) : Instr → Bool
  | .direct j => width == 9 && k == j.opcode.toNat
  | .indirect j => width == 11 && k == j.opcode.toNat
  | _ => true

set_option maxRecDepth 2000 in
theorem branchCase_switches :
    ∀ s ∈ switches, ∀ p ∈ s.2,
      branchCase s.1 p.1 p.2 = true := by decide

variable {x}

theorem branchCase_of_decode
    {i : Instr}
    (hDecode : decode x = some i) :
    ∃ width, branchCase width (op x width) i = true := by
  rcases Switch.mem_of_decode hDecode with ⟨s, hMem, hCase⟩
  exact ⟨s.1, branchCase_switches s hMem _ hCase⟩

/- A shorter opcode is the front of a longer one. -/
theorem op_div
    {short long : Nat}
    (hShort : short ≤ long)
    (hLong : long ≤ 32) :
    op x short = op x long / 2 ^ (long - short) := by
  have hOp :
      ∀ n, n ≤ 32 → op x n = x.toNat / 2 ^ (32 - n) := by
    intro n hn
    have hLt : x.toNat / 2 ^ (32 - n) < 2 ^ n := by
      rw [Nat.div_lt_iff_lt_mul (Nat.two_pow_pos _),
        ← Nat.pow_add, Nat.add_sub_cancel' hn]
      exact x.isLt
    simp only [op, field, BitVec.extractLsb'_toNat,
      Nat.shiftRight_eq_div_pow, Nat.sub_zero]
    exact Nat.mod_eq_of_lt hLt
  rw [hOp short (by omega), hOp long hLong,
    Nat.div_div_eq_div_mul, ← Nat.pow_add]
  congr 2
  omega

/- No longer opcode starts with that of a direct branch. -/
set_option maxRecDepth 2000 in
theorem front_ne (j : DirectBranch) :
    ∀ s ∈ [(11, opcode11), (10, opcode10)], ∀ p ∈ s.2,
      p.1 / 2 ^ (s.1 - 9) ≠ j.opcode.toNat := by
  cases j <;> decide

/- A word is a branch by its opcode alone. -/
theorem decode_eq_direct (j : DirectBranch) :
    decode x = some (.direct j) ↔ op9 x = j.opcode := by
  constructor
  · intro hDecode
    rcases branchCase_of_decode hDecode with ⟨width, hCase⟩
    simp only [branchCase, Bool.and_eq_true, beq_iff_eq]
      at hCase
    rw [hCase.1] at hCase
    exact BitVec.eq_of_toNat_eq hCase.2
  · intro hOp
    have hKey : op x 9 = j.opcode.toNat :=
      congrArg BitVec.toNat hOp
    apply
      Switch.decode_eq_some [(11, opcode11), (10, opcode10)]
        _ 9 opcode9
    · intro s hMem p hp hEq
      apply front_ne j s hMem p hp
      rw [hEq, ← op_div, hKey]
      · rcases List.mem_cons.mp hMem with rfl | hMem
        · decide
        · rw [List.mem_singleton.mp hMem]
          decide
      · rcases List.mem_cons.mp hMem with rfl | hMem
        · decide
        · rw [List.mem_singleton.mp hMem]
          decide
    · rw [hKey]
      cases j <;> rfl

theorem decode_eq_indirect (j : IndirectBranch) :
    decode x = some (.indirect j) ↔ op11 x = j.opcode := by
  constructor
  · intro hDecode
    rcases branchCase_of_decode hDecode with ⟨width, hCase⟩
    simp only [branchCase, Bool.and_eq_true, beq_iff_eq]
      at hCase
    rw [hCase.1] at hCase
    exact BitVec.eq_of_toNat_eq hCase.2
  · intro hOp
    have hKey : op x 11 = j.opcode.toNat :=
      congrArg BitVec.toNat hOp
    apply Switch.decode_eq_some [] _ 11 opcode11
    · intro s hMem
      cases hMem
    · rw [hKey]
      cases j <;> rfl

end Spu

end Ps3emu
