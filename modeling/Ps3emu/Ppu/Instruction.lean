import Ps3emu.Ppu.BitField

/-
  The fields of PPU instruction words, and the table that
  tells which instruction a word is.

  Key definitions include:
    * `Instr`
    * `decode`

  Key theorems include:
    * `setsNip_of_decode`
    * `decode_eq_branch`
-/

------------------------------------------------------------
-- Fields
------------------------------------------------------------

namespace Ps3emu

namespace Ppu

variable (x : BitVec 32)

def opcd : BitVec 6 := field x 0 6

/- Registers, under their names in the different forms. -/
def rt : BitVec 5 := field x 6 11
def rs : BitVec 5 := field x 6 11
def ra : BitVec 5 := field x 11 16
def rb : BitVec 5 := field x 16 21

/- Immediate operands. -/
def si : BitVec 16 := field x 16 32
def ui : BitVec 16 := field x 16 32
def li : BitVec 24 := field x 6 30
def bd : BitVec 14 := field x 16 30
def idx : BitVec 26 := field x 6 32

/- Branches. -/
def bo0 : Bool := flag x 6
def bo1 : Bool := flag x 7
def bo2 : Bool := flag x 8
def bo3 : Bool := flag x 9
def bi : BitVec 5 := field x 11 16
def aa : Bool := flag x 30
def lk : Bool := flag x 31
def trapTo : BitVec 5 := field x 6 11

/- Condition register. -/
def bt : BitVec 5 := field x 6 11
def ba : BitVec 5 := field x 11 16
def bb : BitVec 5 := field x 16 21
def bf : BitVec 3 := field x 6 9
def bfa : BitVec 3 := field x 11 14
def fxm : BitVec 8 := field x 12 20
def spr : BitVec 10 := field x 11 21

/- Fixed-point forms. -/
def l : Bool := flag x 10
def oe : Bool := flag x 21
def rc : Bool := flag x 31

/- Shifts and rotations. -/
def sh04 : BitVec 5 := field x 16 21
def sh5 : BitVec 1 := field x 30 31
def mb04 : BitVec 5 := field x 21 26
def mb5 : BitVec 1 := field x 26 27
def me04 : BitVec 5 := field x 21 26
def me5 : BitVec 1 := field x 26 27
def mbMds : BitVec 6 := field x 21 27
def meMds : BitVec 6 := field x 21 27
def mbM : BitVec 5 := field x 21 26
def meM : BitVec 5 := field x 26 31

/- Extended opcodes. -/
def xoX : BitVec 10 := field x 21 31
def xoXO : BitVec 9 := field x 22 31
def xoXS : BitVec 9 := field x 21 30
def xoMD : BitVec 3 := field x 27 30
def xoMDS : BitVec 4 := field x 27 31
def xoDS : BitVec 2 := field x 30 32
def xoA : BitVec 5 := field x 26 31
def xoVA : BitVec 6 := field x 26 32
def xoVX : BitVec 11 := field x 21 32
def xoVXR : BitVec 10 := field x 22 32

/- A six-bit number whose first bit stands apart. -/
def getNBE
    (f04 : BitVec 5)
    (f5 : BitVec 1) : BitVec 8 :=
  (f5.setWidth 8 <<< 5) ||| f04.setWidth 8

------------------------------------------------------------
-- Instructions
------------------------------------------------------------

/- Instructions of the fixed-point unit. -/
inductive IntegerInstr where
  | addi | addis | add | addze | subf | addic | addicd
  | subfic | addc | subfc | subfe | andid | andisd | ori
  | oris | xori | xoris | and | or | xor | nand | nor | eqv
  | andc | orc | extsb | extsh | extsw | rldicl | rldicr
  | rldimi | rldcl | rldcr | rldic | rlwinm | rlwnm | rlwimi
  | cmpi | cmp | cmpli | cmpl | sld | slw | srd | srw
  | sradi | srawi | srad | sraw | neg | divd | divw | divdu
  | divwu | mulld | mullw | mulhd | mulhw | mulhwu | mulhdu
  | mulli | cntlzd | cntlzw
deriving DecidableEq

/- Moves of system registers and condition bits. -/
inductive RegisterInstr where
  | mtspr | mfspr | mfcr | mtocrf | crand | cror | crxor
  | crnand | crnor | creqv | crandc | crorc | mcrf
deriving DecidableEq

inductive BranchInstr where
  | b | bc | bclr | bcctr
deriving DecidableEq

/- Calls out of the program, and traps. -/
inductive SystemInstr where
  | ncall | bbcall | sc | td | tw
deriving DecidableEq

/- Instructions that only order memory accesses. -/
inductive HintInstr where
  | isync | sync | eieio | dcbt | dcbtst
deriving DecidableEq

/- Loads and stores, and the time base. -/
inductive MemoryInstr where
  | lbz | lbzx | lbzux | lhzx | lhzux | lhax | lhaux | lwzx
  | lwzux | lwax | lwaux | ldx | ldux | stbx | stbux | sthx
  | sthux | stwx | stwux | stdx | stdux | lhbrx | lwbrx
  | sthbrx | stwbrx | lfsx | lfsux | lfdx | lfdux | stfsx
  | stfsux | stfdx | stfdux | stfiwx | stvx | lvx | lvxl
  | lvlx | lvrx | mftb | lvewx | lvsr | lvsl | lwarx | ldarx
  | stwcx | stdcx | stvewx | dcbz | lbzu | lwz | lwzu | stw
  | stwu | stb | stbu | lhz | lhzu | lha | lhau | sth | sthu
  | lfs | lfsu | lfd | lfdu | stfs | stfsu | stfd | stfdu
  | lwa | ld | ldu | std | stdu
deriving DecidableEq

inductive FloatingInstr where
  | fadds | fmuls | fdivs | fmsubs | fmadds | fsubs
  | fnmadds | fnmsub | fsqrts | fres | frsqrtes | fadd
  | fmul | fdiv | fmadd | fmsub | fsub | fnmadd | fsqrt
  | fre | frsqrte | fsel | fmr | fneg | fabs | fnabs | fcfid
  | fcmpu | fctiwz | fctidz | frsp | mffs | mtfsf
deriving DecidableEq

inductive VectorInstr where
  | vmhraddshs | vmladduhm | vmaddfp | vnmsubfp | vsel
  | vperm | vsldoi | vcmpeqfp | vcmpgtuw | vcmpgtuh
  | vcmpgtub | vcmpgtfp | vcmpgtsw | vcmpequw | vcmpequb
  | vsrah | vupklsb | vupkhsb | vslh | vpkshus | vadduhm
  | vaddubm | vsububm | vminub | vmaxub | vaddshs | vsubshs
  | vxor | vspltw | vsplth | vspltisw | vspltish | vspltisb
  | vaddfp | vsubfp | vctsxs | vand | vnor | vor | vadduwm
  | vsubuwm | vsubuhm | vslw | vslb | vsrw | vcfsx | vmrghw
  | vmrglw | vrsqrtefp | vandc | vrefp | vsraw | vrfip
  | vrfim | vmaxfp | vminfp | vrfiz | vctuxs | vmrglh
  | vmrghh | vmulosh | vrlw | vrfin | vsum4ubs | vcmpbfp
deriving DecidableEq

inductive Instr where
  | integer (i : IntegerInstr)
  | register (i : RegisterInstr)
  | branch (i : BranchInstr)
  | system (i : SystemInstr)
  | hint (i : HintInstr)
  | memory (i : MemoryInstr)
  | floating (i : FloatingInstr)
  | vector (i : VectorInstr)
deriving DecidableEq

------------------------------------------------------------
-- Opcode Tables
------------------------------------------------------------

/- The cases of the switch on the primary opcode. -/
def primary : List (Nat × Instr) :=
  [(1, .system .ncall), (0b111101, .system .bbcall),
  (8, .integer .subfic), (7, .integer .mulli),
  (10, .integer .cmpli), (11, .integer .cmpi),
  (12, .integer .addic), (13, .integer .addicd),
  (14, .integer .addi), (15, .integer .addis),
  (16, .branch .bc), (17, .system .sc), (18, .branch .b),
  (20, .integer .rlwimi), (21, .integer .rlwinm),
  (23, .integer .rlwnm), (24, .integer .ori),
  (25, .integer .oris), (26, .integer .xori),
  (27, .integer .xoris), (28, .integer .andid),
  (29, .integer .andisd), (34, .memory .lbz),
  (35, .memory .lbzu), (32, .memory .lwz),
  (33, .memory .lwzu), (36, .memory .stw),
  (37, .memory .stwu), (38, .memory .stb),
  (39, .memory .stbu), (40, .memory .lhz),
  (41, .memory .lhzu), (42, .memory .lha),
  (43, .memory .lhau), (44, .memory .sth),
  (45, .memory .sthu), (48, .memory .lfs),
  (49, .memory .lfsu), (50, .memory .lfd),
  (51, .memory .lfdu), (52, .memory .stfs),
  (53, .memory .stfsu), (54, .memory .stfd),
  (55, .memory .stfdu)]

/- The three switches of the vector instructions. -/
def opcode4va : List (Nat × Instr) :=
  [(33, .vector .vmhraddshs), (34, .vector .vmladduhm),
  (46, .vector .vmaddfp), (47, .vector .vnmsubfp),
  (42, .vector .vsel), (43, .vector .vperm),
  (44, .vector .vsldoi)]

def opcode4vxr : List (Nat × Instr) :=
  [(198, .vector .vcmpeqfp), (646, .vector .vcmpgtuw),
  (582, .vector .vcmpgtuh), (518, .vector .vcmpgtub),
  (710, .vector .vcmpgtfp), (902, .vector .vcmpgtsw),
  (134, .vector .vcmpequw), (6, .vector .vcmpequb)]

def opcode4vx : List (Nat × Instr) :=
  [(836, .vector .vsrah), (654, .vector .vupklsb),
  (526, .vector .vupkhsb), (324, .vector .vslh),
  (270, .vector .vpkshus), (64, .vector .vadduhm),
  (0, .vector .vaddubm), (1024, .vector .vsububm),
  (514, .vector .vminub), (2, .vector .vmaxub),
  (832, .vector .vaddshs), (1856, .vector .vsubshs),
  (1220, .vector .vxor), (652, .vector .vspltw),
  (588, .vector .vsplth), (908, .vector .vspltisw),
  (844, .vector .vspltish), (780, .vector .vspltisb),
  (10, .vector .vaddfp), (74, .vector .vsubfp),
  (970, .vector .vctsxs), (1028, .vector .vand),
  (1284, .vector .vnor), (1156, .vector .vor),
  (128, .vector .vadduwm), (1152, .vector .vsubuwm),
  (1088, .vector .vsubuhm), (388, .vector .vslw),
  (260, .vector .vslb), (644, .vector .vsrw),
  (842, .vector .vcfsx), (140, .vector .vmrghw),
  (396, .vector .vmrglw), (330, .vector .vrsqrtefp),
  (1092, .vector .vandc), (266, .vector .vrefp),
  (900, .vector .vsraw), (650, .vector .vrfip),
  (714, .vector .vrfim), (1034, .vector .vmaxfp),
  (1098, .vector .vminfp), (586, .vector .vrfiz),
  (906, .vector .vctuxs), (332, .vector .vmrglh),
  (76, .vector .vmrghh), (328, .vector .vmulosh),
  (132, .vector .vrlw), (522, .vector .vrfin),
  (1544, .vector .vsum4ubs), (966, .vector .vcmpbfp)]

/- The switches on the extended opcodes. -/
def opcode19 : List (Nat × Instr) :=
  [(16, .branch .bclr), (528, .branch .bcctr),
  (257, .register .crand), (449, .register .cror),
  (193, .register .crxor), (225, .register .crnand),
  (33, .register .crnor), (289, .register .creqv),
  (129, .register .crandc), (417, .register .crorc),
  (0, .register .mcrf), (150, .hint .isync)]

def opcode30 : List (Nat × Instr) :=
  [(0, .integer .rldicl), (1, .integer .rldicr),
  (2, .integer .rldic), (3, .integer .rldimi)]

def opcode31 : List (Nat × Instr) :=
  [(87, .memory .lbzx), (119, .memory .lbzux),
  (279, .memory .lhzx), (311, .memory .lhzux),
  (343, .memory .lhax), (375, .memory .lhaux),
  (23, .memory .lwzx), (55, .memory .lwzux),
  (341, .memory .lwax), (373, .memory .lwaux),
  (21, .memory .ldx), (53, .memory .ldux),
  (215, .memory .stbx), (247, .memory .stbux),
  (407, .memory .sthx), (439, .memory .sthux),
  (151, .memory .stwx), (183, .memory .stwux),
  (149, .memory .stdx), (181, .memory .stdux),
  (790, .memory .lhbrx), (534, .memory .lwbrx),
  (918, .memory .sthbrx), (662, .memory .stwbrx),
  (266, .integer .add), (28, .integer .and),
  (444, .integer .or), (316, .integer .xor),
  (476, .integer .nand), (124, .integer .nor),
  (284, .integer .eqv), (60, .integer .andc),
  (412, .integer .orc), (954, .integer .extsb),
  (922, .integer .extsh), (986, .integer .extsw),
  (467, .register .mtspr), (339, .register .mfspr),
  (0, .integer .cmp), (32, .integer .cmpl),
  (19, .register .mfcr), (27, .integer .sld),
  (24, .integer .slw), (539, .integer .srd),
  (536, .integer .srw), (104, .integer .neg),
  (144, .register .mtocrf), (278, .hint .dcbt),
  (58, .integer .cntlzd), (26, .integer .cntlzw),
  (824, .integer .srawi), (459, .integer .divwu),
  (235, .integer .mullw), (457, .integer .divdu),
  (233, .integer .mulld), (489, .integer .divd),
  (535, .memory .lfsx), (567, .memory .lfsux),
  (599, .memory .lfdx), (631, .memory .lfdux),
  (663, .memory .stfsx), (695, .memory .stfsux),
  (727, .memory .stfdx), (759, .memory .stfdux),
  (75, .integer .mulhw), (983, .memory .stfiwx),
  (491, .integer .divw), (73, .integer .mulhd),
  (598, .hint .sync), (231, .memory .stvx),
  (487, .memory .stvx), (103, .memory .lvx),
  (359, .memory .lvxl), (519, .memory .lvlx),
  (551, .memory .lvrx), (371, .memory .mftb),
  (9, .integer .mulhdu), (71, .memory .lvewx),
  (11, .integer .mulhwu), (38, .memory .lvsr),
  (6, .memory .lvsl), (68, .system .td), (4, .system .tw),
  (10, .integer .addc), (8, .integer .subfc),
  (136, .integer .subfe), (20, .memory .lwarx),
  (84, .memory .ldarx), (150, .memory .stwcx),
  (214, .memory .stdcx), (199, .memory .stvewx),
  (854, .hint .eieio), (1014, .memory .dcbz),
  (246, .hint .dcbtst), (792, .integer .sraw),
  (794, .integer .srad)]

def opcode58 : List (Nat × Instr) :=
  [(2, .memory .lwa), (0, .memory .ld), (1, .memory .ldu)]

def opcode59 : List (Nat × Instr) :=
  [(21, .floating .fadds), (25, .floating .fmuls),
  (18, .floating .fdivs), (28, .floating .fmsubs),
  (29, .floating .fmadds), (20, .floating .fsubs),
  (31, .floating .fnmadds), (30, .floating .fnmsub),
  (22, .floating .fsqrts), (24, .floating .fres),
  (26, .floating .frsqrtes)]

def opcode62 : List (Nat × Instr) :=
  [(0, .memory .std), (1, .memory .stdu)]

def opcode63a : List (Nat × Instr) :=
  [(21, .floating .fadd), (25, .floating .fmul),
  (18, .floating .fdiv), (29, .floating .fmadd),
  (28, .floating .fmsub), (20, .floating .fsub),
  (31, .floating .fnmadd), (30, .floating .fnmsub),
  (22, .floating .fsqrt), (24, .floating .fre),
  (26, .floating .frsqrte), (23, .floating .fsel)]

def opcode63 : List (Nat × Instr) :=
  [(72, .floating .fmr), (40, .floating .fneg),
  (264, .floating .fabs), (136, .floating .fnabs),
  (846, .floating .fcfid), (0, .floating .fcmpu),
  (15, .floating .fctiwz), (815, .floating .fctidz),
  (12, .floating .frsp), (583, .floating .mffs),
  (711, .floating .mtfsf)]

------------------------------------------------------------
-- Decoding and Next Addresses
------------------------------------------------------------

def decode4 : Option Instr :=
  match opcode4va.lookup (xoVA x).toNat with
  | some i => some i
  | none =>
      match opcode4vxr.lookup (xoVXR x).toNat with
      | some i => some i
      | none => opcode4vx.lookup (xoVX x).toNat

def decode30 : Option Instr :=
  if xoMDS x = 8#4 then some (.integer .rldcl)
  else if xoMDS x = 9#4 then some (.integer .rldcr)
  else opcode30.lookup (xoMD x).toNat

def decode31 : Option Instr :=
  if xoXO x = 40#9 then some (.integer .subf)
  else if xoXO x = 202#9 then some (.integer .addze)
  else if xoXS x = 413#9 then some (.integer .sradi)
  else opcode31.lookup (xoX x).toNat

def decode63 : Option Instr :=
  match opcode63a.lookup (xoA x).toNat with
  | some i => some i
  | none => opcode63.lookup (xoX x).toNat

/- A word that has no case is illegal. -/
def decode : Option Instr :=
  if opcd x = 4#6 then decode4 x
  else if opcd x = 19#6 then opcode19.lookup (xoX x).toNat
  else if opcd x = 30#6 then decode30 x
  else if opcd x = 31#6 then decode31 x
  else if opcd x = 58#6 then opcode58.lookup (xoDS x).toNat
  else if opcd x = 59#6 then opcode59.lookup (xoA x).toNat
  else if opcd x = 62#6 then opcode62.lookup (xoDS x).toNat
  else if opcd x = 63#6 then decode63 x
  else primary.lookup (opcd x).toNat

/- What a table says of all its cases holds of a match. -/
theorem of_lookup
    {table : List (Nat × Instr)}
    {P : Nat → Instr → Prop}
    (hAll : ∀ p ∈ table, P p.1 p.2)
    {k : Nat}
    {i : Instr}
    (hLookup : table.lookup k = some i) :
    P k i := by
  rcases List.lookup_eq_some_iff.mp hLookup with
    ⟨front, back, hTable, -⟩
  apply hAll (k, i)
  rw [hTable]
  exact List.mem_append_right _ List.mem_cons_self

/- The instructions that set the next address themselves. -/
def Instr.setsNip : Instr → Bool
  | .branch _ => true
  | .system .ncall => true
  | _ => false

/- The opcodes of a branch. -/
def BranchWord : BranchInstr → Prop
  | .b => opcd x = 18#6
  | .bc => opcd x = 16#6
  | .bclr => opcd x = 19#6 ∧ xoX x = 16#10
  | .bcctr => opcd x = 19#6 ∧ xoX x = 528#10

variable {x} {i : Instr}

private theorem setsNip_of_lookup
    {table : List (Nat × Instr)}
    (hAll : ∀ p ∈ table, p.2.setsNip = false)
    {k : Nat}
    (hLookup : table.lookup k = some i) :
    i.setsNip = false :=
  @of_lookup table (fun _ i => i.setsNip = false)
    hAll k i hLookup

private theorem decode4_setsNip
    (hDecode : decode4 x = some i) :
    i.setsNip = false := by
  unfold decode4 at hDecode
  split at hDecode
  · rename_i j hLookup
    cases hDecode
    exact setsNip_of_lookup (by decide) hLookup
  · split at hDecode
    · rename_i j hLookup
      cases hDecode
      exact setsNip_of_lookup (by decide) hLookup
    · exact setsNip_of_lookup (by decide) hDecode

private theorem decode30_setsNip
    (hDecode : decode30 x = some i) :
    i.setsNip = false := by
  unfold decode30 at hDecode
  split at hDecode
  · cases hDecode
    rfl
  · split at hDecode
    · cases hDecode
      rfl
    · exact setsNip_of_lookup (by decide) hDecode

/- The shorter opcodes are tried before the table. -/
theorem decode31_cases
    (hDecode : decode31 x = some i) :
    (xoXO x = 40#9 ∧ i = .integer .subf) ∨
      (xoXO x = 202#9 ∧ i = .integer .addze) ∨
        (xoXS x = 413#9 ∧ i = .integer .sradi) ∨
          (xoXO x ≠ 40#9 ∧ xoXO x ≠ 202#9 ∧
            opcode31.lookup (xoX x).toNat = some i) := by
  unfold decode31 at hDecode
  split at hDecode
  case isTrue hSubf =>
    cases hDecode
    exact .inl ⟨hSubf, rfl⟩
  case isFalse hSubf =>
    split at hDecode
    case isTrue hAddze =>
      cases hDecode
      exact .inr (.inl ⟨hAddze, rfl⟩)
    case isFalse hAddze =>
      split at hDecode
      case isTrue hSradi =>
        cases hDecode
        exact .inr (.inr (.inl ⟨hSradi, rfl⟩))
      case isFalse =>
        exact .inr (.inr (.inr ⟨hSubf, hAddze, hDecode⟩))

private theorem decode31_setsNip
    (hDecode : decode31 x = some i) :
    i.setsNip = false := by
  rcases decode31_cases hDecode with
    ⟨-, rfl⟩ | ⟨-, rfl⟩ | ⟨-, rfl⟩ | ⟨-, -, hLookup⟩
  · rfl
  · rfl
  · rfl
  · exact setsNip_of_lookup (by decide) hLookup

private theorem decode63_setsNip
    (hDecode : decode63 x = some i) :
    i.setsNip = false := by
  unfold decode63 at hDecode
  split at hDecode
  · rename_i j hLookup
    cases hDecode
    exact setsNip_of_lookup (by decide) hLookup
  · exact setsNip_of_lookup (by decide) hDecode

/- The cases of two tables that set the next address. -/
def opcode19Sets (k : Nat) (i : Instr) : Prop :=
  i.setsNip = true →
    (i = .branch .bclr ∧ k = 16) ∨
      (i = .branch .bcctr ∧ k = 528)

def primarySets (k : Nat) (i : Instr) : Prop :=
  i.setsNip = true →
    (i = .branch .b ∧ k = 18) ∨
      (i = .branch .bc ∧ k = 16) ∨
        (i = .system .ncall ∧ k = 1)

instance (k : Nat) (i : Instr) :
    Decidable (opcode19Sets k i) :=
  inferInstanceAs (Decidable (_ → _))

instance (k : Nat) (i : Instr) :
    Decidable (primarySets k i) :=
  inferInstanceAs (Decidable (_ → _))

/- Which words set the next address. -/
theorem setsNip_of_decode
    (hDecode : decode x = some i)
    (hSets : i.setsNip = true) :
    (∃ j, i = .branch j ∧ BranchWord x j) ∨
      (i = .system .ncall ∧ opcd x = 1#6) := by
  unfold decode at hDecode
  split at hDecode
  · rw [decode4_setsNip hDecode] at hSets
    cases hSets
  split at hDecode
  · rename_i h19
    have hCase := of_lookup
      (show ∀ p ∈ opcode19, opcode19Sets p.1 p.2 by decide)
      hDecode hSets
    rcases hCase with ⟨rfl, hK⟩ | ⟨rfl, hK⟩
    · exact .inl ⟨_, rfl, h19, BitVec.eq_of_toNat_eq hK⟩
    · exact .inl ⟨_, rfl, h19, BitVec.eq_of_toNat_eq hK⟩
  split at hDecode
  · rw [decode30_setsNip hDecode] at hSets
    cases hSets
  split at hDecode
  · rw [decode31_setsNip hDecode] at hSets
    cases hSets
  split at hDecode
  · rw [setsNip_of_lookup (by decide) hDecode] at hSets
    cases hSets
  split at hDecode
  · rw [setsNip_of_lookup (by decide) hDecode] at hSets
    cases hSets
  split at hDecode
  · rw [setsNip_of_lookup (by decide) hDecode] at hSets
    cases hSets
  split at hDecode
  · rw [decode63_setsNip hDecode] at hSets
    cases hSets
  · have hCase := of_lookup
      (show ∀ p ∈ primary, primarySets p.1 p.2 by decide)
      hDecode hSets
    rcases hCase with ⟨rfl, hK⟩ | ⟨rfl, hK⟩ | ⟨rfl, hK⟩
    · exact .inl ⟨_, rfl, BitVec.eq_of_toNat_eq hK⟩
    · exact .inl ⟨_, rfl, BitVec.eq_of_toNat_eq hK⟩
    · exact .inr ⟨rfl, BitVec.eq_of_toNat_eq hK⟩

/- A word is a branch by its opcodes alone. -/
theorem decode_eq_branch (i : BranchInstr) :
    decode x = some (.branch i) ↔ BranchWord x i := by
  constructor
  · intro hDecode
    rcases setsNip_of_decode hDecode rfl with
      ⟨j, hEq, hWord⟩ | ⟨hEq, -⟩
    · cases hEq
      exact hWord
    · cases hEq
  · intro hWord
    unfold decode
    cases i with
    | b =>
        have hOpcd : opcd x = 18#6 := hWord
        rw [hOpcd]
        rfl
    | bc =>
        have hOpcd : opcd x = 16#6 := hWord
        rw [hOpcd]
        rfl
    | bclr =>
        rcases hWord with ⟨hOpcd, hXo⟩
        rw [hOpcd, hXo]
        rfl
    | bcctr =>
        rcases hWord with ⟨hOpcd, hXo⟩
        rw [hOpcd, hXo]
        rfl

------------------------------------------------------------
-- Words of Opcode 31
------------------------------------------------------------

/- All cases but those of opcode 31. -/
def otherTables : List (List (Nat × Instr)) :=
  [primary, opcode4va, opcode4vxr, opcode4vx, opcode19,
    opcode30, [(8, .integer .rldcl), (9, .integer .rldcr)],
    opcode58, opcode59, opcode62, opcode63a, opcode63]

/- What no other case has is decoded under opcode 31. -/
theorem decode31_of_decode
    {P : Instr → Bool}
    (hOthers : ∀ table ∈ otherTables, ∀ p ∈ table,
      P p.2 = false)
    {i : Instr}
    (hDecode : decode x = some i)
    (hP : P i = true) :
    opcd x = 31#6 ∧ decode31 x = some i := by
  have hNone :
      ∀ table ∈ otherTables, ∀ k,
        table.lookup k ≠ some i := by
    intro table hTable k hLookup
    have hFalse :=
      @of_lookup table (fun _ i => P i = false)
        (hOthers table hTable) k i hLookup
    rw [hP] at hFalse
    cases hFalse
  have hSingle :
      ∀ k j, (k, j) ∈
        [(8, Instr.integer .rldcl), (9, .integer .rldcr)] →
          j ≠ i := by
    intro k j hMem hEq
    have hFalse :=
      hOthers _ (by simp [otherTables]) (k, j) hMem
    rw [hEq, hP] at hFalse
    cases hFalse
  unfold decode at hDecode
  split at hDecode
  · unfold decode4 at hDecode
    split at hDecode
    · rename_i hLookup
      rw [hDecode] at hLookup
      exact absurd hLookup
        (hNone _ (by simp [otherTables]) _)
    · split at hDecode
      · rename_i hLookup
        rw [hDecode] at hLookup
        exact absurd hLookup
          (hNone _ (by simp [otherTables]) _)
      · exact absurd hDecode
          (hNone _ (by simp [otherTables]) _)
  split at hDecode
  · exact absurd hDecode (hNone _ (by simp [otherTables]) _)
  split at hDecode
  · unfold decode30 at hDecode
    split at hDecode
    · exact absurd (Option.some.inj hDecode)
        (hSingle 8 _ (by simp))
    · split at hDecode
      · exact absurd (Option.some.inj hDecode)
          (hSingle 9 _ (by simp))
      · exact absurd hDecode
          (hNone _ (by simp [otherTables]) _)
  split at hDecode
  · rename_i hOpcd
    exact ⟨hOpcd, hDecode⟩
  split at hDecode
  · exact absurd hDecode (hNone _ (by simp [otherTables]) _)
  split at hDecode
  · exact absurd hDecode (hNone _ (by simp [otherTables]) _)
  split at hDecode
  · exact absurd hDecode (hNone _ (by simp [otherTables]) _)
  split at hDecode
  · unfold decode63 at hDecode
    split at hDecode
    · rename_i hLookup
      rw [hDecode] at hLookup
      exact absurd hLookup
        (hNone _ (by simp [otherTables]) _)
    · exact absurd hDecode
        (hNone _ (by simp [otherTables]) _)
  · exact absurd hDecode (hNone _ (by simp [otherTables]) _)

end Ppu

end Ps3emu
