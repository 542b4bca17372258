import Ps3emu.Memory.GuestBytes
import Ps3emu.Ppu.Interpreter

/-
  Loads and stores of the fixed-point unit, and the clearing
  of a block.

  Key definitions include:
    * `emulateLoad`, `emulateLoadUpdate`
    * `emulateStore`, `emulateStoreUpdate`
    * `emulateScalar`, `emulateWord`
    * `Access`, `access?`
    * `Follows`

  Key theorems include:
    * `emulateScalar_eq`, `emulateWord_eq`
    * `follows_of_contiguous`
    * `follows_iff`
-/

------------------------------------------------------------
-- Addresses and Instructions
------------------------------------------------------------

namespace Ps3emu

namespace Ppu

variable {R : Type}

def d (x : BitVec 32) : BitVec 16 := field x 16 32
def ds (x : BitVec 32) : BitVec 14 := field x 16 30

/- `D_s` and `DS_native`, or a register. -/
def byD (d : BitVec 16) (_ : Registers R) : BitVec 64 :=
  d.signExtend 64

def byDS (ds : BitVec 14) (_ : Registers R) : BitVec 64 :=
  (ds.signExtend 32 <<< 2).signExtend 64

def byReg (rb : Gpr) (r : Registers R) : BitVec 64 :=
  r.gpr rb

/- Memory takes the low half of an address. -/
abbrev low (ea : BitVec 64) : Ps3Uintptr := ea.setWidth 32

abbrev Handler (R : Type) :=
  MainMemory → Registers R → Option (MainMemory × Registers R)

def extend
    {w : Nat}
    (algebraic : Bool)
    (v : BitVec w) : BitVec 64 :=
  if algebraic then v.signExtend 64 else v.setWidth 64

def emulateLoad
    (len : AccessLen)
    (algebraic : Bool)
    (ra : Gpr)
    (offset : Registers R → BitVec 64)
    (rt : Gpr) : Handler R := fun mm r =>
  let ea := getB ra r + offset r
  (mm.load len (low ea)).map (fun v =>
    (mm, r.setGPR rt (extend algebraic v)))

def emulateLoadUpdate
    (len : AccessLen)
    (algebraic : Bool)
    (ra : Gpr)
    (offset : Registers R → BitVec 64)
    (rt : Gpr) : Handler R := fun mm r =>
  let ea := r.gpr ra + offset r
  (mm.load len (low ea)).map (fun v =>
    (mm, (r.setGPR rt (extend algebraic v)).setGPR ra ea))

def emulateStore
    (len : AccessLen)
    (ra : Gpr)
    (offset : Registers R → BitVec 64)
    (rs : Gpr)
    (granule : Option GranuleId) : Handler R := fun mm r =>
  let ea := getB ra r + offset r
  let value := (r.gpr rs).setWidth (8 * len.bytes)
  (mm.store len (low ea) value granule).map (fun mm => (mm, r))

def emulateStoreUpdate
    (len : AccessLen)
    (ra : Gpr)
    (offset : Registers R → BitVec 64)
    (rs : Gpr)
    (granule : Option GranuleId) : Handler R := fun mm r =>
  let ea := r.gpr ra + offset r
  let value := (r.gpr rs).setWidth (8 * len.bytes)
  (mm.store len (low ea) value granule).map (fun mm =>
    (mm, r.setGPR ra ea))

def emulateLbz (ra : Gpr) (d : BitVec 16) (rt : Gpr) : Handler R :=
  emulateLoad .one false ra (byD d) rt

def emulateLbzx (ra rb rt : Gpr) : Handler R :=
  emulateLoad .one false ra (byReg rb) rt

def emulateLbzu (ra : Gpr) (d : BitVec 16) (rt : Gpr) : Handler R :=
  emulateLoadUpdate .one false ra (byD d) rt

def emulateLbzux (ra rb rt : Gpr) : Handler R :=
  emulateLoadUpdate .one false ra (byReg rb) rt

def emulateLhz (ra : Gpr) (d : BitVec 16) (rt : Gpr) : Handler R :=
  emulateLoad .two false ra (byD d) rt

def emulateLhzx (ra rb rt : Gpr) : Handler R :=
  emulateLoad .two false ra (byReg rb) rt

def emulateLhzu (ra : Gpr) (d : BitVec 16) (rt : Gpr) : Handler R :=
  emulateLoadUpdate .two false ra (byD d) rt

def emulateLhzux (ra rb rt : Gpr) : Handler R :=
  emulateLoadUpdate .two false ra (byReg rb) rt

def emulateLha (ra : Gpr) (d : BitVec 16) (rt : Gpr) : Handler R :=
  emulateLoad .two true ra (byD d) rt

def emulateLhax (ra rb rt : Gpr) : Handler R :=
  emulateLoad .two true ra (byReg rb) rt

def emulateLhau (ra : Gpr) (d : BitVec 16) (rt : Gpr) : Handler R :=
  emulateLoadUpdate .two true ra (byD d) rt

def emulateLhaux (ra rb rt : Gpr) : Handler R :=
  emulateLoadUpdate .two true ra (byReg rb) rt

def emulateLwz (ra : Gpr) (d : BitVec 16) (rt : Gpr) : Handler R :=
  emulateLoad .four false ra (byD d) rt

def emulateLwzx (ra rb rt : Gpr) : Handler R :=
  emulateLoad .four false ra (byReg rb) rt

def emulateLwzu (ra : Gpr) (d : BitVec 16) (rt : Gpr) : Handler R :=
  emulateLoadUpdate .four false ra (byD d) rt

def emulateLwzux (ra rb rt : Gpr) : Handler R :=
  emulateLoadUpdate .four false ra (byReg rb) rt

def emulateLwa (ra : Gpr) (ds : BitVec 14) (rt : Gpr) : Handler R :=
  emulateLoad .four true ra (byDS ds) rt

def emulateLwax (ra rb rt : Gpr) : Handler R :=
  emulateLoad .four true ra (byReg rb) rt

def emulateLwaux (ra rb rt : Gpr) : Handler R :=
  emulateLoadUpdate .four true ra (byReg rb) rt

def emulateLd (ra : Gpr) (ds : BitVec 14) (rt : Gpr) : Handler R :=
  emulateLoad .eight false ra (byDS ds) rt

def emulateLdx (ra rb rt : Gpr) : Handler R :=
  emulateLoad .eight false ra (byReg rb) rt

def emulateLdu (ra : Gpr) (ds : BitVec 14) (rt : Gpr) : Handler R :=
  emulateLoadUpdate .eight false ra (byDS ds) rt

def emulateLdux (ra rb rt : Gpr) : Handler R :=
  emulateLoadUpdate .eight false ra (byReg rb) rt


def emulateStb (ra : Gpr) (d : BitVec 16) (rs : Gpr)
    (granule : Option GranuleId) : Handler R :=
  emulateStore .one ra (byD d) rs granule

def emulateStbx (ra rb rs : Gpr)
    (granule : Option GranuleId) : Handler R :=
  emulateStore .one ra (byReg rb) rs granule

def emulateStbu (ra : Gpr) (d : BitVec 16) (rs : Gpr)
    (granule : Option GranuleId) : Handler R :=
  emulateStoreUpdate .one ra (byD d) rs granule

def emulateStbux (ra rb rs : Gpr)
    (granule : Option GranuleId) : Handler R :=
  emulateStoreUpdate .one ra (byReg rb) rs granule

def emulateSth (ra : Gpr) (d : BitVec 16) (rs : Gpr)
    (granule : Option GranuleId) : Handler R :=
  emulateStore .two ra (byD d) rs granule

def emulateSthx (ra rb rs : Gpr)
    (granule : Option GranuleId) : Handler R :=
  emulateStore .two ra (byReg rb) rs granule

def emulateSthu (ra : Gpr) (d : BitVec 16) (rs : Gpr)
    (granule : Option GranuleId) : Handler R :=
  emulateStoreUpdate .two ra (byD d) rs granule

def emulateSthux (ra rb rs : Gpr)
    (granule : Option GranuleId) : Handler R :=
  emulateStoreUpdate .two ra (byReg rb) rs granule

def emulateStw (ra : Gpr) (d : BitVec 16) (rs : Gpr)
    (granule : Option GranuleId) : Handler R :=
  emulateStore .four ra (byD d) rs granule

def emulateStwx (ra rb rs : Gpr)
    (granule : Option GranuleId) : Handler R :=
  emulateStore .four ra (byReg rb) rs granule

def emulateStwu (ra : Gpr) (d : BitVec 16) (rs : Gpr)
    (granule : Option GranuleId) : Handler R :=
  emulateStoreUpdate .four ra (byD d) rs granule

def emulateStwux (ra rb rs : Gpr)
    (granule : Option GranuleId) : Handler R :=
  emulateStoreUpdate .four ra (byReg rb) rs granule

def emulateStd (ra : Gpr) (ds : BitVec 14) (rs : Gpr)
    (granule : Option GranuleId) : Handler R :=
  emulateStore .eight ra (byDS ds) rs granule

def emulateStdx (ra rb rs : Gpr)
    (granule : Option GranuleId) : Handler R :=
  emulateStore .eight ra (byReg rb) rs granule

def emulateStdu (ra : Gpr) (ds : BitVec 14) (rs : Gpr)
    (granule : Option GranuleId) : Handler R :=
  emulateStoreUpdate .eight ra (byDS ds) rs granule

def emulateStdux (ra rb rs : Gpr)
    (granule : Option GranuleId) : Handler R :=
  emulateStoreUpdate .eight ra (byReg rb) rs granule

/- The line is cleared for the granule of the thread. -/
def emulateDcbz (ra rb : Gpr)
    (granule : Option GranuleId) : Handler R := fun mm r =>
  let ea := getB ra r + r.gpr rb
  let line := ea &&& ~~~127#64
  (mm.setMemory (low line) 0 128 granule).map (fun mm => (mm, r))

/- The cases of the switch for these instructions. -/
def emulateScalar
    (granule : Option GranuleId)
    (x : BitVec 32) : MemoryInstr → Option (Handler R)
  | .lbz => some (emulateLbz (ra x) (d x) (rt x))
  | .lbzx => some (emulateLbzx (ra x) (rb x) (rt x))
  | .lbzu => some (emulateLbzu (ra x) (d x) (rt x))
  | .lbzux => some (emulateLbzux (ra x) (rb x) (rt x))
  | .lhz => some (emulateLhz (ra x) (d x) (rt x))
  | .lhzx => some (emulateLhzx (ra x) (rb x) (rt x))
  | .lhzu => some (emulateLhzu (ra x) (d x) (rt x))
  | .lhzux => some (emulateLhzux (ra x) (rb x) (rt x))
  | .lha => some (emulateLha (ra x) (d x) (rt x))
  | .lhax => some (emulateLhax (ra x) (rb x) (rt x))
  | .lhau => some (emulateLhau (ra x) (d x) (rt x))
  | .lhaux => some (emulateLhaux (ra x) (rb x) (rt x))
  | .lwz => some (emulateLwz (ra x) (d x) (rt x))
  | .lwzx => some (emulateLwzx (ra x) (rb x) (rt x))
  | .lwzu => some (emulateLwzu (ra x) (d x) (rt x))
  | .lwzux => some (emulateLwzux (ra x) (rb x) (rt x))
  | .lwa => some (emulateLwa (ra x) (ds x) (rt x))
  | .lwax => some (emulateLwax (ra x) (rb x) (rt x))
  | .lwaux => some (emulateLwaux (ra x) (rb x) (rt x))
  | .ld => some (emulateLd (ra x) (ds x) (rt x))
  | .ldx => some (emulateLdx (ra x) (rb x) (rt x))
  | .ldu => some (emulateLdu (ra x) (ds x) (rt x))
  | .ldux => some (emulateLdux (ra x) (rb x) (rt x))
  | .stb => some (emulateStb (ra x) (d x) (rs x) granule)
  | .stbx => some (emulateStbx (ra x) (rb x) (rs x) granule)
  | .stbu => some (emulateStbu (ra x) (d x) (rs x) granule)
  | .stbux => some (emulateStbux (ra x) (rb x) (rs x) granule)
  | .sth => some (emulateSth (ra x) (d x) (rs x) granule)
  | .sthx => some (emulateSthx (ra x) (rb x) (rs x) granule)
  | .sthu => some (emulateSthu (ra x) (d x) (rs x) granule)
  | .sthux => some (emulateSthux (ra x) (rb x) (rs x) granule)
  | .stw => some (emulateStw (ra x) (d x) (rs x) granule)
  | .stwx => some (emulateStwx (ra x) (rb x) (rs x) granule)
  | .stwu => some (emulateStwu (ra x) (d x) (rs x) granule)
  | .stwux => some (emulateStwux (ra x) (rb x) (rs x) granule)
  | .std => some (emulateStd (ra x) (ds x) (rs x) granule)
  | .stdx => some (emulateStdx (ra x) (rb x) (rs x) granule)
  | .stdu => some (emulateStdu (ra x) (ds x) (rs x) granule)
  | .stdux => some (emulateStdux (ra x) (rb x) (rs x) granule)
  | .dcbz => some (emulateDcbz (ra x) (rb x) granule)
  | _ => none

def emulateWord
    (granule : Option GranuleId)
    (x : BitVec 32) : Option (Handler R) :=
  match decode x with
  | some (.memory i) => emulateScalar granule x i
  | _ => none

------------------------------------------------------------
-- Specification
------------------------------------------------------------

inductive Kind where
  | load (len : AccessLen) (algebraic : Bool)
  | store (len : AccessLen)
  | zero

inductive Addressing where
  | d | ds | x

/- What the name of an instruction says. -/
structure Access where
  kind : Kind
  addressing : Addressing
  update : Bool

def access? : MemoryInstr → Option Access
  | .lbz => some ⟨.load .one false, .d, false⟩
  | .lbzx => some ⟨.load .one false, .x, false⟩
  | .lbzu => some ⟨.load .one false, .d, true⟩
  | .lbzux => some ⟨.load .one false, .x, true⟩
  | .lhz => some ⟨.load .two false, .d, false⟩
  | .lhzx => some ⟨.load .two false, .x, false⟩
  | .lhzu => some ⟨.load .two false, .d, true⟩
  | .lhzux => some ⟨.load .two false, .x, true⟩
  | .lha => some ⟨.load .two true, .d, false⟩
  | .lhax => some ⟨.load .two true, .x, false⟩
  | .lhau => some ⟨.load .two true, .d, true⟩
  | .lhaux => some ⟨.load .two true, .x, true⟩
  | .lwz => some ⟨.load .four false, .d, false⟩
  | .lwzx => some ⟨.load .four false, .x, false⟩
  | .lwzu => some ⟨.load .four false, .d, true⟩
  | .lwzux => some ⟨.load .four false, .x, true⟩
  | .lwa => some ⟨.load .four true, .ds, false⟩
  | .lwax => some ⟨.load .four true, .x, false⟩
  | .lwaux => some ⟨.load .four true, .x, true⟩
  | .ld => some ⟨.load .eight false, .ds, false⟩
  | .ldx => some ⟨.load .eight false, .x, false⟩
  | .ldu => some ⟨.load .eight false, .ds, true⟩
  | .ldux => some ⟨.load .eight false, .x, true⟩
  | .stb => some ⟨.store .one, .d, false⟩
  | .stbx => some ⟨.store .one, .x, false⟩
  | .stbu => some ⟨.store .one, .d, true⟩
  | .stbux => some ⟨.store .one, .x, true⟩
  | .sth => some ⟨.store .two, .d, false⟩
  | .sthx => some ⟨.store .two, .x, false⟩
  | .sthu => some ⟨.store .two, .d, true⟩
  | .sthux => some ⟨.store .two, .x, true⟩
  | .stw => some ⟨.store .four, .d, false⟩
  | .stwx => some ⟨.store .four, .x, false⟩
  | .stwu => some ⟨.store .four, .d, true⟩
  | .stwux => some ⟨.store .four, .x, true⟩
  | .std => some ⟨.store .eight, .ds, false⟩
  | .stdx => some ⟨.store .eight, .x, false⟩
  | .stdu => some ⟨.store .eight, .ds, true⟩
  | .stdux => some ⟨.store .eight, .x, true⟩
  | .dcbz => some ⟨.zero, .x, false⟩
  | _ => none

namespace Access

/- Two zeros follow the bits of a DS displacement. -/
def offset (a : Access) (x : BitVec 32) (r : Registers R) :
    BitVec 64 :=
  match a.addressing with
  | .d => (d x).signExtend 64
  | .ds => (ds x ++ 0#2).signExtend 64
  | .x => r.gpr (rb x)

/- Register 0 is a base only where the base is updated. -/
def base (a : Access) (x : BitVec 32) (r : Registers R) :
    BitVec 64 :=
  if a.update = false ∧ ra x = 0#5 then 0#64 else r.gpr (ra x)

def ea (a : Access) (x : BitVec 32) (r : Registers R) :
    BitVec 64 :=
  a.base x r + a.offset x r

/- The first address that is accessed, and how many are. -/
def start (a : Access) (x : BitVec 32) (r : Registers R) :
    Ps3Uintptr :=
  match a.kind with
  | .zero => low (a.ea x r) &&& ~~~127#32
  | .load _ _ | .store _ => low (a.ea x r)

def bytes (a : Access) : Nat :=
  match a.kind with
  | .load len _ => len.bytes
  | .store len => len.bytes
  | .zero => 128

/- The base register after the instruction. -/
def updated (a : Access) (x : BitVec 32)
    (r r' : Registers R) : Registers R :=
  if a.update = true then r'.setGPR (ra x) (a.ea x r) else r'

end Access

/- What the instruction set says of the access. -/
def Access.Result
    (a : Access)
    (x : BitVec 32)
    (mm : MainMemory)
    (r : Registers R)
    (out : MainMemory × Registers R) : Prop :=
  match a.kind with
  | .load len algebraic =>
      out.1 = mm ∧
        out.2 =
          a.updated x r
            (r.setGPR (rt x)
              (extend algebraic
                (Bytes.ofBigEndian len.bytes
                  (mm.bytesAt (a.start x r) len.bytes))))
  | .store len =>
      mm.Puts out.1 (a.start x r)
          (Bytes.bigEndian
            ((r.gpr (rs x)).setWidth (8 * len.bytes))) ∧
        out.2 = a.updated x r r
  | .zero =>
      mm.Puts out.1 (a.start x r) (List.replicate 128 0) ∧
        out.2 = r

def Follows
    (granule : Option GranuleId)
    (i : MemoryInstr)
    (x : BitVec 32)
    (mm : MainMemory)
    (r : Registers R) : Prop :=
  ∃ handler a out,
    emulateWord granule x = some handler ∧
      access? i = some a ∧
        handler mm r = some out ∧ a.Result x mm r out

/- A load into its base register that is updated after it. -/
def Access.Overwritten (a : Access) (x : BitVec 32) : Prop :=
  a.update = true ∧ rt x = ra x ∧
    ∃ len algebraic, a.kind = .load len algebraic

------------------------------------------------------------
-- Results
------------------------------------------------------------

/- The handler that the parts of a name describe. -/
def Access.handler
    (a : Access)
    (granule : Option GranuleId)
    (x : BitVec 32) : Handler R :=
  let offset : Registers R → BitVec 64 :=
    match a.addressing with
    | .d => byD (d x)
    | .ds => byDS (ds x)
    | .x => byReg (rb x)
  match a.kind, a.update with
  | .load len algebraic, false =>
      emulateLoad len algebraic (ra x) offset (rt x)
  | .load len algebraic, true =>
      emulateLoadUpdate len algebraic (ra x) offset (rt x)
  | .store len, false =>
      emulateStore len (ra x) offset (rs x) granule
  | .store len, true =>
      emulateStoreUpdate len (ra x) offset (rs x) granule
  | .zero, _ => emulateDcbz (ra x) (rb x) granule

variable {granule : Option GranuleId} {i : MemoryInstr} {x : BitVec 32}
variable {a : Access}
variable {mm : MainMemory} {r : Registers R}

/- Every case of the switch is what its name says. -/
theorem emulateScalar_eq (hAccess : access? i = some a) :
    emulateScalar granule x i =
      some (a.handler granule x : Handler R) := by
  cases i <;>
    first
    | (obtain rfl := Option.some.inj hAccess; rfl)
    | cases hAccess

theorem emulateWord_eq
    (hDecode : decode x = some (.memory i))
    (hAccess : access? i = some a) :
    emulateWord granule x =
      some (a.handler granule x : Handler R) := by
  rw [emulateWord, hDecode]
  exact emulateScalar_eq hAccess

theorem byDS_eq (ds : BitVec 14) (r : Registers R) :
    byDS ds r = (ds ++ 0#2).signExtend 64 := by
  apply BitVec.eq_of_getLsbD_eq
  intro k hK
  simp only [byDS, BitVec.getLsbD_signExtend,
    BitVec.getLsbD_shiftLeft, BitVec.getLsbD_append,
    BitVec.msb_eq_getLsbD_last]
  have hSub : k - 2 < 14 → k < 16 := by omega
  by_cases hLow : k < 2
  · have hWord : k < 32 := by omega
    have hHalf : k < 16 := by omega
    simp [hLow, hWord, hHalf]
  · by_cases hHigh : k < 16
    · have hIn : k - 2 < 14 := by omega
      have hIn' : k - 2 < 32 := by omega
      have hWord : k < 32 := by omega
      simp [hLow, hHigh, hIn, hIn', hWord, hK]
    · by_cases hWord : k < 32
      · have hOut : ¬ k - 2 < 14 := by omega
        have hIn' : k - 2 < 32 := by omega
        simp [hLow, hHigh, hOut, hIn', hWord, hK]
      · simp [hHigh, hWord, hK]

variable {len : AccessLen} {algebraic : Bool}

theorem Access.offset_eq :
    a.offset x r =
      (match a.addressing with
        | .d => byD (d x)
        | .ds => byDS (ds x)
        | .x => byReg (rb x)) r := by
  unfold offset
  cases a.addressing with
  | d => rfl
  | ds => exact (byDS_eq (ds x) r).symm
  | x => rfl

theorem Access.base_plain (hUpdate : a.update = false) :
    a.base x r = getB (ra x) r := by
  simp only [base, getB, hUpdate, true_and]

theorem Access.base_update (hUpdate : a.update = true) :
    a.base x r = r.gpr (ra x) := by
  simp only [base, hUpdate, Bool.true_eq_false, false_and,
    if_false]

theorem handler_load
    (hKind : a.kind = .load len algebraic) :
    a.handler granule x mm r =
      (mm.load len (a.start x r)).map (fun v =>
        (mm,
          a.updated x r
            (r.setGPR (rt x) (extend algebraic v)))) := by
  have hStart : a.start x r = low (a.ea x r) := by
    rw [Access.start, hKind]
  rw [hStart]
  unfold Access.handler Access.ea Access.updated
  rw [hKind, Access.offset_eq]
  cases hUpdate : a.update with
  | false =>
      rw [Access.base_plain hUpdate]
      rfl
  | true =>
      simp only [Access.ea, Access.base_update hUpdate,
        Access.offset_eq]
      rfl

theorem handler_store (hKind : a.kind = .store len) :
    a.handler granule x mm r =
      (mm.store len (a.start x r)
          ((r.gpr (rs x)).setWidth (8 * len.bytes))
          granule).map
        (fun mm => (mm, a.updated x r r)) := by
  have hStart : a.start x r = low (a.ea x r) := by
    rw [Access.start, hKind]
  rw [hStart]
  unfold Access.handler Access.ea Access.updated
  rw [hKind, Access.offset_eq]
  cases hUpdate : a.update with
  | false =>
      rw [Access.base_plain hUpdate]
      rfl
  | true =>
      simp only [Access.ea, Access.base_update hUpdate,
        Access.offset_eq]
      rfl

theorem low_line (ea : BitVec 64) :
    low (ea &&& ~~~127#64) = low ea &&& ~~~127#32 := by
  rw [low, BitVec.setWidth_and]
  rfl

theorem handler_zero
    (hKind : a.kind = .zero)
    (hPlain : a.addressing = .x ∧ a.update = false) :
    a.handler granule x mm r =
      (mm.writeMemory (a.start x r) (List.replicate 128 0)
          granule).map
        (fun mm => (mm, r)) := by
  have hEa : a.ea x r = getB (ra x) r + r.gpr (rb x) := by
    rw [Access.ea, Access.base_plain hPlain.2, Access.offset,
      hPlain.1]
  have hStart :
      a.start x r =
        low ((getB (ra x) r + r.gpr (rb x)) &&& ~~~127#64)
      := by
    rw [Access.start, hKind, hEa, low_line]
  rw [hStart]
  unfold Access.handler
  rw [hKind]
  rfl

/- The clearing has one form; what is loaded fits a register. -/
theorem of_access? (hAccess : access? i = some a) :
    match a.kind with
    | .load len _ => len.bytes ≤ 8
    | .store _ => True
    | .zero => a.addressing = .x ∧ a.update = false := by
  cases i <;>
    first
    | (obtain rfl := Option.some.inj hAccess
       first
       | decide
       | exact trivial
       | exact ⟨rfl, rfl⟩)
    | cases hAccess

theorem contiguous_line
    (m : MainMemory)
    (va : Ps3Uintptr) :
    Flat.Contiguous m (va &&& ~~~127#32) 128 := by
  left
  rw [VirtualAddress.offset_eq, defaultMainMemoryPageSize_eq]
  have hLine : (va &&& ~~~127#32).toNat % 128 = 0 := by
    have hHigh : (va &&& ~~~127#32).toNat =
        va.toNat / 2 ^ 7 * 2 ^ 7 :=
      Masks.toNat_and_high va 7 (by omega)
    rw [hHigh]
    exact Nat.mul_mod_left _ _
  omega

/- Whatever memory holds, an access to one page is right. -/
theorem follows_of_contiguous
    (hDecode : decode x = some (.memory i))
    (hAccess : access? i = some a)
    (hRam : Flat.InRam mm (a.start x r) a.bytes)
    (hContiguous :
      Flat.Contiguous mm (a.start x r) a.bytes) :
    Follows granule i x mm r := by
  have hForm := of_access? hAccess
  unfold Access.bytes at hRam hContiguous
  cases hKind : a.kind with
  | load len algebraic =>
      rw [hKind] at hRam hContiguous
      refine
        ⟨_, a,
          (mm,
            a.updated x r
              (r.setGPR (rt x)
                (extend algebraic
                  (Bytes.ofBigEndian len.bytes
                    (mm.bytesAt (a.start x r) len.bytes))))),
          emulateWord_eq hDecode hAccess, hAccess, ?_, ?_⟩
      · rw [handler_load hKind,
          Flat.load_eq_bytesAt len hRam hContiguous]
        rfl
      · rw [Access.Result, hKind]
        exact ⟨rfl, rfl⟩
  | store len =>
      rw [hKind] at hRam hContiguous
      rcases Flat.store_puts len
          ((r.gpr (rs x)).setWidth (8 * len.bytes)) granule
          hRam hContiguous with ⟨mm', hStore, hPuts⟩
      refine
        ⟨_, a, (mm', a.updated x r r),
          emulateWord_eq hDecode hAccess, hAccess, ?_, ?_⟩
      · rw [handler_store hKind, hStore]
        rfl
      · rw [Access.Result, hKind]
        exact ⟨hPuts, rfl⟩
  | zero =>
      rw [hKind] at hRam hForm
      rcases @Flat.writeMemory_puts mm (a.start x r)
          (List.replicate 128 0) granule
          (by rw [List.length_replicate]; exact hRam) with
        ⟨mm', hWrite, hPuts⟩
      refine
        ⟨_, a, (mm', r), emulateWord_eq hDecode hAccess, hAccess,
          ?_, ?_⟩
      · rw [handler_zero hKind hForm, hWrite]
        rfl
      · rw [Access.Result, hKind]
        exact ⟨hPuts, rfl⟩

------------------------------------------------------------
-- Accesses that Must Lie Together
------------------------------------------------------------

theorem extend_injective
    {w : Nat}
    {u v : BitVec w}
    (hWidth : w ≤ 64)
    (hExtend : extend algebraic u = extend algebraic v) :
    u = v := by
  apply BitVec.eq_of_getLsbD_eq
  intro k hK
  have hBit := congrArg (fun v => v.getLsbD k) hExtend
  have hIn : k < 64 := by omega
  cases algebraic with
  | false => simpa [extend, hK, hIn] using hBit
  | true =>
      change
        (u.signExtend 64).getLsbD k = (v.signExtend 64).getLsbD k
        at hBit
      simpa only [BitVec.getLsbD_signExtend, hIn, hK,
        decide_true, Bool.true_and, if_true] using hBit

theorem result_of_follows
    (hDecode : decode x = some (.memory i))
    (hAccess : access? i = some a)
    (hFollows : Follows granule i x mm r) :
    ∃ out,
      a.handler granule x mm r = some out ∧
        a.Result x mm r out := by
  rcases hFollows with
    ⟨handler, b, out, hHandler, hB, hOut, hResult⟩
  obtain rfl := Option.some.inj (hAccess.symm.trans hB)
  rw [emulateWord_eq hDecode hAccess, Option.some.injEq]
    at hHandler
  obtain rfl := hHandler
  exact ⟨out, hOut, hResult⟩

/- What is loaded is seen unless the base overwrites it. -/
theorem loaded_of_updated
    {u v : BitVec 64}
    (hKind : a.kind = .load len algebraic)
    (hNot : ¬ a.Overwritten x)
    (hUpdated :
      a.updated x r (r.setGPR (rt x) u) =
        a.updated x r (r.setGPR (rt x) v)) :
    u = v := by
  have hGpr := congrArg (fun r => r.gpr (rt x)) hUpdated
  unfold Access.updated at hGpr
  cases hUpdate : a.update with
  | false =>
      simpa [hUpdate] using hGpr
  | true =>
      have hOther : rt x ≠ ra x := by
        intro hSame
        exact hNot ⟨hUpdate, hSame, len, algebraic, hKind⟩
      simpa [hUpdate, Registers.setGPR,
        Function.update_of_ne hOther] using hGpr

theorem updated_of_overwritten
    (hOver : a.Overwritten x)
    (u v : BitVec 64) :
    a.updated x r (r.setGPR (rt x) u) =
      a.updated x r (r.setGPR (rt x) v) := by
  rcases hOver with ⟨hUpdate, hSame, -⟩
  rw [Access.updated, Access.updated, hUpdate, hSame]
  simp [Registers.setGPR]

theorem load_of_follows
    (hDecode : decode x = some (.memory i))
    (hAccess : access? i = some a)
    (hKind : a.kind = .load len algebraic)
    (hNot : ¬ a.Overwritten x)
    (hFollows : Follows granule i x mm r) :
    mm.load len (a.start x r) =
      some
        (Bytes.ofBigEndian len.bytes
          (mm.bytesAt (a.start x r) len.bytes)) := by
  have hForm := of_access? hAccess
  rw [hKind] at hForm
  rcases result_of_follows hDecode hAccess hFollows with
    ⟨out, hOut, hResult⟩
  rw [handler_load hKind] at hOut
  rcases Option.map_eq_some_iff.mp hOut with ⟨v, hLoad, rfl⟩
  rw [Access.Result, hKind] at hResult
  have hLoaded := loaded_of_updated hKind hNot hResult.2
  rw [hLoad, extend_injective (by omega) hLoaded]

theorem contiguous_of_follows
    (hDecode : decode x = some (.memory i))
    (hAccess : access? i = some a)
    (hRam : Flat.InRam mm (a.start x r) a.bytes)
    (hNot : ¬ a.Overwritten x)
    (hAll :
      ∀ host,
        Follows granule i x { mm with host := host } r) :
    Flat.Contiguous mm (a.start x r) a.bytes := by
  unfold Access.bytes at hRam ⊢
  cases hKind : a.kind with
  | load len algebraic =>
      rw [hKind] at hRam
      exact
        Flat.contiguous_of_loads hRam (fun host =>
          load_of_follows hDecode hAccess hKind hNot (hAll host))
  | store len =>
      rw [hKind] at hRam
      have hStores :
          ∀ host : HostMemory, ∃ mm',
            MainMemory.store { mm with host := host } len
                (a.start x r)
                ((r.gpr (rs x)).setWidth (8 * len.bytes))
                granule =
              some mm' ∧
            mm'.bytesAt (a.start x r) len.bytes =
              Bytes.bigEndian
                ((r.gpr (rs x)).setWidth (8 * len.bytes)) := by
        intro host
        rcases result_of_follows hDecode hAccess (hAll host) with
          ⟨out, hOut, hResult⟩
        rw [handler_store hKind] at hOut
        rcases Option.map_eq_some_iff.mp hOut with
          ⟨mm', hStore, rfl⟩
        rw [Access.Result, hKind] at hResult
        have hBytes := hResult.1.2.1
        rw [Bytes.length_bigEndian] at hBytes
        exact ⟨mm', hStore, hBytes⟩
      exact Flat.contiguous_of_stores hRam hStores
  | zero =>
      rw [Access.start, hKind]
      exact contiguous_line mm _

theorem follows_of_overwritten
    (hDecode : decode x = some (.memory i))
    (hAccess : access? i = some a)
    (hRam : Flat.InRam mm (a.start x r) a.bytes)
    (hOver : a.Overwritten x) :
    Follows granule i x mm r := by
  rcases hOver with ⟨hUpdate, hSame, len, algebraic, hKind⟩
  have hBytes : a.bytes = len.bytes := by
    rw [Access.bytes, hKind]
  rw [hBytes] at hRam
  rcases hRam.pointer len.bytes_pos with ⟨p, hP⟩
  have hLoad :=
    MainMemory.load_eq mm len (a.start x r)
      (mm.toNat_lt_of_pointer hP)
  rw [hP, Option.map_some] at hLoad
  refine
    ⟨_, a, _, emulateWord_eq hDecode hAccess, hAccess,
      (handler_load hKind).trans
        (congrArg (Option.map _) hLoad), ?_⟩
  rw [Access.Result, hKind]
  exact
    ⟨rfl,
      updated_of_overwritten
        ⟨hUpdate, hSame, len, algebraic, hKind⟩ _ _⟩

/-
  Whatever memory holds, a load or a store is right when its
  bytes lie together in host memory; a load into a base
  register that is updated is right wherever they lie.
-/
theorem follows_iff
    (granule : Option GranuleId)
    (i : MemoryInstr)
    (x : BitVec 32)
    (a : Access)
    (mm : MainMemory)
    (r : Registers R)
    (hDecode : decode x = some (.memory i))
    (hAccess : access? i = some a)
    (hRam : Flat.InRam mm (a.start x r) a.bytes) :
    (∀ host,
        Follows granule i x { mm with host := host } r) ↔
      Flat.Contiguous mm (a.start x r) a.bytes ∨
        a.Overwritten x := by
  constructor
  · intro hAll
    by_cases hOver : a.Overwritten x
    · exact .inr hOver
    · exact
        .inl (contiguous_of_follows hDecode hAccess hRam hOver hAll)
  · intro hWhen host
    cases hWhen with
    | inl hContiguous =>
        apply follows_of_contiguous hDecode hAccess
        · exact hRam
        · exact hContiguous
    | inr hOver =>
        apply follows_of_overwritten hDecode hAccess
        · exact hRam
        · exact hOver

/- An address in register 3, all ones in register 4. -/
def addressing (va : BitVec 64) : Registers Unit :=
  { cleared.regs with
    gpr := fun i =>
      if i = 3#5 then va
      else if i = 4#5 then BitVec.allOnes 64
      else 0#64 }

/- stw r4,0(r3). -/
def storeWord : BitVec 32 := 0x90830000#32

theorem decode_storeWord :
    decode storeWord = some (.memory .stw) := by
  decide

def accessWord : Access := ⟨.store .four, .d, false⟩

theorem start_storeWord (va : BitVec 64) :
    accessWord.start storeWord (addressing va) = low va := by
  have hBase :
      accessWord.base storeWord (addressing va) = va := rfl
  have hOffset :
      accessWord.offset storeWord (addressing va) = 0#64 := rfl
  rw [Access.start]
  change low (Access.ea _ _ _) = _
  rw [Access.ea, hBase, hOffset, BitVec.add_zero]

theorem follows_iff_stw :
    (∀ host,
        Follows none .stw storeWord
          { MainMemory.reset with host := host }
          (addressing 0x100000#64)) ↔
      Flat.Contiguous MainMemory.reset
          (accessWord.start storeWord
            (addressing 0x100000#64))
          accessWord.bytes ∨
        accessWord.Overwritten storeWord :=
  follows_iff none .stw storeWord accessWord MainMemory.reset
    (addressing 0x100000#64) decode_storeWord rfl
    (by rw [start_storeWord]; unfold Flat.InRam; decide)

/- Two bytes of the word belong to the next page. -/
theorem stw_not_follows :
    ¬ ∀ (granule : Option GranuleId)
        (i : MemoryInstr)
        (x : BitVec 32)
        (a : Access)
        (mm : MainMemory)
        (r : Registers Unit),
        decode x = some (.memory i) →
          access? i = some a →
            Flat.InRam mm (a.start x r) a.bytes →
              Follows granule i x mm r := by
  intro hAll
  have hRam :
      Flat.InRam MainMemory.reset
        (accessWord.start storeWord (addressing 0x1ffffe#64))
        accessWord.bytes := by
    rw [start_storeWord]
    unfold Flat.InRam
    decide
  have hFollows :=
    hAll none .stw storeWord accessWord MainMemory.reset
      (addressing 0x1ffffe#64) decode_storeWord rfl hRam
  obtain ⟨out, hOut, hResult⟩ :
      ∃ out, accessWord.handler none storeWord _ _ = some out ∧ _ :=
    result_of_follows decode_storeWord rfl hFollows
  have hKind : accessWord.kind = .store .four := rfl
  rw [handler_store hKind,
    start_storeWord] at hOut
  rcases Option.map_eq_some_iff.mp hOut with
    ⟨mm', hStore, rfl⟩
  have hKept :=
    Flat.byte_store_of_split (a := 0x200000#32)
      (p := ⟨1, 0xffffe⟩) (q := ⟨2, 0⟩) .four _ none rfl rfl
      (by decide) hStore
  have hBytes := hResult.1.2.1
  rw [Bytes.length_bigEndian, start_storeWord] at hBytes
  have hByte := congrArg (fun bytes => bytes[2]?) hBytes
  have hNext :
      low 0x1ffffe#64 + BitVec.ofNat 32 2 = 0x200000#32 := by
    decide
  dsimp only at hByte
  rw [mm'.getElem?_bytesAt _ (by decide), hNext, hKept] at hByte
  revert hByte
  decide

end Ppu

end Ps3emu
