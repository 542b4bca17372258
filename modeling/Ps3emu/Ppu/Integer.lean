import Mathlib.Algebra.Group.Nat.Defs
import Ps3emu.Ppu.Instruction
import Ps3emu.Ppu.Thread

/-
  The instructions of the fixed-point unit, on the registers
  of a thread.

  Key definitions include:
    * `Fault`
    * `updateCR0`, `updateCR0OV`
    * `emulateAdd`, `emulateDivd`, `emulateRlwinm`, ...
    * `emulateInteger`
-/

------------------------------------------------------------
-- Sums and Differences
------------------------------------------------------------

namespace Ps3emu

namespace Ppu

/-
  Why an instruction has no result.  `undefined` stands for
  an operation that the host does not define.
-/
inductive Fault where
  | illegalInstruction
  | breakpoint
  | memoryAccess
  | assertion
  | undefined
  | other
deriving DecidableEq

variable {R : Type}

/- The sign bits of a comparison with zero. -/
def updateCR0
    (result : BitVec 64)
    (r : Registers R) : Registers R :=
  r.setCRFSign 0#3
    (if result.slt 0#64 then 4#8
      else if (0#64).slt result then 2#8
      else 1#8)

def updateCR0OV
    (oe rc ov : Bool)
    (result : BitVec 64)
    (r : Registers R) : Registers R :=
  let r := if oe && ov then r.setOV else r
  if rc then updateCR0 result r else r

/- Writes a register, and field 0 if `rc` says so. -/
def setRecorded
    (i : Gpr)
    (rc : Bool)
    (result : BitVec 64)
    (r : Registers R) : Registers R :=
  let r := r.setGPR i result
  if rc then updateCR0 result r else r

/- Register 0 stands for the number zero. -/
def getB
    (i : Gpr)
    (r : Registers R) : BitVec 64 :=
  if i = 0#5 then 0#64 else r.gpr i

/- The largest value of 64 bits, as one of 128. -/
def maxWord : BitVec 128 := 0xffffffffffffffff#128

def emulateAddi
    (ra : Gpr)
    (si : BitVec 16)
    (rt : Gpr)
    (r : Registers R) : Registers R :=
  r.setGPR rt (si.signExtend 64 + getB ra r)

def emulateAddis
    (ra : Gpr)
    (si : BitVec 16)
    (rt : Gpr)
    (r : Registers R) : Registers R :=
  r.setGPR rt
    ((si.setWidth 32 <<< 16).signExtend 64 + getB ra r)

def emulateAdd
    (ra rb rt : Gpr)
    (oe rc : Bool)
    (r : Registers R) : Registers R :=
  let res :=
    (r.gpr ra).setWidth 128 + (r.gpr rb).setWidth 128
  let ov := decide (maxWord < res)
  updateCR0OV oe rc ov (res.setWidth 64)
    (r.setGPR rt (res.setWidth 64))

def emulateAddze
    (ra rt : Gpr)
    (oe rc : Bool)
    (r : Registers R) : Registers R :=
  let res :=
    (r.gpr ra).setWidth 128 +
      (BitVec.ofBool r.getCA).setWidth 128
  let ov := decide (maxWord < res)
  updateCR0OV oe rc ov (res.setWidth 64)
    (r.setGPR rt (res.setWidth 64))

def emulateSubf
    (ra rb : Gpr)
    (oe : Bool)
    (rt : Gpr)
    (rc : Bool)
    (r : Registers R) : Registers R :=
  let res := r.gpr rb - r.gpr ra
  let ov := oe && BitVec.usubOverflow (r.gpr rb) (r.gpr ra)
  updateCR0OV oe rc ov res (r.setGPR rt res)

def emulateAddic
    (ra : Gpr)
    (si : BitVec 16)
    (rt : Gpr)
    (r : Registers R) : Registers R :=
  let si := si.signExtend 64
  let ov := BitVec.uaddOverflow (r.gpr ra) si
  (r.setGPR rt (r.gpr ra + si)).setCA ov

def emulateAddicd
    (ra : Gpr)
    (si : BitVec 16)
    (rt : Gpr)
    (r : Registers R) : Registers R :=
  let si := si.signExtend 64
  let res := r.gpr ra + si
  let ov := BitVec.uaddOverflow (r.gpr ra) si
  updateCR0 res ((r.setGPR rt res).setCA ov)

def emulateSubfic
    (ra : Gpr)
    (si : BitVec 16)
    (rt : Gpr)
    (r : Registers R) : Registers R :=
  let si := si.signExtend 64
  let ov := BitVec.ssubOverflow si (r.gpr ra)
  (r.setGPR rt (si - r.gpr ra)).setCA ov

def emulateAddc
    (ra rb rt : Gpr)
    (oe rc : Bool)
    (r : Registers R) : Registers R :=
  let res :=
    (r.gpr ra).setWidth 128 + (r.gpr rb).setWidth 128
  let ca := (res >>> 64).getLsbD 0
  updateCR0OV oe rc ca (res.setWidth 64)
    ((r.setCA ca).setGPR rt (res.setWidth 64))

def emulateSubfc
    (ra rb rt : Gpr)
    (oe rc : Bool)
    (r : Registers R) : Registers R :=
  let res :=
    (~~~(r.gpr ra)).setWidth 128 +
      (r.gpr rb).setWidth 128 + 1#128
  let ca := (res >>> 64).getLsbD 0
  updateCR0OV oe rc ca (res.setWidth 64)
    ((r.setCA ca).setGPR rt (res.setWidth 64))

def emulateSubfe
    (ra rb rt : Gpr)
    (oe rc : Bool)
    (r : Registers R) : Registers R :=
  let res :=
    (~~~(r.gpr ra)).setWidth 128 +
      (r.gpr rb).setWidth 128 +
        (BitVec.ofBool r.getCA).setWidth 128
  let ca := (res >>> 64).getLsbD 0
  updateCR0OV oe rc ca (res.setWidth 64)
    ((r.setCA ca).setGPR rt (res.setWidth 64))

def emulateNeg
    (ra rt : Gpr)
    (oe rc : Bool)
    (r : Registers R) : Registers R :=
  let ov := decide (r.gpr ra = 1#64 <<< 63)
  let res := if ov then r.gpr ra else ~~~(r.gpr ra) + 1#64
  updateCR0OV oe rc ov res (r.setGPR rt res)

------------------------------------------------------------
-- Logical Instructions
------------------------------------------------------------

/- The two that record do so before the register is written. -/
def emulateAndid
    (ui : BitVec 16)
    (rs ra : Gpr)
    (r : Registers R) : Registers R :=
  let res := r.gpr rs &&& ui.setWidth 64
  (updateCR0 res r).setGPR ra res

def emulateAndisd
    (ui : BitVec 16)
    (rs ra : Gpr)
    (r : Registers R) : Registers R :=
  let res :=
    r.gpr rs &&& (ui.setWidth 32 <<< 16).setWidth 64
  (updateCR0 res r).setGPR ra res

def emulateOri
    (ui : BitVec 16)
    (rs ra : Gpr)
    (r : Registers R) : Registers R :=
  r.setGPR ra (r.gpr rs ||| ui.setWidth 64)

def emulateOris
    (ui : BitVec 16)
    (rs ra : Gpr)
    (r : Registers R) : Registers R :=
  r.setGPR ra
    (r.gpr rs ||| (ui.setWidth 32 <<< 16).setWidth 64)

def emulateXori
    (ui : BitVec 16)
    (rs ra : Gpr)
    (r : Registers R) : Registers R :=
  r.setGPR ra (r.gpr rs ^^^ ui.setWidth 64)

def emulateXoris
    (ui : BitVec 16)
    (rs ra : Gpr)
    (r : Registers R) : Registers R :=
  r.setGPR ra
    (r.gpr rs ^^^ (ui.setWidth 32 <<< 16).setWidth 64)

/- What the logical instructions on two registers share. -/
def emulateLogical
    (op : BitVec 64 → BitVec 64 → BitVec 64)
    (rs rb ra : Gpr)
    (rc : Bool)
    (r : Registers R) : Registers R :=
  setRecorded ra rc (op (r.gpr rs) (r.gpr rb)) r

def emulateAnd (rs rb ra : Gpr) (rc : Bool) :
    Registers R → Registers R :=
  emulateLogical (fun s b => s &&& b) rs rb ra rc

def emulateOr (rs rb ra : Gpr) (rc : Bool) :
    Registers R → Registers R :=
  emulateLogical (fun s b => s ||| b) rs rb ra rc

def emulateXor (rs rb ra : Gpr) (rc : Bool) :
    Registers R → Registers R :=
  emulateLogical (fun s b => s ^^^ b) rs rb ra rc

def emulateNand (rs rb ra : Gpr) (rc : Bool) :
    Registers R → Registers R :=
  emulateLogical (fun s b => ~~~(s &&& b)) rs rb ra rc

def emulateNor (rs rb ra : Gpr) (rc : Bool) :
    Registers R → Registers R :=
  emulateLogical (fun s b => ~~~(s ||| b)) rs rb ra rc

def emulateEqv (rs rb ra : Gpr) (rc : Bool) :
    Registers R → Registers R :=
  emulateLogical (fun s b => ~~~(s ^^^ b)) rs rb ra rc

def emulateAndc (rs rb ra : Gpr) (rc : Bool) :
    Registers R → Registers R :=
  emulateLogical (fun s b => s &&& ~~~b) rs rb ra rc

def emulateOrc (rs rb ra : Gpr) (rc : Bool) :
    Registers R → Registers R :=
  emulateLogical (fun s b => s ||| ~~~b) rs rb ra rc

/- The extensions of the sign do not look at `Rc`. -/
def emulateExtsb
    (rs ra : Gpr)
    (r : Registers R) : Registers R :=
  r.setGPR ra (((r.gpr rs).setWidth 8).signExtend 64)

def emulateExtsh
    (rs ra : Gpr)
    (r : Registers R) : Registers R :=
  r.setGPR ra (((r.gpr rs).setWidth 16).signExtend 64)

def emulateExtsw
    (rs ra : Gpr)
    (r : Registers R) : Registers R :=
  r.setGPR ra (((r.gpr rs).setWidth 32).signExtend 64)

def emulateCntlzd
    (rs ra : Gpr)
    (rc : Bool)
    (r : Registers R) : Registers R :=
  let res :=
    if r.gpr rs = 0#64 then 64#64 else (r.gpr rs).clz
  setRecorded ra rc res r

def emulateCntlzw
    (rs ra : Gpr)
    (rc : Bool)
    (r : Registers R) : Registers R :=
  let rs := (r.gpr rs).setWidth 32
  let res := if rs = 0#32 then 32#32 else rs.clz
  setRecorded ra rc (res.setWidth 64) r

------------------------------------------------------------
-- Rotations
------------------------------------------------------------

/- A count that is a six-bit number is passed as 32 bits. -/
def emulateRldicl
    (sh mb : BitVec 8)
    (rs ra : Gpr)
    (rc : Bool)
    (r : Registers R) : Registers R :=
  let rotated := rol (r.gpr rs) (sh.setWidth 32)
  let m := mask 64 mb.toNat 63
  setRecorded ra rc (rotated &&& m) r

def emulateRldicr
    (sh me : BitVec 8)
    (rs ra : Gpr)
    (rc : Bool)
    (r : Registers R) : Registers R :=
  let rotated := rol (r.gpr rs) (sh.setWidth 32)
  let m := mask 64 0 me.toNat
  setRecorded ra rc (rotated &&& m) r

def emulateRldimi
    (sh mb : BitVec 8)
    (rs ra : Gpr)
    (rc : Bool)
    (r : Registers R) : Registers R :=
  let rotated := rol (r.gpr rs) (sh.setWidth 32)
  let last := (~~~(sh.setWidth 32) &&& 63#32).toNat
  let m := mask 64 mb.toNat last
  setRecorded ra rc
    ((rotated &&& m) ||| (r.gpr ra &&& ~~~m)) r

def emulateRldic
    (sh mb : BitVec 8)
    (rs ra : Gpr)
    (rc : Bool)
    (r : Registers R) : Registers R :=
  let rotated := rol (r.gpr rs) (sh.setWidth 32)
  let last := (~~~(sh.setWidth 32) &&& 63#32).toNat
  let m := mask 64 mb.toNat last
  setRecorded ra rc (rotated &&& m) r

def emulateRldcl
    (rb rs : Gpr)
    (mb : BitVec 6)
    (ra : Gpr)
    (rc : Bool)
    (r : Registers R) : Registers R :=
  let n := r.gpr rb &&& 127#64
  let rotated := rol (r.gpr rs) (n.setWidth 32)
  let m := mask 64 mb.toNat 63
  setRecorded ra rc (rotated &&& m) r

def emulateRldcr
    (rb rs : Gpr)
    (me : BitVec 6)
    (ra : Gpr)
    (rc : Bool)
    (r : Registers R) : Registers R :=
  let n := r.gpr rb &&& 127#64
  let rotated := rol (r.gpr rs) (n.setWidth 32)
  let m := mask 64 0 me.toNat
  setRecorded ra rc (rotated &&& m) r

/- Word rotations work on the low word, zero extended. -/
def emulateRlwinm
    (sh : BitVec 5)
    (rs : Gpr)
    (mb me : BitVec 5)
    (ra : Gpr)
    (rc : Bool)
    (r : Registers R) : Registers R :=
  let rotated :=
    rol ((r.gpr rs).setWidth 32) (sh.setWidth 32)
  let m := mask 64 (mb.toNat + 32) (me.toNat + 32)
  setRecorded ra rc (rotated.setWidth 64 &&& m) r

def emulateRlwnm
    (rb rs : Gpr)
    (mb me : BitVec 5)
    (ra : Gpr)
    (rc : Bool)
    (r : Registers R) : Registers R :=
  let n := r.gpr rb &&& 31#64
  let rotated :=
    rol ((r.gpr rs).setWidth 32) (n.setWidth 32)
  let m := mask 64 (mb.toNat + 32) (me.toNat + 32)
  setRecorded ra rc (rotated.setWidth 64 &&& m) r

def emulateRlwimi
    (sh : BitVec 5)
    (rs : Gpr)
    (mb me : BitVec 5)
    (ra : Gpr)
    (rc : Bool)
    (r : Registers R) : Registers R :=
  let rotated :=
    rol ((r.gpr rs).setWidth 32) (sh.setWidth 32)
  let m := mask 64 (mb.toNat + 32) (me.toNat + 32)
  setRecorded ra rc
    ((rotated.setWidth 64 &&& m) ||| (r.gpr ra &&& ~~~m)) r

------------------------------------------------------------
-- Shifts
------------------------------------------------------------

def emulateSld
    (rb rs ra : Gpr)
    (rc : Bool)
    (r : Registers R) : Registers R :=
  let b := r.gpr rb &&& 127#64
  let res :=
    if 63#64 < b then 0#64 else r.gpr rs <<< b.toNat
  setRecorded ra rc res r

def emulateSlw
    (rb rs ra : Gpr)
    (rc : Bool)
    (r : Registers R) : Registers R :=
  let b := r.gpr rb &&& 63#64
  let res :=
    if 31#64 < b then 0#32
    else (r.gpr rs).setWidth 32 <<< b.toNat
  setRecorded ra rc (res.setWidth 64) r

def emulateSrd
    (rb rs ra : Gpr)
    (rc : Bool)
    (r : Registers R) : Registers R :=
  let b := r.gpr rb &&& 127#64
  let res :=
    if 63#64 < b then 0#64 else r.gpr rs >>> b.toNat
  setRecorded ra rc res r

def emulateSrw
    (rb rs ra : Gpr)
    (rc : Bool)
    (r : Registers R) : Registers R :=
  let b := r.gpr rb &&& 63#64
  let res :=
    if 31#64 < b then 0#32
    else (r.gpr rs).setWidth 32 >>> b.toNat
  setRecorded ra rc (res.setWidth 64) r

/- Writes a shifted word and what was shifted out of it. -/
def setShifted
    (i : Gpr)
    (rc ca : Bool)
    (result : BitVec 64)
    (r : Registers R) : Registers R :=
  let r := (r.setGPR i result).setCA ca
  if rc then updateCR0 result r else r

/- The sign, in the bits that a mask does not cover. -/
def signFill (s : Bool) (m : BitVec 64) : BitVec 64 :=
  (if s then BitVec.allOnes 64 else 0#64) &&& ~~~m

def emulateSradi
    (sh : BitVec 8)
    (rs ra : Gpr)
    (rc : Bool)
    (r : Registers R) : Registers R :=
  let source := r.gpr rs
  let rotated := rol source (64#32 - sh.setWidth 32)
  let m := mask 64 sh.toNat 63
  let s := bitTest source 64 0
  let res := (rotated &&& m) ||| signFill s m
  let ca := s && (rotated &&& ~~~m) != 0#64
  setShifted ra rc ca res r

def emulateSrawi
    (sh : BitVec 5)
    (rs ra : Gpr)
    (rc : Bool)
    (r : Registers R) : Registers R :=
  let source := r.gpr rs &&& 0xffffffff#64
  let rotated :=
    (rol (source.setWidth 32)
      (64#32 - sh.setWidth 32)).setWidth 64
  let m := mask 64 (sh.toNat + 32) 63
  let s := bitTest source 64 32
  let res := (rotated &&& m) ||| signFill s m
  let ca := s && (rotated &&& ~~~m) != 0#64
  setShifted ra rc ca res r

def emulateSrad
    (rb rs ra : Gpr)
    (rc : Bool)
    (r : Registers R) : Registers R :=
  let count := r.gpr rb
  let n := count &&& 0b111111#64
  let source := r.gpr rs
  let rotated := rol source ((64#64 - n).setWidth 32)
  let m :=
    if count &&& 0b1000000#64 = 0#64 then mask 64 n.toNat 63
    else 0#64
  let s := bitTest source 64 0
  let res := (rotated &&& m) ||| signFill s m
  let ca := s && (rotated &&& ~~~m) != 0#64
  setShifted ra rc ca res r

def emulateSraw
    (rb rs ra : Gpr)
    (rc : Bool)
    (r : Registers R) : Registers R :=
  let count := r.gpr rb
  let n := count &&& 0b11111#64
  let source := r.gpr rs &&& 0xffffffff#64
  let rotated :=
    (rol (source.setWidth 32)
      ((64#64 - n).setWidth 32)).setWidth 64
  let m :=
    if count &&& 0b100000#64 = 0#64 then
      mask 64 (n.toNat + 32) 63
    else 0#64
  let s := bitTest source 64 32
  let res := (rotated &&& m) ||| signFill s m
  let ca :=
    s && ((rotated &&& ~~~m) &&& 0xffffffff#64) != 0#64
  setShifted ra rc ca res r

------------------------------------------------------------
-- Comparisons and Products
------------------------------------------------------------

/- A word is compared with its sign, or without. -/
def getCmpAb
    (l : Bool)
    (value : BitVec 64) : BitVec 64 :=
  if l then value else (value.setWidth 32).signExtend 64

def getCmplAb
    (l : Bool)
    (value : BitVec 64) : BitVec 64 :=
  if l then value else (value.setWidth 32).setWidth 64

def emulateCmpi
    (ra : Gpr)
    (l : Bool)
    (si : BitVec 16)
    (bf : CrIndex)
    (r : Registers R) : Registers R :=
  let a := getCmpAb l (r.gpr ra)
  let si := si.signExtend 64
  r.setCRFSign bf
    (if a.slt si then 4#8
      else if si.slt a then 2#8
      else 1#8)

def emulateCmp
    (ra : Gpr)
    (l : Bool)
    (rb : Gpr)
    (bf : CrIndex)
    (r : Registers R) : Registers R :=
  let a := getCmpAb l (r.gpr ra)
  let b := getCmpAb l (r.gpr rb)
  r.setCRFSign bf
    (if a.slt b then 4#8
      else if b.slt a then 2#8
      else 1#8)

def emulateCmpli
    (ra : Gpr)
    (l : Bool)
    (ui : BitVec 16)
    (bf : CrIndex)
    (r : Registers R) : Registers R :=
  let a := getCmplAb l (r.gpr ra)
  let ui := ui.setWidth 64
  r.setCRFSign bf
    (if a < ui then 4#8
      else if ui < a then 2#8
      else 1#8)

def emulateCmpl
    (ra : Gpr)
    (l : Bool)
    (rb : Gpr)
    (bf : CrIndex)
    (r : Registers R) : Registers R :=
  let a := getCmplAb l (r.gpr ra)
  let b := getCmplAb l (r.gpr rb)
  r.setCRFSign bf
    (if a < b then 4#8
      else if b < a then 2#8
      else 1#8)

def emulateMulli
    (ra : Gpr)
    (si : BitVec 16)
    (rt : Gpr)
    (r : Registers R) : Registers R :=
  let prod :=
    (r.gpr ra).signExtend 128 * si.signExtend 128
  r.setGPR rt (prod.setWidth 64)

/- The product is taken in 64 bits, and widened after that. -/
def emulateMulld
    (ra rb rt : Gpr)
    (oe rc : Bool)
    (r : Registers R) : Registers R :=
  let res := (r.gpr ra * r.gpr rb).setWidth 128
  let ov := decide (maxWord < res)
  updateCR0OV oe rc ov (res.setWidth 64)
    (r.setGPR rt (res.setWidth 64))

def emulateMullw
    (ra rb rt : Gpr)
    (oe rc : Bool)
    (r : Registers R) : Registers R :=
  let res :=
    (r.gpr ra &&& 0xffffffff#64) *
      (r.gpr rb &&& 0xffffffff#64)
  let ov := decide (0xffffffff#64 < res)
  updateCR0OV oe rc ov res (r.setGPR rt res)

/-
  A register is unsigned, so widening it to a signed number
  of 128 bits gives no sign.  A product that is too large for
  that type wraps.
-/
def emulateMulhd
    (ra rb rt : Gpr)
    (rc : Bool)
    (r : Registers R) : Registers R :=
  let prod :=
    (r.gpr ra).setWidth 128 * (r.gpr rb).setWidth 128
  setRecorded rt rc ((prod >>> 64).setWidth 64) r

def emulateMulhdu
    (ra rb rt : Gpr)
    (rc : Bool)
    (r : Registers R) : Registers R :=
  let prod :=
    (r.gpr ra).setWidth 128 * (r.gpr rb).setWidth 128
  setRecorded rt rc ((prod >>> 64).setWidth 64) r

def emulateMulhw
    (ra rb rt : Gpr)
    (rc : Bool)
    (r : Registers R) : Registers R :=
  let prod :=
    ((r.gpr ra).setWidth 32).signExtend 64 *
      ((r.gpr rb).setWidth 32).signExtend 64
  setRecorded rt rc (prod >>> 32) r

def emulateMulhwu
    (ra rb rt : Gpr)
    (rc : Bool)
    (r : Registers R) : Registers R :=
  let prod :=
    ((r.gpr ra).setWidth 32).setWidth 64 *
      ((r.gpr rb).setWidth 32).setWidth 64
  setRecorded rt rc (prod >>> 32) r

------------------------------------------------------------
-- Division and Dispatch
------------------------------------------------------------

/-
  The signed division of the host.  It has no result for a
  zero divisor, nor for one that is too large.
-/
def hostSdiv
    (a b : BitVec 64) : Except Fault (BitVec 64) :=
  if b = 0#64 ∨
      (a = BitVec.intMin 64 ∧ b = BitVec.allOnes 64) then
    .error .undefined
  else .ok (a.sdiv b)

def hostUdiv
    {w : Nat}
    (a b : BitVec w) : Except Fault (BitVec w) :=
  if b = 0#w then .error .undefined else .ok (a / b)

def emulateDivd
    (ra rb rt : Gpr)
    (oe rc : Bool)
    (r : Registers R) : Except Fault (Registers R) := do
  let dividend := r.gpr ra
  let divisor := r.gpr rb
  let ov :=
    divisor == 0#64 ||
      (dividend == 0x8000000000000000#64 &&
        divisor == BitVec.allOnes 64)
  let res ←
    if ov then .ok 0#64 else hostSdiv dividend divisor
  return updateCR0OV oe rc ov res (r.setGPR rt res)

/- The dividend has its sign when it is compared. -/
def emulateDivw
    (ra rb rt : Gpr)
    (oe rc : Bool)
    (r : Registers R) : Except Fault (Registers R) := do
  let dividend := ((r.gpr ra).setWidth 32).signExtend 64
  let divisor := ((r.gpr rb).setWidth 32).signExtend 64
  let ov :=
    divisor == 0#64 ||
      (dividend == 0x80000000#64 &&
        divisor == BitVec.allOnes 64)
  let res ←
    if ov then .ok 0#64 else hostSdiv dividend divisor
  return updateCR0OV oe rc ov res (r.setGPR rt res)

def emulateDivdu
    (ra rb rt : Gpr)
    (oe rc : Bool)
    (r : Registers R) : Except Fault (Registers R) := do
  let dividend := r.gpr ra
  let divisor := r.gpr rb
  let ov := divisor == 0#64
  let res ←
    if ov then .ok 0#64 else hostUdiv dividend divisor
  return updateCR0OV oe rc ov res (r.setGPR rt res)

def emulateDivwu
    (ra rb rt : Gpr)
    (oe rc : Bool)
    (r : Registers R) : Except Fault (Registers R) := do
  let dividend := (r.gpr ra).setWidth 32
  let divisor := (r.gpr rb).setWidth 32
  let ov := divisor == 0#32
  let res ←
    if ov then .ok 0#32 else hostUdiv dividend divisor
  return updateCR0OV oe rc ov (res.setWidth 64)
    (r.setGPR rt (res.setWidth 64))

/- The operands that a word passes to its instruction. -/
def emulateInteger
    (i : IntegerInstr)
    (x : BitVec 32)
    (r : Registers R) : Except Fault (Registers R) :=
  let sh := getNBE (sh04 x) (sh5 x)
  let mb := getNBE (mb04 x) (mb5 x)
  let me := getNBE (me04 x) (me5 x)
  match i with
  | .addi => .ok (emulateAddi (ra x) (si x) (rt x) r)
  | .addis => .ok (emulateAddis (ra x) (si x) (rt x) r)
  | .add =>
      .ok (emulateAdd (ra x) (rb x) (rt x) (oe x) (rc x) r)
  | .addze =>
      .ok (emulateAddze (ra x) (rt x) (oe x) (rc x) r)
  | .subf =>
      .ok (emulateSubf (ra x) (rb x) (oe x) (rt x) (rc x) r)
  | .addic => .ok (emulateAddic (ra x) (si x) (rt x) r)
  | .addicd => .ok (emulateAddicd (ra x) (si x) (rt x) r)
  | .subfic => .ok (emulateSubfic (ra x) (si x) (rt x) r)
  | .addc =>
      .ok (emulateAddc (ra x) (rb x) (rt x) (oe x) (rc x) r)
  | .subfc =>
      .ok (emulateSubfc (ra x) (rb x) (rt x) (oe x) (rc x) r)
  | .subfe =>
      .ok (emulateSubfe (ra x) (rb x) (rt x) (oe x) (rc x) r)
  | .andid => .ok (emulateAndid (ui x) (rs x) (ra x) r)
  | .andisd => .ok (emulateAndisd (ui x) (rs x) (ra x) r)
  | .ori => .ok (emulateOri (ui x) (rs x) (ra x) r)
  | .oris => .ok (emulateOris (ui x) (rs x) (ra x) r)
  | .xori => .ok (emulateXori (ui x) (rs x) (ra x) r)
  | .xoris => .ok (emulateXoris (ui x) (rs x) (ra x) r)
  | .and => .ok (emulateAnd (rs x) (rb x) (ra x) (rc x) r)
  | .or => .ok (emulateOr (rs x) (rb x) (ra x) (rc x) r)
  | .xor => .ok (emulateXor (rs x) (rb x) (ra x) (rc x) r)
  | .nand => .ok (emulateNand (rs x) (rb x) (ra x) (rc x) r)
  | .nor => .ok (emulateNor (rs x) (rb x) (ra x) (rc x) r)
  | .eqv => .ok (emulateEqv (rs x) (rb x) (ra x) (rc x) r)
  | .andc => .ok (emulateAndc (rs x) (rb x) (ra x) (rc x) r)
  | .orc => .ok (emulateOrc (rs x) (rb x) (ra x) (rc x) r)
  | .extsb => .ok (emulateExtsb (rs x) (ra x) r)
  | .extsh => .ok (emulateExtsh (rs x) (ra x) r)
  | .extsw => .ok (emulateExtsw (rs x) (ra x) r)
  | .cntlzd => .ok (emulateCntlzd (rs x) (ra x) (rc x) r)
  | .cntlzw => .ok (emulateCntlzw (rs x) (ra x) (rc x) r)
  | .rldicl =>
      .ok (emulateRldicl sh mb (rs x) (ra x) (rc x) r)
  | .rldicr =>
      .ok (emulateRldicr sh me (rs x) (ra x) (rc x) r)
  | .rldimi =>
      .ok (emulateRldimi sh mb (rs x) (ra x) (rc x) r)
  | .rldic => .ok (emulateRldic sh mb (rs x) (ra x) (rc x) r)
  | .rldcl =>
      .ok (emulateRldcl (rb x) (rs x) (mbMds x) (ra x)
        (rc x) r)
  | .rldcr =>
      .ok (emulateRldcr (rb x) (rs x) (meMds x) (ra x)
        (rc x) r)
  | .rlwinm =>
      .ok (emulateRlwinm (sh04 x) (rs x) (mbM x) (meM x)
        (ra x) (rc x) r)
  | .rlwnm =>
      .ok (emulateRlwnm (rb x) (rs x) (mbM x) (meM x)
        (ra x) (rc x) r)
  | .rlwimi =>
      .ok (emulateRlwimi (sh04 x) (rs x) (mbM x) (meM x)
        (ra x) (rc x) r)
  | .cmpi => .ok (emulateCmpi (ra x) (l x) (si x) (bf x) r)
  | .cmp => .ok (emulateCmp (ra x) (l x) (rb x) (bf x) r)
  | .cmpli => .ok (emulateCmpli (ra x) (l x) (ui x) (bf x) r)
  | .cmpl => .ok (emulateCmpl (ra x) (l x) (rb x) (bf x) r)
  | .sld => .ok (emulateSld (rb x) (rs x) (ra x) (rc x) r)
  | .slw => .ok (emulateSlw (rb x) (rs x) (ra x) (rc x) r)
  | .srd => .ok (emulateSrd (rb x) (rs x) (ra x) (rc x) r)
  | .srw => .ok (emulateSrw (rb x) (rs x) (ra x) (rc x) r)
  | .sradi => .ok (emulateSradi sh (rs x) (ra x) (rc x) r)
  | .srawi =>
      .ok (emulateSrawi (sh04 x) (rs x) (ra x) (rc x) r)
  | .srad => .ok (emulateSrad (rb x) (rs x) (ra x) (rc x) r)
  | .sraw => .ok (emulateSraw (rb x) (rs x) (ra x) (rc x) r)
  | .neg => .ok (emulateNeg (ra x) (rt x) (oe x) (rc x) r)
  | .divd => emulateDivd (ra x) (rb x) (rt x) (oe x) (rc x) r
  | .divw => emulateDivw (ra x) (rb x) (rt x) (oe x) (rc x) r
  | .divdu =>
      emulateDivdu (ra x) (rb x) (rt x) (oe x) (rc x) r
  | .divwu =>
      emulateDivwu (ra x) (rb x) (rt x) (oe x) (rc x) r
  | .mulld =>
      .ok (emulateMulld (ra x) (rb x) (rt x) (oe x) (rc x) r)
  | .mullw =>
      .ok (emulateMullw (ra x) (rb x) (rt x) (oe x) (rc x) r)
  | .mulhd =>
      .ok (emulateMulhd (ra x) (rb x) (rt x) (rc x) r)
  | .mulhw =>
      .ok (emulateMulhw (ra x) (rb x) (rt x) (rc x) r)
  | .mulhwu =>
      .ok (emulateMulhwu (ra x) (rb x) (rt x) (rc x) r)
  | .mulhdu =>
      .ok (emulateMulhdu (ra x) (rb x) (rt x) (rc x) r)
  | .mulli => .ok (emulateMulli (ra x) (si x) (rt x) r)

end Ppu

end Ps3emu
