import Mathlib.Logic.Function.Basic
import Ps3emu.Ppu.BitField

/-
  A PPU thread: its registers and the accessors of the
  condition register and of the fixed-point exception
  register.

  Key definitions include:
    * `Registers`, `PPUThread`
    * `Registers.setCRF`, `Registers.setCRFSign`
    * `Registers.setOV`, `Registers.setCA`
    * `crField`

  Key theorems include:
    * `Registers.crField_setCRF`
    * `Registers.crField_setCRFSign`
    * `Registers.crField_setOV`
-/

------------------------------------------------------------
-- Registers
------------------------------------------------------------

namespace Ps3emu

namespace Ppu

abbrev Gpr := BitVec 5

abbrev CrIndex := BitVec 3

/-
  All of a thread but its next instruction pointer.  What the
  fixed-point unit does not touch (memory, floating point and
  vector registers) is in `rest`.
-/
structure Registers (R : Type) where
  lr : BitVec 64
  ctr : BitVec 64
  gpr : Gpr → BitVec 64
  cr : BitVec 32
  xer : BitVec 64
  vrsave : BitVec 32
  rest : R

structure PPUThread (R : Type) where
  nip : BitVec 32
  regs : Registers R

------------------------------------------------------------
-- Registers
------------------------------------------------------------

namespace Registers

variable {R : Type}

def setGPR
    (r : Registers R)
    (i : Gpr)
    (value : BitVec 64) : Registers R :=
  { r with gpr := Function.update r.gpr i value }

variable (r : Registers R) (i : Gpr) (value : BitVec 64)

@[simp] theorem setGPR_gpr_self :
    (r.setGPR i value).gpr i = value := by
  simp [setGPR]

@[simp] theorem setGPR_cr :
    (r.setGPR i value).cr = r.cr :=
  rfl

@[simp] theorem setGPR_xer :
    (r.setGPR i value).xer = r.xer :=
  rfl

def getCA (r : Registers R) : Bool :=
  r.xer.getLsbD 29

def getOV (r : Registers R) : Bool :=
  r.xer.getLsbD 30

def getSO (r : Registers R) : Bool :=
  r.xer.getLsbD 31

/- `_XER.f.CA = bit`. -/
def setCA
    (r : Registers R)
    (bit : Bool) : Registers R :=
  let cleared := r.xer &&& ~~~(1#64 <<< 29)
  { r with
    xer := cleared |||
      ((BitVec.ofBool bit).setWidth 64 <<< 29) }

/-
  Sets the overflow bit, and the summary overflow bits of
  both registers.
-/
def setOV (r : Registers R) : Registers R :=
  { r with
    xer := r.xer ||| (1#64 <<< 30) ||| (1#64 <<< 31)
    cr := r.cr ||| (1#32 <<< 28) }

@[simp] theorem setCA_gpr
    (bit : Bool) :
    (r.setCA bit).gpr = r.gpr :=
  rfl

@[simp] theorem setCA_cr
    (bit : Bool) :
    (r.setCA bit).cr = r.cr :=
  rfl

@[simp] theorem getCA_setCA
    (bit : Bool) :
    (r.setCA bit).getCA = bit := by
  unfold getCA setCA
  cases bit <;> simp

@[simp] theorem getSO_setCA
    (bit : Bool) :
    (r.setCA bit).getSO = r.getSO := by
  unfold getSO setCA
  cases bit <;> simp

@[simp] theorem getCA_setGPR :
    (r.setGPR i value).getCA = r.getCA :=
  rfl

@[simp] theorem getOV_setGPR :
    (r.setGPR i value).getOV = r.getOV :=
  rfl

@[simp] theorem getSO_setGPR :
    (r.setGPR i value).getSO = r.getSO :=
  rfl

@[simp] theorem setOV_gpr (r : Registers R) :
    r.setOV.gpr = r.gpr :=
  rfl

@[simp] theorem getCA_setOV (r : Registers R) :
    r.setOV.getCA = r.getCA := by
  simp [getCA, setOV]

@[simp] theorem getOV_setOV (r : Registers R) :
    r.setOV.getOV = true := by
  simp [getOV, setOV]

@[simp] theorem getSO_setOV (r : Registers R) :
    r.setOV.getSO = true := by
  simp [getSO, setOV]

def get4bitField
    (r : BitVec 32)
    (n : CrIndex) : BitVec 8 :=
  let fpos := 4 * n.toNat
  let fmask := (mask 32 fpos (fpos + 3)).setWidth 32
  ((r &&& fmask) >>> (32 - fpos - 4)).setWidth 8

def set4bitField
    (r : BitVec 32)
    (n : CrIndex)
    (value : BitVec 8) : BitVec 32 :=
  let fpos := 4 * n.toNat
  let fmask := ~~~(mask 32 fpos (fpos + 3)).setWidth 32
  let f := value.setWidth 32 <<< (32 - fpos - 4)
  (r &&& fmask) ||| f

def getCRF
    (r : Registers R)
    (n : CrIndex) : BitVec 8 :=
  get4bitField r.cr n

def setCRF
    (r : Registers R)
    (n : CrIndex)
    (value : BitVec 8) : Registers R :=
  { r with cr := set4bitField r.cr n value }

/- The last bit of the field stays. -/
def setCRFSign
    (r : Registers R)
    (n : CrIndex)
    (sign : BitVec 8) : Registers R :=
  let so := r.getCRF n &&& 1#8
  r.setCRF n ((sign <<< 1) ||| so)

@[simp] theorem setCRFSign_gpr
    (n : CrIndex)
    (sign : BitVec 8) :
    (r.setCRFSign n sign).gpr = r.gpr :=
  rfl

@[simp] theorem setCRFSign_xer
    (n : CrIndex)
    (sign : BitVec 8) :
    (r.setCRFSign n sign).xer = r.xer :=
  rfl

end Registers

------------------------------------------------------------
-- Fields of the Condition Register
------------------------------------------------------------

/- The four bits of a field, by their positions. -/
def crField
    (cr : BitVec 32)
    (n : CrIndex) : BitVec 4 :=
  cr.extractLsb' (28 - 4 * n.toNat) 4

/- The eight fields are all of the register. -/
theorem eq_of_crField
    {cr cr' : BitVec 32}
    (hFields : ∀ n, crField cr n = crField cr' n) :
    cr = cr' := by
  apply BitVec.eq_of_getLsbD_eq
  intro i hi
  have hField := hFields (BitVec.ofNat 3 (7 - i / 4))
  have hBit := congrArg (fun f => f.getLsbD (i % 4)) hField
  have hStart :
      28 - 4 * ((7 - i / 4) % 8) + i % 4 = i := by
    omega
  simpa [crField, Nat.mod_lt, hStart] using hBit

private theorem getLsbD_fmask
    (n : CrIndex)
    {j : Nat}
    (hJ : j < 32) :
    ((mask 32 (4 * n.toNat)
      (4 * n.toNat + 3)).setWidth 32).getLsbD j =
      decide (28 ≤ j + 4 * n.toNat ∧
        j + 4 * n.toNat < 32) := by
  have hN := n.isLt
  unfold mask
  rw [if_neg (by omega), BitVec.getLsbD_setWidth,
    getLsbD_maskRange (by decide) (by omega),
    Bool.eq_iff_iff]
  simp only [Bool.and_eq_true, decide_eq_true_eq]
  omega

/- A field is what is read. -/
theorem get4bitField_eq
    (cr : BitVec 32)
    (n : CrIndex) :
    Registers.get4bitField cr n =
      (crField cr n).setWidth 8 := by
  have hN := n.isLt
  apply BitVec.eq_of_getLsbD_eq
  intro i hi
  unfold Registers.get4bitField crField
  rw [BitVec.getLsbD_setWidth, BitVec.getLsbD_setWidth,
    BitVec.getLsbD_ushiftRight, BitVec.getLsbD_and,
    BitVec.getLsbD_extractLsb']
  by_cases hIn : i < 4
  · have hPos :
        32 - 4 * n.toNat - 4 + i = 28 - 4 * n.toNat + i := by
      omega
    rw [hPos, getLsbD_fmask n (by omega)]
    have hMask :
        28 ≤ 28 - 4 * n.toNat + i + 4 * n.toNat ∧
          28 - 4 * n.toNat + i + 4 * n.toNat < 32 := by
      omega
    simp [hMask, hIn, hi]
  · by_cases hLt : 32 - 4 * n.toNat - 4 + i < 32
    · rw [getLsbD_fmask n hLt]
      have hMask :
          ¬ (32 - 4 * n.toNat - 4 + i + 4 * n.toNat < 32) := by
        omega
      simp [hMask, hIn]
    · rw [BitVec.getLsbD_of_ge _ _ (Nat.not_lt.mp hLt)]
      simp [hIn]

/- A field that is written, and the others. -/
theorem crField_set4bitField
    (cr : BitVec 32)
    (n m : CrIndex)
    (value : BitVec 4) :
    crField
        (Registers.set4bitField cr n (value.setWidth 8)) m =
      if m = n then value else crField cr m := by
  have hN := n.isLt
  have hM := m.isLt
  apply BitVec.eq_of_getLsbD_eq
  intro i hi
  unfold crField Registers.set4bitField
  rw [BitVec.getLsbD_extractLsb', BitVec.getLsbD_or,
    BitVec.getLsbD_and, BitVec.getLsbD_not,
    getLsbD_fmask n (by omega), BitVec.getLsbD_shiftLeft,
    BitVec.getLsbD_setWidth, BitVec.getLsbD_setWidth]
  by_cases hSame : m = n
  · subst hSame
    have hIn :
        28 ≤ 28 - 4 * m.toNat + i + 4 * m.toNat ∧
          28 - 4 * m.toNat + i + 4 * m.toNat < 32 := by
      omega
    have hShift :
        28 - 4 * m.toNat + i - (32 - 4 * m.toNat - 4) = i := by
      omega
    rw [if_pos rfl, hShift]
    have hLt : 28 - 4 * m.toNat + i < 32 := by omega
    have hGe :
        ¬ (28 - 4 * m.toNat + i < 32 - 4 * m.toNat - 4) := by
      omega
    have hEight : i < 8 := by omega
    have hAll : i < 32 := by omega
    simp [hIn, hLt, hGe, hEight, hAll, hi]
  · have hNe : m.toNat ≠ n.toNat := fun hEq =>
      hSame (BitVec.eq_of_toNat_eq hEq)
    have hOut :
        ¬ (28 ≤ 28 - 4 * m.toNat + i + 4 * n.toNat ∧
          28 - 4 * m.toNat + i + 4 * n.toNat < 32) := by
      omega
    have hLt : 28 - 4 * m.toNat + i < 32 := by omega
    rw [if_neg hSame, BitVec.getLsbD_extractLsb']
    have hValue :
        ¬ (28 - 4 * m.toNat + i < 32 - 4 * n.toNat - 4) →
          value.getLsbD
            (28 - 4 * m.toNat + i -
              (32 - 4 * n.toNat - 4)) = false := by
      intro hGe
      apply BitVec.getLsbD_of_ge
      omega
    by_cases hGe :
        28 - 4 * m.toNat + i < 32 - 4 * n.toNat - 4
    · simp [hOut, hLt, hGe, hi]
    · simp [hOut, hLt, hGe, hi, hValue hGe]

namespace Registers

variable {R : Type}

theorem crField_setCRF
    (r : Registers R)
    (n m : CrIndex)
    (value : BitVec 4) :
    crField (r.setCRF n (value.setWidth 8)).cr m =
      if m = n then value else crField r.cr m :=
  crField_set4bitField r.cr n m value

/- The last bit of a field, which copies an overflow. -/
def summary
    (r : Registers R)
    (n : CrIndex) : Bool :=
  (crField r.cr n).getLsbD 0

private theorem sign_with_summary
    (sign : BitVec 3)
    (f : BitVec 4) :
    (sign.setWidth 8 <<< 1) ||| (f.setWidth 8 &&& 1#8) =
      (sign ++ BitVec.ofBool (f.getLsbD 0)).setWidth 8 := by
  revert sign f
  decide

/- A sign is written above the bit that stays. -/
theorem crField_setCRFSign
    (r : Registers R)
    (n m : CrIndex)
    (sign : BitVec 3) :
    crField (r.setCRFSign n (sign.setWidth 8)).cr m =
      if m = n then sign ++ BitVec.ofBool (r.summary n)
      else crField r.cr m := by
  unfold setCRFSign getCRF
  dsimp only
  rw [get4bitField_eq, sign_with_summary]
  exact crField_setCRF r n m _

/- An overflow shows in the last bit of field 0. -/
theorem crField_setOV
    (r : Registers R)
    (m : CrIndex) :
    crField r.setOV.cr m =
      if m = 0#3 then crField r.cr m ||| 1#4
      else crField r.cr m := by
  have hM := m.isLt
  apply BitVec.eq_of_getLsbD_eq
  intro i hi
  have hOne :
      ∀ j, (1#32 <<< 28).getLsbD j = decide (j = 28) := by
    intro j
    rw [← BitVec.twoPow_eq, BitVec.getLsbD_twoPow]
    simp [eq_comm]
  unfold setOV crField
  rw [BitVec.getLsbD_extractLsb', BitVec.getLsbD_or, hOne]
  by_cases hZero : m = 0#3
  · subst hZero
    rw [if_pos rfl, BitVec.getLsbD_or,
      BitVec.getLsbD_extractLsb', BitVec.getLsbD_one]
    by_cases hBit : i = 0
    · simp [hBit]
    · simp [hBit, hi]
  · have hPos : 0 < m.toNat := by
      apply Nat.pos_of_ne_zero
      exact fun hEq => hZero (BitVec.eq_of_toNat_eq hEq)
    have hBit : 28 - 4 * m.toNat + i ≠ 28 := by omega
    rw [if_neg hZero, BitVec.getLsbD_extractLsb']
    simp [hBit]

end Registers

end Ppu

end Ps3emu
