import Ps3emu.Ppu.Interpreter

/-
  The moves to and from the special-purpose registers, the
  condition register and the floating-point status register,
  taken in pairs: what is written, then read back.

  Key definitions include:
    * `Spr`, `FloatingPoint`
    * `emulateMtfsf`, `emulateMffs`
    * `Transfer.Returns`, `Transfer.Condition`

  Key theorems include:
    * `crField_emulateMtocrf`
    * `emulateMtfsf_fpscr`
    * `Transfer.returns_iff`
-/

------------------------------------------------------------
-- Special-Purpose and Condition Registers
------------------------------------------------------------

namespace Ps3emu

namespace Ppu

variable {R : Type}

inductive Spr where
  | xer | lr | ctr | vrsave
deriving DecidableEq

namespace Spr

/- The number the instruction set gives a register. -/
def number : Spr → BitVec 10
  | xer => 1#10
  | lr => 8#10
  | ctr => 9#10
  | vrsave => 256#10

/- An instruction word has the low half of a number first. -/
def splitNumber (s : Spr) : BitVec 10 :=
  s.number.extractLsb' 0 5 ++ s.number.extractLsb' 5 5

def width : Spr → Nat
  | xer => 64
  | lr => 64
  | ctr => 64
  | vrsave => 32

end Spr

/- What a register returns after it was written. -/
theorem emulateMtspr_bind_emulateMfspr
    (s : Spr)
    (rs rt : Gpr)
    (r : Registers R) :
    ∃ r',
      (emulateMtspr rs s.splitNumber r).bind
          (emulateMfspr s.splitNumber rt) = .ok r' ∧
        r'.gpr rt =
          ((r.gpr rs).setWidth 32).setWidth 64 := by
  cases s <;> exact ⟨_, rfl, Registers.setGPR_gpr_self _ _ _⟩

/- The field that `mtocrf` writes. -/
def firstField (fxm : BitVec 8) : CrIndex :=
  if fxm.getLsbD 7 then 0#3
  else if fxm.getLsbD 6 then 1#3
  else if fxm.getLsbD 5 then 2#3
  else if fxm.getLsbD 4 then 3#3
  else if fxm.getLsbD 3 then 4#3
  else if fxm.getLsbD 2 then 5#3
  else if fxm.getLsbD 1 then 6#3
  else 7#3

/- A merge under the mask of one field. -/
theorem crField_merge
    (cr : BitVec 32)
    (value : BitVec 64)
    (n m : CrIndex) :
    crField
        ((cr.setWidth 64 &&&
            ~~~mask 32 (4 * n.toNat) (4 * n.toNat + 3) |||
          value &&&
            mask 32 (4 * n.toNat) (4 * n.toNat + 3)).setWidth
              32) m =
      if m = n then crField (value.setWidth 32) m
      else crField cr m := by
  have hN := n.isLt
  have hM := m.isLt
  have hMask :
      ∀ j, (mask 32 (4 * n.toNat) (4 * n.toNat + 3)).getLsbD
          j =
        decide (28 ≤ j + 4 * n.toNat ∧
          j + 4 * n.toNat < 32) := by
    intro j
    unfold mask
    rw [if_neg (by omega),
      getLsbD_maskRange (by decide) (by omega),
      Bool.eq_iff_iff]
    simp only [decide_eq_true_eq]
    omega
  apply BitVec.eq_of_getLsbD_eq
  intro i hi
  have hLt : 28 - 4 * m.toNat + i < 32 := by omega
  have hLong : 28 - 4 * m.toNat + i < 64 := by omega
  unfold crField
  rw [BitVec.getLsbD_extractLsb', BitVec.getLsbD_setWidth,
    BitVec.getLsbD_or, BitVec.getLsbD_and,
    BitVec.getLsbD_and, BitVec.getLsbD_not, hMask,
    BitVec.getLsbD_setWidth]
  by_cases hSame : m = n
  · subst hSame
    have hIn :
        28 ≤ 28 - 4 * m.toNat + i + 4 * m.toNat ∧
          28 - 4 * m.toNat + i + 4 * m.toNat < 32 := by
      omega
    rw [if_pos rfl, BitVec.getLsbD_extractLsb',
      BitVec.getLsbD_setWidth]
    simp [hIn, hLt, hi]
  · have hNe : m.toNat ≠ n.toNat := fun hEq =>
      hSame (BitVec.eq_of_toNat_eq hEq)
    have hOut :
        ¬ (28 ≤ 28 - 4 * m.toNat + i + 4 * n.toNat ∧
          28 - 4 * m.toNat + i + 4 * n.toNat < 32) := by
      omega
    rw [if_neg hSame, BitVec.getLsbD_extractLsb']
    simp [hOut, hLt, hLong, hi]

theorem emulateMtocrf_eq
    (fxm : BitVec 8)
    (rs : Gpr)
    (r : Registers R) :
    emulateMtocrf fxm rs r =
      { r with
        cr :=
          (r.cr.setWidth 64 &&&
              ~~~mask 32 (4 * (firstField fxm).toNat)
                (4 * (firstField fxm).toNat + 3) |||
            r.gpr rs &&&
              mask 32 (4 * (firstField fxm).toNat)
                (4 * (firstField fxm).toNat + 3)).setWidth
                  32 } := by
  unfold emulateMtocrf firstField
  split_ifs <;> rfl

/- One field is written, whatever the mask. -/
theorem crField_emulateMtocrf
    (fxm : BitVec 8)
    (rs : Gpr)
    (r : Registers R)
    (n : CrIndex) :
    crField (emulateMtocrf fxm rs r).cr n =
      if n = firstField fxm then
        crField ((r.gpr rs).setWidth 32) n
      else crField r.cr n := by
  rw [emulateMtocrf_eq]
  exact crField_merge r.cr (r.gpr rs) _ n

------------------------------------------------------------
-- Floating-Point Status Register
------------------------------------------------------------

/- The floating-point registers, by their bits. -/
structure FloatingPoint where
  fpr : BitVec 5 → BitVec 64
  fpscr : BitVec 32

/- `update_CRFSign`. -/
def updateCRFSign
    (n : CrIndex)
    (result : Int)
    (r : Registers R) : Registers R :=
  r.setCRFSign n
    (if result < 0 then 4#8
      else if 0 < result then 2#8
      else 1#8)

namespace Registers

def getFPSCRF
    (r : Registers FloatingPoint)
    (n : CrIndex) : BitVec 8 :=
  get4bitField r.rest.fpscr n

def setFPSCRF
    (r : Registers FloatingPoint)
    (n : CrIndex)
    (value : BitVec 8) : Registers FloatingPoint :=
  { r with
    rest :=
      { r.rest with
        fpscr := set4bitField r.rest.fpscr n value } }

def setFPR
    (r : Registers FloatingPoint)
    (i : BitVec 5)
    (value : BitVec 64) : Registers FloatingPoint :=
  { r with
    rest :=
      { r.rest with
        fpr := Function.update r.rest.fpr i value } }

end Registers

/-
  The count of the leading zeros of an empty mask is not
  defined.  Otherwise the number of the field is below 8.
  The register `FRB` is not read.
-/
def emulateMtfsf
    (flm : BitVec 8)
    (rc : Bool)
    (r : Registers FloatingPoint) :
    Except Fault (Registers FloatingPoint) :=
  if flm = 0#8 then .error .undefined
  else
    let n := ((flm.setWidth 64).clz - 64#64 + 8#64).setWidth 3
    let v := r.getFPSCRF n
    let r := r.setFPSCRF n v
    .ok (if rc then updateCRFSign 1#3 v.toNat r else r)

def emulateMffs
    (frt : BitVec 5)
    (rc : Bool)
    (r : Registers FloatingPoint) : Registers FloatingPoint :=
  let fpscr := r.rest.fpscr
  let r := r.setFPR frt (fpscr.setWidth 64)
  if rc then updateCRFSign 1#3 fpscr.toNat r else r

/- A field that is written with what it holds. -/
theorem set4bitField_get4bitField
    (v : BitVec 32)
    (n : CrIndex) :
    Registers.set4bitField v n
      (Registers.get4bitField v n) = v := by
  apply eq_of_crField
  intro m
  rw [get4bitField_eq, crField_set4bitField]
  split
  case isTrue hEq => rw [hEq]
  case isFalse => rfl

/- No mask changes the status register. -/
theorem emulateMtfsf_fpscr
    {flm : BitVec 8}
    (hMask : flm ≠ 0#8)
    (rc : Bool)
    (r : Registers FloatingPoint) :
    ∃ r', emulateMtfsf flm rc r = .ok r' ∧
      r'.rest = r.rest := by
  refine ⟨_, if_neg hMask, ?_⟩
  have hSame :
      ∀ n, (r.setFPSCRF n (r.getFPSCRF n)).rest = r.rest := by
    intro n
    simp [Registers.setFPSCRF, Registers.getFPSCRF,
      set4bitField_get4bitField]
  split
  · exact hSame _
  · exact hSame _

theorem emulateMffs_rest
    (frt : BitVec 5)
    (rc : Bool)
    (r : Registers FloatingPoint) :
    (emulateMffs frt rc r).rest =
      { r.rest with
        fpr :=
          Function.update r.rest.fpr frt
            (r.rest.fpscr.setWidth 64) } := by
  unfold emulateMffs
  split <;> rfl

------------------------------------------------------------
-- Transfers
------------------------------------------------------------

/- A register to write and to read back. -/
inductive Transfer where
  | spr (s : Spr)
  | cr (fxm : BitVec 8)
  | fpscr (flm : BitVec 8) (rc rc' : Bool)

/- Does a mask select a field of four bits? -/
def selects
    (fieldMask : BitVec 8)
    (n : CrIndex) : Bool :=
  fieldMask.getMsbD n.toNat

/- The selected fields are new, and the others are old. -/
def Replaces
    (fieldMask : BitVec 8)
    (old new result : BitVec 32) : Prop :=
  ∀ n,
    crField result n =
      if selects fieldMask n then crField new n
      else crField old n

namespace Transfer

/- A write from one register, and a read into another. -/
def run
    (source target : BitVec 5)
    (r : Registers FloatingPoint) :
    Transfer → Except Fault (Registers FloatingPoint)
  | spr s =>
      (emulateMtspr source s.splitNumber r).bind
        (emulateMfspr s.splitNumber target)
  | cr fxm =>
      .ok (emulateMfcr target (emulateMtocrf fxm source r))
  | fpscr flm rc rc' =>
      (emulateMtfsf flm rc r).map (emulateMffs target rc')

/- What the read should return. -/
def Returns
    (source target : BitVec 5)
    (r r' : Registers FloatingPoint) : Transfer → Prop
  | spr s =>
      r'.gpr target =
        ((r.gpr source).setWidth s.width).setWidth 64
  | cr fxm =>
      r'.gpr target = r'.cr.setWidth 64 ∧
        Replaces fxm r.cr ((r.gpr source).setWidth 32) r'.cr
  | fpscr flm _ _ =>
      r'.rest.fpr target = r'.rest.fpscr.setWidth 64 ∧
        Replaces flm r.rest.fpscr
          ((r.rest.fpr source).setWidth 32) r'.rest.fpscr

/-
  A 64-bit register keeps a value of 32 bits.  The fields
  that are selected and not written already hold their
  values, and so does the field that an empty mask writes.
-/
def Condition
    (source : BitVec 5)
    (r : Registers FloatingPoint) : Transfer → Prop
  | spr s => s = .vrsave ∨ (r.gpr source).toNat < 2 ^ 32
  | cr fxm =>
      ∀ n,
        (selects fxm n = true ∧ n ≠ firstField fxm) ∨
            (fxm = 0#8 ∧ n = 7#3) →
          crField ((r.gpr source).setWidth 32) n =
            crField r.cr n
  | fpscr flm _ _ =>
      flm ≠ 0#8 ∧
        ∀ n,
          selects flm n = true →
            crField ((r.rest.fpr source).setWidth 32) n =
              crField r.rest.fpscr n

end Transfer

------------------------------------------------------------
-- Correctness
------------------------------------------------------------

/- A value that passes through a variable of 32 bits. -/
theorem setWidth_32_eq_iff
    (s : Spr)
    (v : BitVec 64) :
    (v.setWidth 32).setWidth 64 =
        (v.setWidth s.width).setWidth 64 ↔
      s = .vrsave ∨ v.toNat < 2 ^ 32 := by
  by_cases hVrsave : s = .vrsave
  · subst hVrsave
    exact iff_of_true rfl (.inl rfl)
  · have hWidth : s.width = 64 := by
      cases s with
      | vrsave => exact absurd rfl hVrsave
      | _ => rfl
    have hV := v.isLt
    rw [hWidth, ← BitVec.toNat_inj]
    simp only [BitVec.toNat_setWidth, hVrsave, false_or]
    omega

/- The first field of a mask is selected, if any field is. -/
theorem selects_firstField_iff (fxm : BitVec 8) :
    selects fxm (firstField fxm) = true ↔ fxm ≠ 0#8 := by
  revert fxm
  decide

theorem firstField_zero : firstField 0#8 = 7#3 := rfl

theorem selects_zero (n : CrIndex) :
    selects 0#8 n = false := by
  revert n
  decide

/- Fields that are merged one at a time. -/
theorem replaces_iff
    {fieldMask : BitVec 8}
    {first : CrIndex}
    {old new result : BitVec 32}
    (hResult :
      ∀ n, crField result n =
        if n = first then crField new n else crField old n) :
    Replaces fieldMask old new result ↔
      ∀ n,
        (selects fieldMask n = true ∧ n ≠ first) ∨
            (selects fieldMask n = false ∧ n = first) →
          crField new n = crField old n := by
  apply forall_congr'
  intro n
  rw [hResult]
  by_cases hFirst : n = first <;>
    cases hSelects : selects fieldMask n <;>
    simp [hFirst, eq_comm]

theorem missed_iff
    (fxm : BitVec 8)
    (n : CrIndex) :
    (selects fxm n = false ∧ n = firstField fxm) ↔
      (fxm = 0#8 ∧ n = 7#3) := by
  constructor
  · rintro ⟨hNot, rfl⟩
    have hZero : fxm = 0#8 := by
      by_contra hNe
      rw [(selects_firstField_iff fxm).mpr hNe] at hNot
      cases hNot
    subst hZero
    exact ⟨rfl, firstField_zero⟩
  · rintro ⟨rfl, rfl⟩
    exact ⟨selects_zero _, firstField_zero.symm⟩

theorem mtocrf_returns_iff
    (fxm : BitVec 8)
    (source target : BitVec 5)
    (r : Registers FloatingPoint) :
    (Transfer.cr fxm).Returns source target r
        (emulateMfcr target (emulateMtocrf fxm source r)) ↔
      (Transfer.cr fxm).Condition source r := by
  have hFields :=
    @replaces_iff fxm _ _ _ _
      (crField_emulateMtocrf fxm source r)
  unfold Transfer.Returns Transfer.Condition
  dsimp only
  rw [emulateMfcr, Registers.setGPR_gpr_self,
    Registers.setGPR_cr, hFields]
  simp only [true_and, missed_iff]

theorem mtfsf_returns_iff
    {flm : BitVec 8}
    {rc rc' : Bool}
    {source target : BitVec 5}
    {r r' : Registers FloatingPoint}
    (hRest : r'.rest = r.rest) :
    (Transfer.fpscr flm rc rc').Returns source target r
        (emulateMffs target rc' r') ↔
      ∀ n,
        selects flm n = true →
          crField ((r.rest.fpr source).setWidth 32) n =
            crField r.rest.fpscr n := by
  unfold Transfer.Returns
  dsimp only
  rw [emulateMffs_rest, hRest]
  simp only [Function.update_self, true_and]
  apply forall_congr'
  intro n
  cases hSelects : selects flm n <;> simp [eq_comm]

/-
  A value that is written comes back exactly under the
  condition of its transfer.
-/
theorem Transfer.returns_iff
    (t : Transfer)
    (source target : BitVec 5)
    (r : Registers FloatingPoint) :
    (∃ r', t.run source target r = .ok r' ∧
        t.Returns source target r r') ↔
      t.Condition source r := by
  cases t with
  | spr s =>
      rcases emulateMtspr_bind_emulateMfspr s source target r
        with ⟨r₁, hRun, hValue⟩
      have hCondition :=
        setWidth_32_eq_iff s (r.gpr source)
      constructor
      · rintro ⟨r', hOk, hReturns⟩
        obtain rfl := Except.ok.inj (hRun.symm.trans hOk)
        exact hCondition.mp (hValue.symm.trans hReturns)
      · intro hHolds
        exact
          ⟨r₁, hRun, hValue.trans (hCondition.mpr hHolds)⟩
  | cr fxm =>
      constructor
      · rintro ⟨r', hOk, hReturns⟩
        obtain rfl := Except.ok.inj hOk
        exact
          (mtocrf_returns_iff fxm source target r).mp hReturns
      · intro hHolds
        exact ⟨_, rfl,
          (mtocrf_returns_iff fxm source target r).mpr
            hHolds⟩
  | fpscr flm rc rc' =>
      by_cases hMask : flm = 0#8
      · refine iff_of_false ?_ ?_
        · rintro ⟨r', hOk, -⟩
          rw [Transfer.run, emulateMtfsf, if_pos hMask] at hOk
          cases hOk
        · exact fun hHolds => hHolds.1 hMask
      · rcases emulateMtfsf_fpscr hMask rc r with
          ⟨r₁, hWrite, hRest⟩
        have hRun :
            (Transfer.fpscr flm rc rc').run source target r =
              .ok (emulateMffs target rc' r₁) := by
          rw [Transfer.run, hWrite]
          rfl
        constructor
        · rintro ⟨r', hOk, hReturns⟩
          obtain rfl := Except.ok.inj (hRun.symm.trans hOk)
          exact ⟨hMask, (mtfsf_returns_iff hRest).mp hReturns⟩
        · intro hHolds
          exact ⟨_, hRun,
            (mtfsf_returns_iff hRest).mpr hHolds.2⟩

/- mtlr r3 and mflr r4 lose the high half of a value. -/
theorem mtlr_not_returns :
    ¬ ∀ (t : Transfer)
        (source target : BitVec 5)
        (r : Registers FloatingPoint),
        ∃ r', t.run source target r = .ok r' ∧
          t.Returns source target r r' := by
  intro hAll
  rcases hAll (.spr .lr) 3#5 4#5
      ⟨0#64, 0#64, fun _ => 1#64 <<< 32, 0#32, 0#64, 0#32,
        ⟨fun _ => 0#64, 0#32⟩⟩
    with ⟨r', hOk, hReturns⟩
  obtain rfl := Except.ok.inj hOk
  revert hReturns
  unfold Transfer.Returns
  decide

end Ppu

end Ps3emu
