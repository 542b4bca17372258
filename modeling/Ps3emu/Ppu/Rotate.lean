import Ps3emu.Ppu.Interpreter

/-
  The rotate-and-mask instructions, against rotation and
  insertion under a mask as the instruction set has them.

  Key definitions include:
    * `shiftField`, `maskField`
    * `RotateExact`, `RotateCondition`

  Key theorems include:
    * `emulate_rotate_iff`
-/

------------------------------------------------------------
-- Results and Instructions
------------------------------------------------------------

namespace Ps3emu

namespace Ppu

open WrappingMask

variable {R : Type}

@[simp] theorem updateCR0_gpr
    (result : BitVec 64)
    (r : Registers R) :
    (updateCR0 result r).gpr = r.gpr :=
  rfl

@[simp] theorem setRecorded_gpr_self
    (i : Gpr)
    (rc : Bool)
    (result : BitVec 64)
    (r : Registers R) :
    (setRecorded i rc result r).gpr i = result := by
  unfold setRecorded
  cases rc <;> simp

/- An instruction of the fixed-point unit, on a thread. -/
theorem emulate_integer
    (env : Env R)
    {x : BitVec 32}
    {i : IntegerInstr}
    (hDecode : decode x = some (.integer i))
    (cia : BitVec 64)
    {t : PPUThread R}
    {r : Registers R}
    (hRun : emulateInteger i x t.regs = .ok r) :
    emulate env x cia t = .ok { t with regs := r } := by
  unfold emulate
  rw [hDecode]
  simp only [emulateInstr, onRegisters, hRun]
  rfl

theorem toNat_getNBE
    (f04 : BitVec 5)
    (f5 : BitVec 1) :
    (getNBE f04 f5).toNat = 32 * f5.toNat + f04.toNat := by
  revert f04 f5
  decide

/- The six bits of a shift count, the first one last. -/
def shiftField (x : BitVec 32) : Nat :=
  32 * (sh5 x).toNat + (sh04 x).toNat

/- The six bits of a mask bound, the first one last. -/
def maskField (x : BitVec 32) : Nat :=
  32 * (mb5 x).toNat + (mb04 x).toNat

theorem shiftField_lt (x : BitVec 32) :
    shiftField x < 64 := by
  have hHigh := (sh5 x).isLt
  have hLow := (sh04 x).isLt
  unfold shiftField
  omega

theorem maskField_lt (x : BitVec 32) :
    maskField x < 64 := by
  have hHigh := (mb5 x).isLt
  have hLow := (mb04 x).isLt
  unfold maskField
  omega

def IsRotate : IntegerInstr → Prop
  | .rldicl | .rldicr | .rldic | .rldimi | .rldcl | .rldcr
  | .rlwinm | .rlwnm | .rlwimi => True
  | _ => False

/- A rotated word stands in both halves of its register. -/
def rotl32
    (value : BitVec 64)
    (n : Nat) : BitVec 64 :=
  let rotated := (value.setWidth 32).rotateLeft n
  rotated ++ rotated

/- The result that the instruction set prescribes. -/
def RotateExact
    (i : IntegerInstr)
    (x : BitVec 32)
    (r : Registers R)
    (result : BitVec 64) : Prop :=
  let source := r.gpr (rs x)
  let base := r.gpr (ra x)
  let count := (r.gpr (rb x)).toNat
  let sh := shiftField x
  let bound := maskField x
  let first := (mbM x).toNat + 32
  let last := (meM x).toNat + 32
  match i with
  | .rldicl =>
      Inserted bound 63 (source.rotateLeft sh) 0#64 result
  | .rldicr =>
      Inserted 0 bound (source.rotateLeft sh) 0#64 result
  | .rldic =>
      Inserted bound (63 - sh) (source.rotateLeft sh) 0#64
        result
  | .rldimi =>
      Inserted bound (63 - sh) (source.rotateLeft sh) base
        result
  | .rldcl =>
      Inserted bound 63 (source.rotateLeft (count % 64))
        0#64 result
  | .rldcr =>
      Inserted 0 bound (source.rotateLeft (count % 64))
        0#64 result
  | .rlwinm =>
      Inserted first last (rotl32 source (sh04 x).toNat)
        0#64 result
  | .rlwnm =>
      Inserted first last (rotl32 source (count % 32))
        0#64 result
  | .rlwimi =>
      Inserted first last (rotl32 source (sh04 x).toNat)
        base result
  | _ => False

/-
  The word forms need a mask that does not wrap, or a word
  that is zero.  The two forms that read their mask bound in
  the order of its bits need a rotated source without one-bits
  between that bound and the right one.
-/
def RotateCondition
    (i : IntegerInstr)
    (x : BitVec 32)
    (r : Registers R) : Prop :=
  let source := r.gpr (rs x)
  let count := (r.gpr (rb x)).toNat
  let raw := (mbMds x).toNat
  let bound := maskField x
  match i with
  | .rlwinm | .rlwnm | .rlwimi =>
      (mbM x).toNat ≤ (meM x).toNat ∨
        source.setWidth 32 = 0#32
  | .rldcl =>
      ∀ j, min raw bound ≤ j → j < max raw bound →
        (source.rotateLeft (count % 64)).getMsbD j = false
  | .rldcr =>
      ∀ j, min raw bound < j → j ≤ max raw bound →
        (source.rotateLeft (count % 64)).getMsbD j = false
  | _ => True

------------------------------------------------------------
-- Doubleword Rotations
------------------------------------------------------------

theorem rol_getNBE
    (value : BitVec 64)
    (x : BitVec 32) :
    rol value ((getNBE (sh04 x) (sh5 x)).setWidth 32) =
      value.rotateLeft (shiftField x) := by
  rw [rol_64, BitVec.toNat_setWidth, toNat_getNBE,
    Nat.mod_eq_of_lt]
  · rfl
  · have hLt := shiftField_lt x
    unfold shiftField at hLt
    omega

theorem toNat_maskField (x : BitVec 32) :
    (getNBE (mb04 x) (mb5 x)).toNat = maskField x := by
  rw [toNat_getNBE]
  rfl

/- `~n & 63`. -/
theorem toNat_complement
    (sh : BitVec 8)
    (hSh : sh.toNat < 64) :
    (~~~(sh.setWidth 32) &&& 63#32).toNat =
      63 - sh.toNat := by
  have hLow :
      (~~~(sh.setWidth 32) &&& 63#32).toNat =
        (~~~(sh.setWidth 32)).toNat % 2 ^ 6 := by
    rw [BitVec.toNat_and]
    exact Nat.and_two_pow_sub_one_eq_mod _ 6
  rw [hLow, BitVec.toNat_not, BitVec.toNat_setWidth]
  omega

theorem toNat_lastField (x : BitVec 32) :
    (~~~((getNBE (sh04 x) (sh5 x)).setWidth 32) &&&
      63#32).toNat = 63 - shiftField x := by
  have hSh :
      (getNBE (sh04 x) (sh5 x)).toNat = shiftField x := by
    rw [toNat_getNBE]
    rfl
  rw [toNat_complement _ (by
    rw [hSh]
    exact shiftField_lt x), hSh]

/- A count out of a register is taken modulo 64. -/
theorem rol_register
    (value count : BitVec 64) :
    rol value ((count &&& 127#64).setWidth 32) =
      value.rotateLeft (count.toNat % 64) := by
  have hLow :
      (count &&& 127#64).toNat = count.toNat % 2 ^ 7 := by
    rw [BitVec.toNat_and]
    exact Nat.and_two_pow_sub_one_eq_mod _ 7
  rw [rol_64, BitVec.toNat_setWidth, hLow,
    ← BitVec.rotateLeft_mod_eq_rotateLeft]
  congr 1
  omega

/-
  Two bounds on one side cut the same bits out of a word that
  has no one-bit between them.
-/
theorem and_first_iff
    {a b : Nat}
    (hA : a < 64)
    (hB : b < 64)
    (source : BitVec 64) :
    source &&& mask 64 a 63 = source &&& mask 64 b 63 ↔
      ∀ j, min a b ≤ j → j < max a b →
        source.getMsbD j = false := by
  rw [and_eq_iff (isMask_mask (by decide))
    (isMask_mask (by decide))]
  constructor
  · intro hZero j hMin hMax
    apply hZero j (by omega)
    rw [inMask_of_le (by omega), inMask_of_le (by omega)]
    omega
  · intro hZero j hJ hDiffer
    rw [inMask_of_le (by omega),
      inMask_of_le (by omega)] at hDiffer
    exact hZero j (by omega) (by omega)

theorem and_last_iff
    {a b : Nat}
    (hA : a < 64)
    (hB : b < 64)
    (source : BitVec 64) :
    source &&& mask 64 0 a = source &&& mask 64 0 b ↔
      ∀ j, min a b < j → j ≤ max a b →
        source.getMsbD j = false := by
  rw [and_eq_iff (isMask_mask hA) (isMask_mask hB)]
  constructor
  · intro hZero j hMin hMax
    apply hZero j (by omega)
    rw [inMask_of_le (by omega), inMask_of_le (by omega)]
    omega
  · intro hZero j hJ hDiffer
    rw [inMask_of_le (by omega),
      inMask_of_le (by omega)] at hDiffer
    exact hZero j (by omega) (by omega)

------------------------------------------------------------
-- Word Rotations
------------------------------------------------------------

/- The high half of a word that stands in both halves. -/
theorem getMsbD_append_self
    (word : BitVec 32)
    (j : Nat) :
    (word ++ word : BitVec 64).getMsbD j =
      if j < 32 then word.getMsbD j
      else word.getMsbD (j - 32) := by
  rw [BitVec.getMsbD_append]
  by_cases hJ : j < 32
  · have hNot : ¬ 32 ≤ j := by omega
    simp [hJ, hNot]
  · have hLe : 32 ≤ j := by omega
    simp [hJ, hLe]

theorem getMsbD_setWidth_64
    (word : BitVec 32)
    {j : Nat}
    (hJ : j < 64) :
    (word.setWidth 64).getMsbD j =
      if j < 32 then false else word.getMsbD (j - 32) := by
  rw [BitVec.getMsbD_setWidth]
  by_cases hHigh : j < 32
  · have hOut : ¬ 64 - 32 ≤ j := by omega
    rw [if_pos hHigh, decide_eq_false hOut, Bool.false_and]
  · have hIn : 64 - 32 ≤ j := by omega
    have hPos : j + 32 - 64 = j - 32 := by omega
    rw [if_neg hHigh, decide_eq_true hIn, Bool.true_and, hPos]

/-
  A word without its copy is enough under a mask that does not
  reach the high half.
-/
theorem and_word_iff
    {first last : Nat}
    (hFirst : first < 32)
    (hLast : last < 32)
    (word : BitVec 32) :
    word.setWidth 64 &&& mask 64 (first + 32) (last + 32) =
        (word ++ word : BitVec 64) &&&
          mask 64 (first + 32) (last + 32) ↔
      first ≤ last ∨ word = 0#32 := by
  have hMask :
      IsMask (first + 32) (last + 32)
        (mask 64 (first + 32) (last + 32)) :=
    isMask_mask (by omega)
  constructor
  · intro hEqual
    by_cases hLe : first ≤ last
    · exact .inl hLe
    · right
      apply eq_of_getMsbD
      intro j hJ
      have hBit :=
        congrArg (fun v => v.getMsbD j) hEqual
      have hIn : InMask (first + 32) (last + 32) j := by
        rw [inMask_of_lt (by omega)]
        omega
      simp only [BitVec.getMsbD_and, hMask j (by omega),
        getMsbD_setWidth_64 word (show j < 64 by omega),
        getMsbD_append_self, if_pos hJ, decide_true, hIn,
        Bool.and_true] at hBit
      rw [← hBit]
      simp
  · intro hCase
    apply eq_of_getMsbD
    intro j hJ
    rw [BitVec.getMsbD_and, BitVec.getMsbD_and,
      getMsbD_setWidth_64 word hJ, getMsbD_append_self,
      hMask j hJ]
    rcases hCase with hLe | hZero
    · by_cases hHigh : j < 32
      · have hOut :
            ¬ InMask (first + 32) (last + 32) j := by
          rw [inMask_of_le (by omega)]
          omega
        simp [hOut]
      · simp [hHigh]
    · rw [hZero]
      simp

theorem toNat_and_31 (count : BitVec 64) :
    (count &&& 31#64).toNat = count.toNat % 32 := by
  rw [BitVec.toNat_and]
  exact Nat.and_two_pow_sub_one_eq_mod _ 5

theorem rol_word
    (value : BitVec 64)
    (n : BitVec 32) :
    rol (value.setWidth 32) n ++ rol (value.setWidth 32) n =
      rotl32 value n.toNat := by
  rw [rol_32]
  rfl

/- What a word form needs, whatever the base is. -/
theorem word_inserted_iff
    (x : BitVec 32)
    (value base : BitVec 64)
    (n : BitVec 32) :
    Inserted ((mbM x).toNat + 32) ((meM x).toNat + 32)
        (rotl32 value n.toNat) base
        (((rol (value.setWidth 32) n).setWidth 64 &&&
            mask 64 ((mbM x).toNat + 32)
              ((meM x).toNat + 32)) |||
          (base &&&
            ~~~mask 64 ((mbM x).toNat + 32)
              ((meM x).toNat + 32))) ↔
      (mbM x).toNat ≤ (meM x).toNat ∨
        value.setWidth 32 = 0#32 := by
  have hFirst := (mbM x).isLt
  have hLast := (meM x).isLt
  rw [inserted_iff (isMask_mask (by omega)),
    insert_eq_insert_iff, ← rol_word,
    and_word_iff hFirst hLast, rol_32,
    rotateLeft_eq_zero_iff]

------------------------------------------------------------
-- Rotate and Mask
------------------------------------------------------------

theorem mbMds_lt (x : BitVec 32) : (mbMds x).toNat < 64 :=
  (mbMds x).isLt

/- A result under a mask, without a base. -/
theorem masked_inserted
    {first last : Nat}
    (hLast : last < 64)
    (source : BitVec 64) :
    Inserted first last source 0#64
      (source &&& mask 64 first last) :=
  (inserted_zero_iff (isMask_mask hLast) _ _).mpr rfl

/-
  Each instruction of the family is exact if and only if its
  condition holds.
-/
theorem emulateInteger_rotate_iff
    {i : IntegerInstr}
    (hRotate : IsRotate i)
    (x : BitVec 32)
    (r : Registers R) :
    ∃ r', emulateInteger i x r = .ok r' ∧
      (RotateExact i x r (r'.gpr (ra x)) ↔
        RotateCondition i x r) := by
  have hBound := maskField_lt x
  cases i with
  | rldicl =>
      refine ⟨_, rfl, iff_of_true ?_ trivial⟩
      simp only [emulateRldicl, setRecorded_gpr_self,
        rol_getNBE, toNat_maskField, RotateExact]
      exact masked_inserted (by decide) _
  | rldicr =>
      refine ⟨_, rfl, iff_of_true ?_ trivial⟩
      have hField :
          (getNBE (me04 x) (me5 x)).toNat = maskField x :=
        toNat_maskField x
      simp only [emulateRldicr, setRecorded_gpr_self,
        rol_getNBE, hField, RotateExact]
      exact masked_inserted hBound _
  | rldic =>
      refine ⟨_, rfl, iff_of_true ?_ trivial⟩
      simp only [emulateRldic, setRecorded_gpr_self,
        rol_getNBE, toNat_maskField, toNat_lastField,
        RotateExact]
      exact masked_inserted (by omega) _
  | rldimi =>
      refine ⟨_, rfl, iff_of_true ?_ trivial⟩
      simp only [emulateRldimi, setRecorded_gpr_self,
        rol_getNBE, toNat_maskField, toNat_lastField,
        RotateExact]
      exact
        (inserted_iff (isMask_mask (by omega)) _ _ _).mpr rfl
  | rldcl =>
      refine ⟨_, rfl, ?_⟩
      simp only [emulateRldcl, setRecorded_gpr_self,
        rol_register, RotateExact, RotateCondition]
      rw [inserted_zero_iff (isMask_mask (by decide)),
        and_first_iff (mbMds_lt x) hBound]
  | rldcr =>
      refine ⟨_, rfl, ?_⟩
      simp only [emulateRldcr, setRecorded_gpr_self,
        rol_register, RotateExact, RotateCondition]
      rw [inserted_zero_iff (isMask_mask hBound)]
      exact and_last_iff (mbMds_lt x) hBound _
  | rlwinm =>
      refine ⟨_, rfl, ?_⟩
      have hWord :=
        word_inserted_iff x (r.gpr (rs x)) 0#64
          ((sh04 x).setWidth 32)
      have hCount :
          ((sh04 x).setWidth 32).toNat = (sh04 x).toNat := by
        rw [BitVec.toNat_setWidth]
        omega
      rw [hCount, BitVec.zero_and, BitVec.or_zero] at hWord
      simp only [emulateRlwinm, setRecorded_gpr_self,
        RotateExact, RotateCondition]
      exact hWord
  | rlwnm =>
      refine ⟨_, rfl, ?_⟩
      have hWord :=
        word_inserted_iff x (r.gpr (rs x)) 0#64
          ((r.gpr (rb x) &&& 31#64).setWidth 32)
      have hCount :
          ((r.gpr (rb x) &&& 31#64).setWidth 32).toNat =
            (r.gpr (rb x)).toNat % 32 := by
        rw [BitVec.toNat_setWidth, toNat_and_31]
        omega
      rw [hCount, BitVec.zero_and, BitVec.or_zero] at hWord
      simp only [emulateRlwnm, setRecorded_gpr_self,
        RotateExact, RotateCondition]
      exact hWord
  | rlwimi =>
      refine ⟨_, rfl, ?_⟩
      have hWord :=
        word_inserted_iff x (r.gpr (rs x)) (r.gpr (ra x))
          ((sh04 x).setWidth 32)
      have hCount :
          ((sh04 x).setWidth 32).toNat = (sh04 x).toNat := by
        rw [BitVec.toNat_setWidth]
        omega
      rw [hCount] at hWord
      simp only [emulateRlwimi, setRecorded_gpr_self,
        RotateExact, RotateCondition]
      exact hWord
  | _ => cases hRotate

/- The same of a word that decodes to the instruction. -/
theorem emulate_rotate_iff
    (env : Env R)
    (x : BitVec 32)
    (cia : BitVec 64)
    (t : PPUThread R)
    (i : IntegerInstr)
    (hDecode : decode x = some (.integer i))
    (hRotate : IsRotate i) :
    ∃ t', emulate env x cia t = .ok t' ∧
      (RotateExact i x t.regs (t'.regs.gpr (ra x)) ↔
        RotateCondition i x t.regs) := by
  rcases emulateInteger_rotate_iff hRotate x t.regs with
    ⟨r, hRun, hIff⟩
  exact ⟨_, emulate_integer env hDecode cia hRun, hIff⟩

/- rotlwi r4,r3,8, which keeps all of the word. -/
theorem emulate_rotate_iff_rotlwi :
    ∃ t', emulate (idle Unit) 0x5464403e#32 0#64 cleared =
        .ok t' ∧
      (RotateExact .rlwinm 0x5464403e#32 cleared.regs
          (t'.regs.gpr (ra 0x5464403e#32)) ↔
        RotateCondition .rlwinm 0x5464403e#32
          cleared.regs) :=
  emulate_rotate_iff (idle Unit) 0x5464403e#32 0#64 cleared
    .rlwinm (by decide) trivial

/-
  rlwinm r4,r3,0,31,0 with a one in r3: the mask wraps, and
  the copy of the word in the high half is lost.
-/
theorem rlwinm_not_exact :
    ¬ ∀ (env : Env Unit)
        (x : BitVec 32)
        (cia : BitVec 64)
        (t : PPUThread Unit)
        (i : IntegerInstr),
        decode x = some (.integer i) → IsRotate i →
          ∃ t', emulate env x cia t = .ok t' ∧
            RotateExact i x t.regs (t'.regs.gpr (ra x)) := by
  intro hAll
  rcases hAll (idle Unit) 0x546407c0#32 0#64
      { cleared with
        regs := { cleared.regs with gpr := fun _ => 1#64 } }
      .rlwinm (by decide) trivial with
    ⟨t', hRun, hExact⟩
  cases hRun
  have hBit := hExact 31 (by decide)
  revert hBit
  decide

end Ppu

end Ps3emu
