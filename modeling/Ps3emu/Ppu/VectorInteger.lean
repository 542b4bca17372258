import Ps3emu.Ppu.VectorLanes

/-
  The architecture of the vector instructions on integers,
  and what the interpreter does of it.

  Key definitions include:
    * `LaneSpec`, `LaneSpec.Holds`
    * `Comparison`
    * `architected`
    * `LaneExact`

  Key theorems include:
    * `vectorResult_meets`
    * `updateCRF_field`
    * `emulateVector_laneExact`
-/

------------------------------------------------------------
-- Vectors by Their Lanes
------------------------------------------------------------

namespace Ps3emu

namespace Ppu

open Lanes Sse

/- Lanes that fill a vector, the first at the high end. -/
structure LaneSpec where
  width : Nat
  count : Nat
  full : width * count = 128
  lanes : Nat → BitVec width

namespace LaneSpec

def Holds
    (s : LaneSpec)
    (d : M128) : Prop :=
  ∀ n < s.count, laneBE s.width s.count d n = s.lanes n

/- No two vectors have the same lanes. -/
theorem holds_unique
    {s : LaneSpec}
    {d d' : M128}
    (hD : s.Holds d)
    (hD' : s.Holds d') :
    d = d' := by
  apply eq_of_laneBE s.full
  intro n hN
  rw [hD n hN, hD' n hN]

end LaneSpec

theorem bits_full : 1 * 128 = 128 := rfl

theorem bytes_full : 8 * 16 = 128 := rfl

theorem halfwords_full : 16 * 8 = 128 := rfl

theorem words_full : 32 * 4 = 128 := rfl

def bits (f : Nat → BitVec 1) : LaneSpec :=
  ⟨1, 128, bits_full, f⟩

def bytes (f : Nat → BitVec 8) : LaneSpec :=
  ⟨8, 16, bytes_full, f⟩

def halfwords (f : Nat → BitVec 16) : LaneSpec :=
  ⟨16, 8, halfwords_full, f⟩

def words (f : Nat → BitVec 32) : LaneSpec :=
  ⟨32, 4, words_full, f⟩

def bit (v : M128) (n : Nat) : BitVec 1 := laneBE 1 128 v n

def byte (v : M128) (n : Nat) : BitVec 8 := laneBE 8 16 v n

def halfword (v : M128) (n : Nat) : BitVec 16 :=
  laneBE 16 8 v n

def word (v : M128) (n : Nat) : BitVec 32 := laneBE 32 4 v n

/- The lanes of even number are those of `a` from `start`. -/
def alternate
    {w : Nat}
    (a b : Nat → BitVec w)
    (start n : Nat) : BitVec w :=
  if n % 2 = 0 then a (start + n / 2) else b (start + n / 2)

/- The nearest signed halfword. -/
def signedHalfword (v : Int) : BitVec 16 :=
  BitVec.ofInt 16 (saturate (-32768) 32767 v)

/- The nearest unsigned byte. -/
def unsignedByte (v : Int) : BitVec 8 :=
  BitVec.ofInt 8 (saturate 0 255 v)

------------------------------------------------------------
-- Comparisons and Architecture
------------------------------------------------------------

/- A test of every lane. -/
structure Comparison where
  width : Nat
  count : Nat
  full : width * count = 128
  test : Nat → Bool

namespace Comparison

/- A lane is all ones where the test is true. -/
def result (c : Comparison) : LaneSpec where
  width := c.width
  count := c.count
  full := c.full
  lanes := fun n =>
    if c.test n then BitVec.allOnes c.width else 0#c.width

def allTrue (c : Comparison) : Bool :=
  decide (∀ n < c.count, c.test n = true)

def noneTrue (c : Comparison) : Bool :=
  decide (∀ n < c.count, c.test n = false)

/- All true, 0, none true, 0. -/
def field (c : Comparison) : BitVec 4 :=
  BitVec.ofBool c.allTrue ++ 0#1 ++
    BitVec.ofBool c.noneTrue ++ 0#1

end Comparison

def comparison
    (i : VectorInstr)
    (x : BitVec 32)
    (v : VectorFile) : Option Comparison :=
  let a := v (vA x)
  let b := v (vB x)
  match i with
  | .vcmpgtub =>
      some
        ⟨8, 16, bytes_full, fun n =>
          (byte b n).ult (byte a n)⟩
  | .vcmpgtuh =>
      some
        ⟨16, 8, halfwords_full, fun n =>
          (halfword b n).ult (halfword a n)⟩
  | .vcmpgtuw =>
      some
        ⟨32, 4, words_full, fun n =>
          (word b n).ult (word a n)⟩
  | .vcmpgtsw =>
      some
        ⟨32, 4, words_full, fun n =>
          (word b n).slt (word a n)⟩
  | .vcmpequb =>
      some
        ⟨8, 16, bytes_full, fun n => byte a n == byte b n⟩
  | .vcmpequw =>
      some
        ⟨32, 4, words_full, fun n => word a n == word b n⟩
  | _ => none

/- The vector an instruction on integers is to compute. -/
def architected
    (i : VectorInstr)
    (x : BitVec 32)
    (v : VectorFile) : Option LaneSpec :=
  let a := v (vA x)
  let b := v (vB x)
  let c := v (vC x)
  match i with
  -- modulo
  | .vaddubm => some (bytes fun n => byte a n + byte b n)
  | .vadduhm =>
      some (halfwords fun n => halfword a n + halfword b n)
  | .vadduwm => some (words fun n => word a n + word b n)
  | .vsububm => some (bytes fun n => byte a n - byte b n)
  | .vsubuhm =>
      some (halfwords fun n => halfword a n - halfword b n)
  | .vsubuwm => some (words fun n => word a n - word b n)
  | .vmladduhm =>
      some (halfwords fun n =>
        halfword a n * halfword b n + halfword c n)
  | .vmulosh =>
      some (words fun n =>
        BitVec.ofInt 32
          ((halfword a (2 * n + 1)).toInt *
            (halfword b (2 * n + 1)).toInt))
  -- saturating
  | .vaddshs =>
      some (halfwords fun n =>
        signedHalfword
          ((halfword a n).toInt + (halfword b n).toInt))
  | .vsubshs =>
      some (halfwords fun n =>
        signedHalfword
          ((halfword a n).toInt - (halfword b n).toInt))
  | .vmhraddshs =>
      some (halfwords fun n =>
        signedHalfword
          (((halfword a n).toInt * (halfword b n).toInt +
              2 ^ 14) / 2 ^ 15 + (halfword c n).toInt))
  | .vsum4ubs =>
      some (words fun n =>
        BitVec.ofNat 32
          (min (2 ^ 32 - 1)
            ((byte a (4 * n)).toNat +
              (byte a (4 * n + 1)).toNat +
              (byte a (4 * n + 2)).toNat +
              (byte a (4 * n + 3)).toNat + (word b n).toNat)))
  | .vminub =>
      some (bytes fun n =>
        BitVec.ofNat 8
          (min (byte a n).toNat (byte b n).toNat))
  | .vmaxub =>
      some (bytes fun n =>
        BitVec.ofNat 8
          (max (byte a n).toNat (byte b n).toNat))
  -- shifts by counts modulo the width of a lane
  | .vslb =>
      some (bytes fun n =>
        byte a n <<< ((byte b n).toNat % 8))
  | .vslh =>
      some (halfwords fun n =>
        halfword a n <<< ((halfword b n).toNat % 16))
  | .vslw =>
      some (words fun n =>
        word a n <<< ((word b n).toNat % 32))
  | .vsrw =>
      some (words fun n =>
        word a n >>> ((word b n).toNat % 32))
  | .vsrah =>
      some (halfwords fun n =>
        (halfword a n).sshiftRight
          ((halfword b n).toNat % 16))
  | .vsraw =>
      some (words fun n =>
        (word a n).sshiftRight ((word b n).toNat % 32))
  | .vrlw =>
      some (words fun n =>
        (word a n).rotateLeft (word b n).toNat)
  -- packs and unpacks
  | .vpkshus =>
      some (bytes fun n =>
        unsignedByte
          (if n < 8 then halfword a n
            else halfword b (n - 8)).toInt)
  | .vupkhsb =>
      some (halfwords fun n => (byte b n).signExtend 16)
  | .vupklsb =>
      some (halfwords fun n => (byte b (n + 8)).signExtend 16)
  -- merges and splats
  | .vmrghh =>
      some (halfwords (alternate (halfword a) (halfword b) 0))
  | .vmrglh =>
      some (halfwords (alternate (halfword a) (halfword b) 4))
  | .vmrghw =>
      some (words (alternate (word a) (word b) 0))
  | .vmrglw =>
      some (words (alternate (word a) (word b) 2))
  | .vsplth =>
      some (halfwords fun _ => halfword b (uimm3 x).toNat)
  | .vspltw => some (words fun _ => word b (uimm2 x).toNat)
  | .vspltisb => some (bytes fun _ => (simm x).signExtend 8)
  | .vspltish =>
      some (halfwords fun _ => (simm x).signExtend 16)
  | .vspltisw => some (words fun _ => (simm x).signExtend 32)
  | .vsldoi =>
      some (bytes fun n =>
        if n + (shb x).toNat < 16 then
          byte a (n + (shb x).toNat)
        else byte b (n + (shb x).toNat - 16))
  -- bitwise
  | .vand => some (bits fun n => bit a n &&& bit b n)
  | .vandc => some (bits fun n => bit a n &&& ~~~(bit b n))
  | .vor => some (bits fun n => bit a n ||| bit b n)
  | .vxor => some (bits fun n => bit a n ^^^ bit b n)
  | .vnor => some (bits fun n => ~~~(bit a n ||| bit b n))
  | .vsel =>
      some (bits fun n =>
        if bit c n = 1#1 then bit b n else bit a n)
  | i => (comparison i x v).map Comparison.result

------------------------------------------------------------
-- Results
------------------------------------------------------------

/- The vector computed has the lanes of the architecture. -/
def MeetsLanes
    (spec : Option LaneSpec)
    (result : Option M128) : Prop :=
  ∀ s, spec = some s → ∃ d, result = some d ∧ s.Holds d

variable {d : M128}

theorem meets_some
    {s : LaneSpec}
    (hHolds : s.Holds d) :
    MeetsLanes (some s) (some d) := by
  intro s' hSpec
  cases hSpec
  exact ⟨d, rfl, hHolds⟩

theorem meets_none (result : Option M128) :
    MeetsLanes none result := by
  intro s hSpec
  cases hSpec

theorem holds_vminub (a b : M128) :
    (bytes fun n =>
      BitVec.ofNat 8
        (min (byte a n).toNat (byte b n).toNat)).Holds
      (vminub a b) := by
  intro n hN
  have hLane :=
    laneBE_zipLanes 8 16
      (fun a b => if a.ult b then a else b) a b hN
  have hA := (byte a n).isLt
  have hB := (byte b n).isLt
  refine hLane.trans (BitVec.eq_of_toNat_eq ?_)
  change
    BitVec.toNat
        (if (byte a n).ult (byte b n) then byte a n
          else byte b n) =
      (BitVec.ofNat 8
        (min (byte a n).toNat (byte b n).toNat)).toNat
  simp only [BitVec.ult, decide_eq_true_eq,
    BitVec.toNat_ofNat]
  split <;> omega

theorem holds_vmaxub (a b : M128) :
    (bytes fun n =>
      BitVec.ofNat 8
        (max (byte a n).toNat (byte b n).toNat)).Holds
      (vmaxub a b) := by
  intro n hN
  have hLane :=
    laneBE_zipLanes 8 16
      (fun a b => if b.ult a then a else b) a b hN
  have hA := (byte a n).isLt
  have hB := (byte b n).isLt
  refine hLane.trans (BitVec.eq_of_toNat_eq ?_)
  change
    BitVec.toNat
        (if (byte b n).ult (byte a n) then byte a n
          else byte b n) =
      (BitVec.ofNat 8
        (max (byte a n).toNat (byte b n).toNat)).toNat
  simp only [BitVec.ult, decide_eq_true_eq,
    BitVec.toNat_ofNat]
  split <;> omega

theorem holds_vaddshs (a b : M128) :
    (halfwords fun n =>
      signedHalfword
        ((halfword a n).toInt + (halfword b n).toInt)).Holds
      (vaddshs a b) :=
  fun _ hN =>
    laneBE_zipLanes 16 8
      (fun a b => signedHalfword (a.toInt + b.toInt)) a b hN

theorem holds_vsubshs (a b : M128) :
    (halfwords fun n =>
      signedHalfword
        ((halfword a n).toInt - (halfword b n).toInt)).Holds
      (vsubshs a b) :=
  fun _ hN =>
    laneBE_zipLanes 16 8
      (fun a b => signedHalfword (a.toInt - b.toInt)) a b hN

/- A multiplication and an addition, lane by lane. -/
theorem holds_vmladduhm (a b c : M128) :
    (halfwords fun n =>
      halfword a n * halfword b n + halfword c n).Holds
      (vmladduhm a b c) := by
  intro n hN
  have hSum :=
    laneBE_zipLanes 16 8 (fun a b => a + b)
      (mullo 16 8 a b) c hN
  rw [mullo, laneBE_zipLanes 16 8 _ a b hN] at hSum
  exact hSum

theorem holds_merge
    {k count start : Nat}
    {control₁ control₂ : M128}
    (hTable : Interleaves k count start control₁ control₂)
    (hFull : k * count = 16)
    (hWidth : 8 * k * count = 128)
    (a b : M128) :
    (⟨8 * k, count, hWidth,
        alternate (laneBE (8 * k) count a)
          (laneBE (8 * k) count b) start⟩ : LaneSpec).Holds
      (merge control₁ control₂ a b) := by
  intro n hN
  refine (laneBE_merge hTable hFull a b hN).trans ?_
  dsimp only
  unfold alternate
  split <;> rfl

/- A comparison of unsigned lanes through signed ones. -/
theorem holds_cmpgtUnsigned
    {w k : Nat}
    (hWidth : w * k = 128)
    (a b : M128) :
    (⟨w, k, hWidth, fun n =>
        (laneBE w k b n).ult (laneBE w k a n)⟩ :
        Comparison).result.Holds
      (cmpgtUnsigned w k (BitVec.intMin w) a b hWidth) := by
  intro n hN
  refine (laneBE_cmpgtUnsigned hWidth a b hN).trans ?_
  simp only [Comparison.result, BitVec.ult, BitVec.lt_def,
    decide_eq_true_eq]

theorem holds_cmpgt
    {w k : Nat}
    (hWidth : w * k = 128)
    (a b : M128) :
    (⟨w, k, hWidth, fun n =>
        (laneBE w k b n).slt (laneBE w k a n)⟩ :
        Comparison).result.Holds
      ((cmpgt w k a b).cast hWidth) :=
  fun _ hN => laneBE_zipLanes w k _ a b hN

theorem holds_cmpeq
    {w k : Nat}
    (hWidth : w * k = 128)
    (a b : M128) :
    (⟨w, k, hWidth, fun n =>
        laneBE w k a n == laneBE w k b n⟩ :
        Comparison).result.Holds
      ((cmpeq w k a b).cast hWidth) := by
  intro n hN
  refine (laneBE_zipLanes w k _ a b hN).trans ?_
  simp only [Comparison.result, beq_iff_eq]

theorem vectorResult_meets
    (i : VectorInstr)
    (x : BitVec 32)
    (v : VectorFile) :
    MeetsLanes (architected i x v) (vectorResult i x v) := by
  cases i with
  | vmhraddshs =>
      exact meets_some fun n hN =>
        laneBE_vmhraddshs _ _ _ hN
  | vmladduhm => exact meets_some (holds_vmladduhm _ _ _)
  | vsel => exact meets_some fun n hN => laneBE_vsel _ _ _ hN
  | vsldoi =>
      exact meets_some fun n hN => laneBE_vsldoi _ _ _ hN
  | vcmpgtuw => exact meets_some (holds_cmpgtUnsigned rfl _ _)
  | vcmpgtuh => exact meets_some (holds_cmpgtUnsigned rfl _ _)
  | vcmpgtub => exact meets_some (holds_cmpgtUnsigned rfl _ _)
  | vcmpgtsw => exact meets_some (holds_cmpgt rfl _ _)
  | vcmpequw => exact meets_some (holds_cmpeq rfl _ _)
  | vcmpequb => exact meets_some (holds_cmpeq rfl _ _)
  | vsrah => exact meets_some fun n hN => laneBE_vsrah _ _ hN
  | vupklsb => exact meets_some fun n hN => laneBE_vupklsb _ hN
  | vupkhsb => exact meets_some fun n hN => laneBE_vupkhsb _ hN
  | vslh => exact meets_some fun n hN => laneBE_vslh _ _ hN
  | vpkshus =>
      exact meets_some fun n hN => laneBE_vpkshus _ _ hN
  | vadduhm =>
      exact meets_some fun n hN =>
        laneBE_zipLanes 16 8 _ _ _ hN
  | vaddubm =>
      exact meets_some fun n hN =>
        laneBE_zipLanes 8 16 _ _ _ hN
  | vsububm =>
      exact meets_some fun n hN =>
        laneBE_zipLanes 8 16 _ _ _ hN
  | vminub => exact meets_some (holds_vminub _ _)
  | vmaxub => exact meets_some (holds_vmaxub _ _)
  | vaddshs => exact meets_some (holds_vaddshs _ _)
  | vsubshs => exact meets_some (holds_vsubshs _ _)
  | vxor => exact meets_some fun n hN => lane_xor _ _ _ _
  | vspltw => exact meets_some fun n hN => laneBE_vspltw _ _ hN
  | vsplth => exact meets_some fun n hN => laneBE_vsplth _ _ hN
  | vspltisw =>
      exact meets_some fun n hN => laneBE_set1 32 4 _ hN
  | vspltish =>
      exact meets_some fun n hN => laneBE_set1 16 8 _ hN
  | vspltisb =>
      exact meets_some fun n hN => laneBE_set1 8 16 _ hN
  | vand => exact meets_some fun n hN => lane_and _ _ _ _
  | vnor => exact meets_some fun n hN => laneBE_vnor _ _ hN
  | vor => exact meets_some fun n hN => lane_or _ _ _ _
  | vadduwm =>
      exact meets_some fun n hN =>
        laneBE_zipLanes 32 4 _ _ _ hN
  | vsubuwm =>
      exact meets_some fun n hN =>
        laneBE_zipLanes 32 4 _ _ _ hN
  | vsubuhm =>
      exact meets_some fun n hN =>
        laneBE_zipLanes 16 8 _ _ _ hN
  | vslw => exact meets_some fun n hN => laneBE_vslw _ _ hN
  | vslb => exact meets_some fun n hN => laneBE_vslb _ _ hN
  | vsrw => exact meets_some fun n hN => laneBE_vsrw _ _ hN
  | vmrghw =>
      exact meets_some
        (holds_merge interleaves_vmrghw rfl rfl _ _)
  | vmrglw =>
      exact meets_some
        (holds_merge interleaves_vmrglw rfl rfl _ _)
  | vandc => exact meets_some fun n hN => laneBE_vandc _ _ hN
  | vsraw => exact meets_some fun n hN => laneBE_vsraw _ _ hN
  | vmrglh =>
      exact meets_some
        (holds_merge interleaves_vmrglh rfl rfl _ _)
  | vmrghh =>
      exact meets_some
        (holds_merge interleaves_vmrghh rfl rfl _ _)
  | vmulosh =>
      exact meets_some fun n hN => laneBE_vmulosh _ _ hN
  | vrlw => exact meets_some fun n hN => laneBE_vrlw _ _ hN
  | vsum4ubs =>
      exact meets_some fun n hN => laneBE_vsum4ubs _ _ hN
  | _ => exact meets_none _

------------------------------------------------------------
-- Record Forms
------------------------------------------------------------

variable {c : Comparison}

/- The whole result is all ones if every test is true. -/
theorem testAllOnes_eq
    (hHolds : c.result.Holds d) :
    testAllOnes d = c.allTrue := by
  have hWidth : 0 < c.width := by
    apply Nat.pos_of_ne_zero
    intro hZero
    have hFull := c.full
    rw [hZero, Nat.zero_mul] at hFull
    omega
  have hNe : 0#c.width ≠ BitVec.allOnes c.width := by
    intro hEq
    have hBit := congrArg (fun v => v.getLsbD 0) hEq
    simp [hWidth] at hBit
  have hLane :
      ∀ n < c.count,
        laneBE c.width c.count (BitVec.allOnes 128) n =
          BitVec.allOnes c.width := by
    intro n hN
    apply BitVec.eq_of_getLsbD_eq
    intro j hJ
    have hIn :
        c.width * (c.count - 1 - n) + j < 128 := by
      have hLe :
          c.width * (c.count - 1 - n + 1) ≤ 128 := by
        rw [← c.full]
        exact Nat.mul_le_mul_left _ (by omega)
      rw [Nat.mul_succ] at hLe
      omega
    rw [laneBE, getLsbD_lane, BitVec.getLsbD_allOnes,
      BitVec.getLsbD_allOnes]
    simp [hJ, hIn]
  have hIff :
      d = BitVec.allOnes 128 ↔
        ∀ n < c.count, c.test n = true := by
    constructor
    · intro hEq n hN
      have hTest :
          laneBE c.width c.count d n =
            if c.test n then BitVec.allOnes c.width
            else 0#c.width :=
        hHolds n hN
      by_contra hFalse
      rw [hEq, hLane n hN, if_neg hFalse] at hTest
      exact hNe hTest.symm
    · intro hTrue
      apply eq_of_laneBE c.full
      intro n hN
      refine (hHolds n hN).trans ?_
      rw [hLane n hN]
      exact if_pos (hTrue n hN)
  unfold testAllOnes Comparison.allTrue
  rw [Bool.eq_iff_iff, beq_iff_eq, decide_eq_true_eq]
  exact hIff

/- The opposite tests. -/
def Comparison.opposite (c : Comparison) : Comparison :=
  { c with test := fun n => !c.test n }

theorem Comparison.opposite_holds
    (hHolds : c.result.Holds d) :
    c.opposite.result.Holds (~~~d) := by
  intro n hN
  have hFits : c.width * (c.count - 1 - n + 1) ≤ 128 := by
    have hBelow : n < c.count := hN
    rw [← c.full]
    exact Nat.mul_le_mul_left _ (by omega)
  have hLane :
      laneBE c.width c.count d n =
        if c.test n then BitVec.allOnes c.width
        else 0#c.width :=
    hHolds n hN
  refine (lane_not c.width d hFits).trans ?_
  rw [laneBE] at hLane
  rw [hLane]
  cases hTest : c.test n <;>
    simp [Comparison.result, opposite, hTest]

theorem updateCRF_field
    (hHolds : c.result.Holds d)
    (r : Registers VectorFile)
    (f : CrIndex) :
    crField (updateCRF d true r).cr f =
      if f = 6#3 then c.field else crField r.cr f := by
  have hNone :
      testAllOnes (~~~d) = c.noneTrue := by
    rw [testAllOnes_eq (Comparison.opposite_holds hHolds)]
    simp [Comparison.allTrue, Comparison.noneTrue,
      Comparison.opposite]
  have hBits :
      ∀ t f : Bool,
        (BitVec.ofBool t).setWidth 8 <<< 3 |||
            (BitVec.ofBool f).setWidth 8 <<< 1 =
          (BitVec.ofBool t ++ 0#1 ++ BitVec.ofBool f ++
            0#1 : BitVec 4).setWidth 8 := by
    decide
  unfold updateCRF
  dsimp only
  rw [if_pos rfl, testAllOnes_eq hHolds, hNone, hBits]
  exact r.crField_setCRF 6#3 f c.field

/- Only the condition register changes. -/
theorem updateCRF_frame
    (d : M128)
    (rc : Bool)
    (r : Registers VectorFile) :
    updateCRF d rc r =
      { r with cr := (updateCRF d rc r).cr } := by
  cases rc <;> rfl

theorem comparison_isSome
    (i : VectorInstr)
    (x : BitVec 32)
    (v : VectorFile) :
    (comparison i x v).isSome = hasRecordForm i := by
  cases i <;> rfl

theorem architected_of_comparison
    {i : VectorInstr}
    {x : BitVec 32}
    {v : VectorFile}
    (hComparison : comparison i x v = some c) :
    architected i x v = some c.result := by
  cases i <;>
    first
    | exact congrArg (Option.map Comparison.result) hComparison
    | cases hComparison

------------------------------------------------------------
-- The Instructions
------------------------------------------------------------

/-
  The destination has the lanes of the architecture.  A
  comparison with the record bit set leaves what it found in
  field 6.  Nothing else changes.
-/
structure LaneExact
    (i : VectorInstr)
    (x : BitVec 32)
    (s : LaneSpec)
    (r r' : Registers VectorFile) : Prop where
  result : s.Holds (r'.rest (vD x))
  vectors : ∀ n, n ≠ vD x → r'.rest n = r.rest n
  record :
    ∀ c, comparison i x r.rest = some c → vRc x = true →
      crField r'.cr 6#3 = c.field
  fields :
    ∀ f : CrIndex,
      f ≠ 6#3 ∨ comparison i x r.rest = none ∨
          vRc x = false →
        crField r'.cr f = crField r.cr f
  others : { r' with rest := r.rest, cr := r.cr } = r

theorem emulateVector_laneExact
    (i : VectorInstr)
    (x : BitVec 32)
    (r : Registers VectorFile)
    (s : LaneSpec)
    (hInteger : architected i x r.rest = some s) :
    ∃ r', emulateVector i x r = some r' ∧
      LaneExact i x s r r' := by
  rcases vectorResult_meets i x r.rest s hInteger with
    ⟨d, hResult, hHolds⟩
  have hRest :
      (updateCRF d (hasRecordForm i && vRc x)
        (r.setXmm (vD x) d)).rest =
        Function.update r.rest (vD x) d := by
    rw [updateCRF_frame]
    rfl
  refine ⟨_, by rw [emulateVector, hResult]; rfl, ?_⟩
  constructor
  case result =>
    rw [hRest, Function.update_self]
    exact hHolds
  case vectors =>
    intro n hOther
    rw [hRest, Function.update_of_ne hOther]
  case record =>
    intro c hComparison hRecord
    have hForm : hasRecordForm i = true := by
      rw [← comparison_isSome i x r.rest, hComparison]
      rfl
    have hSpec := architected_of_comparison hComparison
    rw [hInteger] at hSpec
    cases hSpec
    rw [hForm, hRecord, Bool.and_self,
      updateCRF_field hHolds, if_pos rfl]
  case fields =>
    intro f hKept
    cases hRecord : hasRecordForm i && vRc x with
    | false => rfl
    | true =>
        rw [Bool.and_eq_true] at hRecord
        rcases hRecord with ⟨hForm, hBit⟩
        rw [← comparison_isSome i x r.rest,
          Option.isSome_iff_exists] at hForm
        rcases hForm with ⟨c, hComparison⟩
        have hSpec := architected_of_comparison hComparison
        rw [hInteger] at hSpec
        cases hSpec
        rw [updateCRF_field hHolds]
        have hOther : f ≠ 6#3 := by
          rcases hKept with hOther | hNone | hClear
          · exact hOther
          · rw [hComparison] at hNone
            cases hNone
          · rw [hBit] at hClear
            cases hClear
        rw [if_neg hOther]
        rfl
  case others =>
    cases hasRecordForm i && vRc x <;> rfl

/- vcmpequb. v1,v2,v3 on cleared registers. -/
theorem emulateVector_laneExact_vcmpequb :
    ∃ r',
      emulateVector .vcmpequb 0x10221c06#32
          { cleared.regs with rest := fun _ => 0#128 } =
        some r' ∧
      LaneExact .vcmpequb 0x10221c06#32
        (Comparison.result
          ⟨8, 16, rfl, fun n => byte 0#128 n == byte 0#128 n⟩)
        { cleared.regs with rest := fun _ => 0#128 } r' :=
  emulateVector_laneExact .vcmpequb 0x10221c06#32 _ _ rfl

end Ppu

end Ps3emu
