import Ps3emu.Spu.Storage

/-
  The comparisons of an SPU, and what the interpreter does of
  them.

  The immediates of two unsigned comparisons are extended
  with zeros where the others are extended with their sign.

  Key definitions include:
    * `Order`, `Order.test`
    * `comparison`, `haltTest`
    * `CompareExact`, `ExtensionsAgree`

  Key theorems include:
    * `compare_sets`
    * `compareExact_iff`
-/

------------------------------------------------------------
-- The Architecture
------------------------------------------------------------

namespace Ps3emu

namespace Spu

open Lanes Sse
open Ppu (LaneSpec Comparison bytes_full halfwords_full
  words_full byte halfword word)

/- Equal, greater, and greater without a sign. -/
inductive Order where
  | eq
  | gt
  | lgt
deriving DecidableEq

def Order.test
    {w : Nat}
    (o : Order)
    (a b : BitVec w) : Bool :=
  match o with
  | .eq => a == b
  | .gt => decide (b.toInt < a.toInt)
  | .lgt => decide (b.toNat < a.toNat)

section Comparisons

variable (o : Order) (x : BitVec 32) (r : RegisterFile)

/- The lanes of two registers. -/
def compareB : Comparison :=
  ⟨8, 16, bytes_full, fun n =>
    o.test (byte (r (ra x)) n) (byte (r (rb x)) n)⟩

def compareHw : Comparison :=
  ⟨16, 8, halfwords_full, fun n =>
    o.test (halfword (r (ra x)) n) (halfword (r (rb x)) n)⟩

def compareW : Comparison :=
  ⟨32, 4, words_full, fun n =>
    o.test (word (r (ra x)) n) (word (r (rb x)) n)⟩

/- The lanes of a register and one value. -/
def compareImmB (imm : BitVec 8) : Comparison :=
  ⟨8, 16, bytes_full, fun n =>
    o.test (byte (r (ra x)) n) imm⟩

def compareImmHw (imm : BitVec 16) : Comparison :=
  ⟨16, 8, halfwords_full, fun n =>
    o.test (halfword (r (ra x)) n) imm⟩

def compareImmW (imm : BitVec 32) : Comparison :=
  ⟨32, 4, words_full, fun n =>
    o.test (word (r (ra x)) n) imm⟩

end Comparisons

/-
  The tests of an instruction.  An immediate has its low
  bits compared with bytes, and is otherwise signed.
-/
def comparison
    (j : ComputeInstr)
    (x : BitVec 32)
    (r : RegisterFile) : Option Comparison :=
  let immB := (i10 x).setWidth 8
  let immHw := (i10 x).signExtend 16
  let immW := (i10 x).signExtend 32
  match j with
  | .ceqb => some (compareB .eq x r)
  | .ceqh => some (compareHw .eq x r)
  | .ceq => some (compareW .eq x r)
  | .ceqbi => some (compareImmB .eq x r immB)
  | .ceqhi => some (compareImmHw .eq x r immHw)
  | .ceqi => some (compareImmW .eq x r immW)
  | .cgtb => some (compareB .gt x r)
  | .cgth => some (compareHw .gt x r)
  | .cgt => some (compareW .gt x r)
  | .cgtbi => some (compareImmB .gt x r immB)
  | .cgthi => some (compareImmHw .gt x r immHw)
  | .cgti => some (compareImmW .gt x r immW)
  | .clgtb => some (compareB .lgt x r)
  | .clgth => some (compareHw .lgt x r)
  | .clgt => some (compareW .lgt x r)
  | .clgtbi => some (compareImmB .lgt x r immB)
  | .clgthi => some (compareImmHw .lgt x r immHw)
  | .clgti => some (compareImmW .lgt x r immW)
  | _ => none

/- The test of a halt, on the preferred words. -/
def haltTest
    (j : HaltInstr)
    (x : BitVec 32)
    (r : RegisterFile) : Bool :=
  let a := word (r (ra x)) 0
  let b := word (r (rb x)) 0
  let imm := (i10 x).signExtend 32
  match j with
  | .heq => Order.eq.test a b
  | .heqi => Order.eq.test a imm
  | .hgt => Order.gt.test a b
  | .hgti => Order.gt.test a imm
  | .hlgt => Order.lgt.test a b
  | .hlgti => Order.lgt.test a imm

/-
  A comparison sets the lanes of its target to all ones or
  to zero.  A halt stops the program if its test is true.
-/
def CompareExact
    (i : Instr)
    (x : BitVec 32)
    (t : Thread (FlatMemory 18))
    (result : Except Fault (Thread (FlatMemory 18))) : Prop :=
  match i with
  | .compute j =>
      Yields
        ((comparison j x t.regs.r).map Comparison.result)
        (rt x) t result
  | .halt j =>
      result =
        if haltTest j x t.regs.r then .error .breakpoint
        else .ok t
  | _ => True

/- The two extensions of an immediate agree on a lane. -/
def Agrees
    {w : Nat}
    (imm : BitVec 10)
    (v : BitVec w) : Prop :=
  ¬ ((imm.setWidth w).toNat < v.toNat ∧
    v.toNat ≤ (imm.signExtend w).toNat)

/- They do on every lane, where they make a difference. -/
def ExtensionsAgree
    (i : Instr)
    (x : BitVec 32)
    (r : RegisterFile) : Prop :=
  match i with
  | .compute .clgthi =>
      ∀ n < 8, Agrees (i10 x) (halfword (r (ra x)) n)
  | .compute .clgti =>
      ∀ n < 4, Agrees (i10 x) (word (r (ra x)) n)
  | _ => True

------------------------------------------------------------
-- Lanes of Comparisons
------------------------------------------------------------

theorem eq_iff_test
    {w : Nat}
    (a b : BitVec w) :
    a = b ↔ Order.eq.test a b = true :=
  beq_iff_eq.symm

section Loops

variable {rt : BitVec 7} {r : RegisterFile}
  {test : Nat → Bool} {p : Nat → Prop} [DecidablePred p]

variable (hTest : ∀ n, p n ↔ test n = true)

include hTest

theorem sets_eachB_test :
    Sets rt
      (⟨8, 16, bytes_full, test⟩ : Comparison).result r
      (eachB rt (fun _ n => if p n then 0xff#8 else 0#8) r) := by
  apply sets_eachB
  intro n _ r' _
  exact if_congr (hTest n) rfl rfl

theorem sets_eachHw_test :
    Sets rt
      (⟨16, 8, halfwords_full, test⟩ : Comparison).result r
      (eachHw rt (fun _ n => if p n then 0xffff#16 else 0#16)
        r) := by
  apply sets_eachHw
  intro n _ r' _
  exact if_congr (hTest n) rfl rfl

theorem sets_eachW_test :
    Sets rt
      (⟨32, 4, words_full, test⟩ : Comparison).result r
      (eachW rt
        (fun _ n => if p n then 0xffffffff#32 else 0#32) r) := by
  apply sets_eachW
  intro n _ r' _
  exact if_congr (hTest n) rfl rfl

end Loops

/- An immediate is biased before it is put in every lane. -/
theorem laneBE_cmpgt_biased
    {w k : Nat}
    (hFull : w * k = 128)
    (a : R128)
    (imm : BitVec w)
    {n : Nat}
    (hN : n < k) :
    laneBE w k
        (cmpgt w k
          ((sub w k a
            ((set1 w k (BitVec.intMin w)).cast hFull)).cast
              hFull)
          ((set1 w k (imm - BitVec.intMin w)).cast hFull))
        n =
      if Order.lgt.test (laneBE w k a n) imm then
        BitVec.allOnes w
      else 0#w := by
  have hW : 0 < w := by
    apply Nat.pos_of_ne_zero
    rintro rfl
    omega
  have hI : k - 1 - n < k := by omega
  have hCast :
      ∀ (y : BitVec (w * k)) (i : Nat),
        lane w (y.cast hFull) i = lane w y i :=
    fun _ _ => rfl
  rw [laneBE, lane_cmpgt w k _ _ hI, hCast, hCast,
    lane_sub w k _ _ hI, hCast, lane_set1 w k _ hI,
    lane_set1 w k _ hI, slt_sub_intMin hW]
  rfl

theorem sets_cmpgt_biased
    {rt : BitVec 7}
    {w k : Nat}
    (hFull : w * k = 128)
    (a : R128)
    (imm : BitVec w)
    (r : RegisterFile) :
    Sets rt
      (⟨w, k, hFull, fun n =>
        Order.lgt.test (laneBE w k a n) imm⟩ :
        Comparison).result r
      (r.setXmm rt
        ((cmpgt w k
          ((sub w k a
            ((set1 w k (BitVec.intMin w)).cast hFull)).cast
              hFull)
          ((set1 w k (imm - BitVec.intMin w)).cast
            hFull)).cast hFull)) :=
  sets_setXmm fun _ hN => laneBE_cmpgt_biased hFull a imm hN

theorem sets_cmpgtUnsigned
    {rt : BitVec 7}
    {w k : Nat}
    (hFull : w * k = 128)
    (a b : R128)
    (r : RegisterFile) :
    Sets rt
      (⟨w, k, hFull, fun n =>
        Order.lgt.test (laneBE w k a n) (laneBE w k b n)⟩ :
        Comparison).result r
      (r.setXmm rt
        (Ppu.cmpgtUnsigned w k (BitVec.intMin w) a b hFull)) :=
  sets_setXmm (Ppu.holds_cmpgtUnsigned hFull a b)

theorem sets_cmpeq
    {rt : BitVec 7}
    (a b : R128)
    (r : RegisterFile) :
    Sets rt
      (⟨32, 4, words_full, fun n =>
        Order.eq.test (word a n) (word b n)⟩ :
        Comparison).result r
      (r.setXmm rt (cmpeq 32 4 a b)) :=
  sets_setXmm (Ppu.holds_cmpeq words_full a b)

theorem sets_cmpgt
    {rt : BitVec 7}
    (a b : R128)
    (r : RegisterFile) :
    Sets rt
      (⟨32, 4, words_full, fun n =>
        Order.gt.test (word a n) (word b n)⟩ :
        Comparison).result r
      (r.setXmm rt (cmpgt 32 4 a b)) :=
  sets_setXmm (Ppu.holds_cmpgt words_full a b)

/- Every lane of an immediate is the immediate. -/
theorem sets_test_set1
    {rt : BitVec 7}
    {o : Order}
    {a v : R128}
    {imm : BitVec 32}
    {r : RegisterFile}
    (hSets :
      Sets rt
        (⟨32, 4, words_full, fun n =>
          o.test (word a n) (word (set1 32 4 imm) n)⟩ :
          Comparison).result r (r.setXmm rt v)) :
    Sets rt
      (⟨32, 4, words_full, fun n =>
        o.test (word a n) imm⟩ : Comparison).result r
      (r.setXmm rt v) := by
  refine (sets_iff_of_sets hSets).mpr ?_
  intro n hN
  have hLane : word (set1 32 4 imm) n = imm :=
    laneBE_set1 32 4 imm hN
  simp only [hLane]

------------------------------------------------------------
-- Instructions
------------------------------------------------------------

/- What an instruction sets its target to, if it compares. -/
def Compares
    (j : ComputeInstr)
    (x : BitVec 32)
    (c : Comparison)
    (r : RegisterFile) : Prop :=
  ∃ f,
    emulateCompute j x = some f ∧
      Sets (rt x) c.result r (f r)

/- What the bodies keep of the extended immediates. -/
theorem low_byte_and (imm : BitVec 10) :
    (imm.setWidth 32 &&& 0xff#32).setWidth 8 =
      imm.setWidth 8 := by
  have hMask :
      (0xff#32).setWidth 8 = BitVec.allOnes 8 := by decide
  rw [BitVec.setWidth_and, hMask, BitVec.and_allOnes,
    BitVec.setWidth_setWidth_of_le _ (by decide)]

theorem low_byte_sub (imm : BitVec 10) :
    (imm.setWidth 32 - 0x80#32).setWidth 8 =
      imm.setWidth 8 - BitVec.intMin 8 := by
  rw [BitVec.sub_eq_add_neg, BitVec.sub_eq_add_neg,
    BitVec.setWidth_add _ _ (by decide),
    BitVec.setWidth_setWidth_of_le _ (by decide)]
  rfl

/- The two that extend with zeros compare with that value. -/
theorem clgthi_compares
    (x : BitVec 32)
    (r : RegisterFile) :
    Compares .clgthi x
      (compareImmHw .lgt x r ((i10 x).setWidth 16)) r := by
  have hImm :
      ((i10 x).setWidth 32).setWidth 16 =
        (i10 x).setWidth 16 :=
    BitVec.setWidth_setWidth_of_le _ (by decide)
  rw [← hImm]
  exact ⟨_, rfl, sets_cmpgt_biased halfwords_full _ _ _⟩

theorem clgti_compares
    (x : BitVec 32)
    (r : RegisterFile) :
    Compares .clgti x
      (compareImmW .lgt x r ((i10 x).setWidth 32)) r :=
  ⟨_, rfl, sets_cmpgt_biased words_full _ _ _⟩

/- All others compare with what the architecture names. -/
theorem compare_sets
    {j : ComputeInstr}
    {x : BitVec 32}
    {r : RegisterFile}
    {c : Comparison}
    (hHalfword : j ≠ .clgthi)
    (hWord : j ≠ .clgti)
    (hComparison : comparison j x r = some c) :
    Compares j x c r := by
  cases j with
  | ceqb =>
      cases hComparison
      exact ⟨_, rfl, sets_eachB_test fun _ => eq_iff_test _ _⟩
  | ceqh =>
      cases hComparison
      exact ⟨_, rfl, sets_eachHw_test fun _ => eq_iff_test _ _⟩
  | ceq =>
      cases hComparison
      exact ⟨_, rfl, sets_cmpeq _ _ _⟩
  | ceqbi =>
      cases hComparison
      refine ⟨_, rfl, sets_eachB_test fun _ => ?_⟩
      rw [BitVec.setWidth_setWidth_of_le _ (by decide)]
      exact eq_iff_test _ _
  | ceqhi =>
      cases hComparison
      refine ⟨_, rfl, sets_eachHw_test fun _ => ?_⟩
      rw [setWidth_signExtend _ (by decide)]
      exact eq_iff_test _ _
  | ceqi =>
      cases hComparison
      exact ⟨_, rfl, sets_test_set1 (sets_cmpeq _ _ _)⟩
  | cgtb =>
      cases hComparison
      exact ⟨_, rfl, sets_eachB_test fun _ => Iff.rfl⟩
  | cgth =>
      cases hComparison
      exact ⟨_, rfl, sets_eachHw_test fun _ => Iff.rfl⟩
  | cgt =>
      cases hComparison
      exact ⟨_, rfl, sets_eachW_test fun _ => Iff.rfl⟩
  | cgtbi =>
      cases hComparison
      refine ⟨_, rfl, sets_eachB_test fun _ => ?_⟩
      rw [low_byte_and]
      exact Iff.rfl
  | cgthi =>
      cases hComparison
      refine ⟨_, rfl, sets_eachHw_test fun _ => ?_⟩
      rw [setWidth_signExtend _ (by decide)]
      exact Iff.rfl
  | cgti =>
      cases hComparison
      exact ⟨_, rfl, sets_test_set1 (sets_cmpgt _ _ _)⟩
  | clgtb =>
      cases hComparison
      exact ⟨_, rfl, sets_cmpgtUnsigned bytes_full _ _ _⟩
  | clgth =>
      cases hComparison
      exact ⟨_, rfl, sets_cmpgtUnsigned halfwords_full _ _ _⟩
  | clgt =>
      cases hComparison
      exact ⟨_, rfl, sets_cmpgtUnsigned words_full _ _ _⟩
  | clgtbi =>
      cases hComparison
      have hSets :=
        @sets_cmpgt_biased (rt x) 8 16 bytes_full (r (ra x))
          ((i10 x).setWidth 8) r
      rw [← low_byte_sub] at hSets
      exact ⟨_, rfl, hSets⟩
  | clgthi => exact absurd rfl hHalfword
  | clgti => exact absurd rfl hWord
  | _ => cases hComparison

------------------------------------------------------------
-- Immediates
------------------------------------------------------------

/- The lane is set alike from either extension. -/
theorem lane_eq_iff_agrees
    {w : Nat}
    (hW : 0 < w)
    (imm : BitVec 10)
    (v : BitVec w) :
    ((if Order.lgt.test v (imm.setWidth w) then
        BitVec.allOnes w
      else 0#w) =
      if Order.lgt.test v (imm.signExtend w) then
        BitVec.allOnes w
      else 0#w) ↔
      Agrees imm v := by
  have hNe : 0#w ≠ BitVec.allOnes w := by
    intro hEq
    have hBit := congrArg (fun v => v.getLsbD 0) hEq
    simp [hW] at hBit
  have hLe :
      (imm.setWidth w).toNat ≤ (imm.signExtend w).toNat := by
    rw [BitVec.toNat_signExtend]
    exact Nat.le_add_right _ _
  simp only [Order.test, decide_eq_true_eq, Agrees]
  generalize (imm.setWidth w).toNat = z at *
  generalize (imm.signExtend w).toNat = s at *
  by_cases hZero : z < v.toNat
  · by_cases hSign : s < v.toNat
    · simp [hZero, hSign]
    · simp [hZero, hSign, hNe.symm, Nat.le_of_not_lt hSign]
  · have hSign : ¬ s < v.toNat := by omega
    simp [hZero, hSign]

variable (base : Env (FlatMemory 18)) (x : BitVec 32)
  (cia : BitVec 64) (t : Thread (FlatMemory 18))

theorem clgthi_exact_iff :
    CompareExact (.compute .clgthi) x t
        (emulateInstr (spuEnv base) (.compute .clgthi) x cia
          t) ↔
      ∀ n < 8,
        Agrees (i10 x) (halfword (t.regs.r (ra x)) n) := by
  rcases clgthi_compares x t.regs.r with ⟨f, hBody, hSets⟩
  rw [CompareExact, yields_iff base hBody]
  have hIff :=
    @sets_iff_of_sets _ _ _ _ _
      (compareImmHw .lgt x t.regs.r
        ((i10 x).signExtend 16)).result.lanes _ _ hSets
  constructor
  · intro hExact n hN
    apply (lane_eq_iff_agrees (by decide) _ _).mp
    exact hIff.mp (hExact _ rfl) n hN
  · intro hAgrees s hSpec
    cases hSpec
    apply hIff.mpr
    intro n hN
    exact
      (lane_eq_iff_agrees (by decide) _ _).mpr
        (hAgrees n hN)

theorem clgti_exact_iff :
    CompareExact (.compute .clgti) x t
        (emulateInstr (spuEnv base) (.compute .clgti) x cia
          t) ↔
      ∀ n < 4,
        Agrees (i10 x) (word (t.regs.r (ra x)) n) := by
  rcases clgti_compares x t.regs.r with ⟨f, hBody, hSets⟩
  rw [CompareExact, yields_iff base hBody]
  have hIff :=
    @sets_iff_of_sets _ _ _ _ _
      (compareImmW .lgt x t.regs.r
        ((i10 x).signExtend 32)).result.lanes _ _ hSets
  constructor
  · intro hExact n hN
    apply (lane_eq_iff_agrees (by decide) _ _).mp
    exact hIff.mp (hExact _ rfl) n hN
  · intro hAgrees s hSpec
    cases hSpec
    apply hIff.mpr
    intro n hN
    exact
      (lane_eq_iff_agrees (by decide) _ _).mpr
        (hAgrees n hN)

/- A halt tests what the architecture does. -/
theorem halts_eq_haltTest
    {R : Type}
    (j : HaltInstr)
    (r : Registers R) :
    halts j x r = haltTest j x r.r := by
  cases j <;> rfl

/-
  The comparisons and halts are exact, two of them where the
  extensions of their immediate agree.
-/
theorem compareExact_iff (i : Instr) :
    CompareExact i x t
        (emulateInstr (spuEnv base) i x cia t) ↔
      ExtensionsAgree i x t.regs.r := by
  cases i with
  | compute j =>
      by_cases hHalfword : j = .clgthi
      · subst hHalfword
        exact clgthi_exact_iff base x cia t
      · by_cases hWord : j = .clgti
        · subst hWord
          exact clgti_exact_iff base x cia t
        · have hAgree :
              ExtensionsAgree (.compute j) x t.regs.r := by
            unfold ExtensionsAgree
            split <;> simp_all
          refine iff_of_true ?_ hAgree
          intro s hSpec
          rcases Option.map_eq_some_iff.mp hSpec with
            ⟨c, hComparison, rfl⟩
          rcases compare_sets hHalfword hWord hComparison with
            ⟨f, hBody, hSets⟩
          exact
            ⟨_, emulateInstr_compute base hBody cia t, hSets⟩
  | halt j =>
      refine iff_of_true ?_ trivial
      rw [CompareExact, ← halts_eq_haltTest]
      rfl
  | _ => exact iff_of_true trivial trivial

/- `clgthi $1, $0, -1` on halfwords that are `0x8000`. -/
theorem not_compareExact_clgthi :
    decode 0x5dffc001#32 = some (.compute .clgthi) ∧
      ¬ CompareExact (.compute .clgthi) 0x5dffc001#32
        (threadOf fun _ => set1 16 8 0x8000#16)
        (emulateInstr (spuEnv bareEnv) (.compute .clgthi)
          0x5dffc001#32 0#64
          (threadOf fun _ => set1 16 8 0x8000#16)) := by
  refine ⟨by decide, ?_⟩
  rw [clgthi_exact_iff]
  intro hAgrees
  exact hAgrees 0 (by decide) (by decide)

end Spu

end Ps3emu
