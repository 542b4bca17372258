import Ps3emu.Ppu.Interpreter

/-
  The analysis of branches, against what the interpreter
  does, and the prediction whether a branch is taken.

  Key definitions include:
    * `Predicted`
    * `branchTaken`
    * `predictionOk`

  Key theorems include:
    * `step_predicted`
    * `isTaken_iff`
-/

------------------------------------------------------------
-- Next Address
------------------------------------------------------------

namespace Ps3emu

namespace Ppu

variable {R : Type}

section NextAddress

@[simp] theorem setNIP_nip
    (t : PPUThread R)
    (value : BitVec 64) :
    (t.setNIP value).nip = value.setWidth 32 :=
  rfl

@[simp] theorem link_nip
    (lk : Bool)
    (cia : BitVec 64)
    (t : PPUThread R) :
    (link lk cia t).nip = t.nip := by
  unfold link
  split <;> rfl

@[simp] theorem countDown_nip
    (bo2 : Bool)
    (t : PPUThread R) :
    (countDown bo2 t).nip = t.nip := by
  unfold countDown
  split <;> rfl

@[simp] theorem link_ctr
    (lk : Bool)
    (cia : BitVec 64)
    (t : PPUThread R) :
    (link lk cia t).regs.ctr = t.regs.ctr := by
  unfold link
  split <;> rfl

@[simp] theorem link_cr
    (lk : Bool)
    (cia : BitVec 64)
    (t : PPUThread R) :
    (link lk cia t).regs.cr = t.regs.cr := by
  unfold link
  split <;> rfl

@[simp] theorem countDown_cr
    (bo2 : Bool)
    (t : PPUThread R) :
    (countDown bo2 t).regs.cr = t.regs.cr := by
  unfold countDown
  split <;> rfl

@[simp] theorem countDown_lr
    (bo2 : Bool)
    (t : PPUThread R) :
    (countDown bo2 t).regs.lr = t.regs.lr := by
  unfold countDown
  split <;> rfl

/- The test looks at the counter and the condition only. -/
theorem isTakenBo_link
    (bo0 bo1 bo2 bo3 : Bool)
    (lk : Bool)
    (cia : BitVec 64)
    (t : PPUThread R)
    (bi : BitVec 5) :
    isTakenBo bo0 bo1 bo2 bo3 (link lk cia t).regs bi =
      isTakenBo bo0 bo1 bo2 bo3 t.regs bi := by
  unfold isTakenBo
  rw [link_ctr, link_cr]

theorem onRegisters_nip
    {f : Registers R → Except Fault (Registers R)}
    {t t' : PPUThread R}
    (hRun : onRegisters f t = .ok t') :
    t'.nip = t.nip := by
  unfold onRegisters at hRun
  cases hResult : f t.regs with
  | error e =>
      rw [hResult] at hRun
      cases hRun
  | ok r =>
      rw [hResult] at hRun
      cases hRun
      rfl

/- An instruction that does not set the next address. -/
theorem emulateInstr_nip
    {env : Env R}
    {i : Instr}
    (hSets : i.setsNip = false)
    {x : BitVec 32}
    {cia : BitVec 64}
    {t t' : PPUThread R}
    (hRun : emulateInstr env i x cia t = .ok t') :
    t'.nip = t.nip := by
  cases i with
  | integer i => exact onRegisters_nip hRun
  | register i => exact onRegisters_nip hRun
  | branch i => cases hSets
  | hint i =>
      cases hRun
      rfl
  | memory i => exact onRegisters_nip hRun
  | floating i => exact onRegisters_nip hRun
  | vector i => exact onRegisters_nip hRun
  | system i =>
      cases i with
      | ncall => cases hSets
      | bbcall => cases hRun
      | sc => exact onRegisters_nip hRun
      | td =>
          simp only [emulateInstr, emulateSystem,
            emulateTrap] at hRun
          split at hRun <;> cases hRun
      | tw =>
          simp only [emulateInstr, emulateSystem,
            emulateTrap] at hRun
          split at hRun <;> cases hRun

end NextAddress

------------------------------------------------------------
-- Analysis
------------------------------------------------------------

/- The registers after the counter has been decremented. -/
def counted
    (x : BitVec 32)
    (r : Registers R) : Registers R :=
  { r with ctr := if bo2 x then r.ctr else r.ctr - 1#64 }

/- Whether the interpreter takes a direct branch. -/
def branchTaken
    (x : BitVec 32)
    (r : Registers R) : Bool :=
  opcd x == 18#6 ||
    isTakenBo (bo0 x) (bo1 x) (bo2 x) (bo3 x)
      (counted x r) (bi x)

/- The next addresses that an analysis allows. -/
def Predicted
    (x : BitVec 32)
    (cia : BitVec 32)
    (r : Registers R)
    (nip : BitVec 32) : Prop :=
  let info := analyze x cia
  if info.flow then
    info.target = some nip ∨
      (info.passthrough = true ∧ nip = cia + 4#32) ∨
        (BranchWord x .bclr ∧
          nip = (r.lr &&& ~~~3#64).setWidth 32) ∨
        (BranchWord x .bcctr ∧
          nip = (r.ctr &&& ~~~3#64).setWidth 32)
  else nip = cia + 4#32

variable {x : BitVec 32}

theorem analyze_of_ne
    (hNcall : opcd x ≠ 1#6)
    (hBranch : ∀ i, ¬ BranchWord x i)
    (cia : BitVec 32) :
    analyze x cia = noFlow := by
  have hB := hBranch .b
  have hBc := hBranch .bc
  have hBclr := hBranch .bclr
  have hBcctr := hBranch .bcctr
  simp only [BranchWord, not_and] at hB hBc hBclr hBcctr
  simp only [analyze, if_neg hNcall, if_neg hB, if_neg hBc]
  by_cases h19 : opcd x = 19#6
  · rw [if_pos h19, if_neg (hBclr h19),
      if_neg (hBcctr h19)]
  · rw [if_neg h19]

theorem analyze_b
    (hWord : BranchWord x .b)
    (cia : BitVec 32) :
    analyze x cia =
      { flow := true
        target := some
          ((getNIAI x (cia.setWidth 64)).setWidth 32)
        passthrough := lk x } := by
  have hOpcd : opcd x = 18#6 := hWord
  simp [analyze, hOpcd]

theorem analyze_bc
    (hWord : BranchWord x .bc)
    (cia : BitVec 32) :
    analyze x cia =
      { flow := true
        passthrough := !(bo2 x && bo0 x) || lk x
        target := some
          ((getNIAB x (cia.setWidth 64)).setWidth 32) } := by
  have hOpcd : opcd x = 16#6 := hWord
  simp [analyze, hOpcd]

theorem analyze_bclr
    (hWord : BranchWord x .bclr)
    (cia : BitVec 32) :
    analyze x cia =
      { flow := true
        passthrough := !(bo2 x && bo0 x) || lk x
        target := none } := by
  rcases hWord with ⟨hOpcd, hXo⟩
  simp [analyze, hOpcd, hXo, noFlow]

theorem analyze_bcctr
    (hWord : BranchWord x .bcctr)
    (cia : BitVec 32) :
    analyze x cia =
      { flow := true
        passthrough := !bo0 x || lk x
        target := none } := by
  rcases hWord with ⟨hOpcd, hXo⟩
  simp [analyze, hOpcd, hXo, noFlow]

------------------------------------------------------------
-- Branches and Their Analysis
------------------------------------------------------------

/- The counter that the test of a branch sees. -/
theorem isTakenBo_countDown
    (x : BitVec 32)
    (lk : Bool)
    (cia : BitVec 64)
    (t : PPUThread R) :
    isTakenBo (bo0 x) (bo1 x) (bo2 x) (bo3 x)
        (link lk cia (countDown (bo2 x) t)).regs (bi x) =
      isTakenBo (bo0 x) (bo1 x) (bo2 x) (bo3 x)
        (counted x t.regs) (bi x) := by
  rw [isTakenBo_link]
  unfold countDown counted
  cases bo2 x <;> rfl

/- A branch that tests nothing is taken. -/
theorem isTakenBo_always
    (bo1 bo3 : Bool)
    (r : Registers R)
    (bi : BitVec 5) :
    isTakenBo true bo1 true bo3 r bi = true := by
  rfl

theorem emulateBc_nip
    (x : BitVec 32)
    (lk : Bool)
    (nia cia : BitVec 64)
    (t : PPUThread R) :
    (emulateBc (bo0 x) (bo1 x) (bo2 x) (bo3 x) (bi x) lk
        nia cia t).nip =
      if isTakenBo (bo0 x) (bo1 x) (bo2 x) (bo3 x)
          (counted x t.regs) (bi x) then nia.setWidth 32
      else t.nip := by
  unfold emulateBc
  simp only [isTakenBo_countDown]
  split
  · rfl
  · rw [link_nip, countDown_nip]

theorem emulateBclr_nip
    (x : BitVec 32)
    (lk : Bool)
    (cia : BitVec 64)
    (t : PPUThread R) :
    (emulateBclr (bo0 x) (bo1 x) (bo2 x) (bo3 x) (bi x) lk
        cia t).nip =
      if isTakenBo (bo0 x) (bo1 x) (bo2 x) (bo3 x)
          (counted x t.regs) (bi x) then
        (t.regs.lr &&& ~~~3#64).setWidth 32
      else t.nip := by
  unfold emulateBclr
  simp only [isTakenBo_countDown]
  split
  · rw [setNIP_nip, countDown_lr]
  · rw [link_nip, countDown_nip]

theorem emulateBcctr_nip
    (bo0 bo1 : Bool)
    (bi : BitVec 5)
    (lk : Bool)
    (cia : BitVec 64)
    (t : PPUThread R) :
    (emulateBcctr bo0 bo1 bi lk cia t).nip =
      if bo0 || bitTest t.regs.cr 32 bi.toNat == bo1 then
        (t.regs.ctr &&& ~~~3#64).setWidth 32
      else t.nip := by
  unfold emulateBcctr
  dsimp only
  split
  · rw [setNIP_nip, link_ctr]
  · rw [link_nip]

/- A branch that may not be taken passes control through. -/
theorem passthrough_of_not_taken
    {r : Registers R}
    (hNot :
      ¬ isTakenBo (bo0 x) (bo1 x) (bo2 x) (bo3 x) r
        (bi x) = true) :
    (!(bo2 x && bo0 x) || lk x) = true := by
  cases h2 : bo2 x with
  | false => rfl
  | true =>
      cases h0 : bo0 x with
      | false => rfl
      | true =>
          rw [h2, h0] at hNot
          exact absurd (isTakenBo_always _ _ _ _) hNot

theorem predicted_of_flow
    {x cia nip : BitVec 32}
    {r : Registers R}
    {info : Rewriter.InstructionInfo}
    (hInfo : analyze x cia = info)
    (hFlow : info.flow = true)
    (hNip :
      info.target = some nip ∨
        (info.passthrough = true ∧ nip = cia + 4#32) ∨
          (BranchWord x .bclr ∧
            nip = (r.lr &&& ~~~3#64).setWidth 32) ∨
          (BranchWord x .bcctr ∧
            nip = (r.ctr &&& ~~~3#64).setWidth 32)) :
    Predicted x cia r nip := by
  unfold Predicted
  simp only [hInfo]
  rw [if_pos hFlow]
  exact hNip

variable {i : BranchInstr}

/- Where a branch goes, by the kind of the branch. -/
theorem emulateBranch_predicted
    (hWord : BranchWord x i)
    (cia : BitVec 32)
    (t : PPUThread R)
    (hNip : t.nip = cia + 4#32) :
    Predicted x cia t.regs
      (emulateBranch i x (cia.setWidth 64) t).nip := by
  cases i with
  | b =>
      exact
        predicted_of_flow (analyze_b hWord cia) rfl
          (.inl rfl)
  | bc =>
      refine predicted_of_flow (analyze_bc hWord cia) rfl ?_
      simp only [emulateBranch, emulateBc_nip, hNip]
      split
      · exact .inl rfl
      · rename_i hNot
        exact .inr (.inl ⟨passthrough_of_not_taken hNot, rfl⟩)
  | bclr =>
      refine
        predicted_of_flow (analyze_bclr hWord cia) rfl ?_
      simp only [emulateBranch, emulateBclr_nip, hNip]
      split
      · exact .inr (.inr (.inl ⟨hWord, rfl⟩))
      · rename_i hNot
        exact .inr (.inl ⟨passthrough_of_not_taken hNot, rfl⟩)
  | bcctr =>
      refine
        predicted_of_flow (analyze_bcctr hWord cia) rfl ?_
      simp only [emulateBranch, emulateBcctr_nip, hNip]
      split
      · exact .inr (.inr (.inr ⟨hWord, rfl⟩))
      · rename_i hNot
        refine .inr (.inl ⟨?_, rfl⟩)
        cases h0 : bo0 x with
        | false => rfl
        | true =>
            rw [h0] at hNot
            exact absurd rfl hNot

/-
  A direct branch goes to the target that is reported for it,
  or to the next instruction.
-/
theorem emulateBranch_target
    (hWord : BranchWord x i)
    {cia target : BitVec 32}
    (hTarget : (analyze x cia).target = some target)
    (t : PPUThread R)
    (hNip : t.nip = cia + 4#32) :
    (emulateBranch i x (cia.setWidth 64) t).nip =
      if branchTaken x t.regs then target
      else cia + 4#32 := by
  cases i with
  | b =>
      rw [analyze_b hWord] at hTarget
      cases hTarget
      have hOpcd : opcd x = 18#6 := hWord
      simp [emulateBranch, emulateB, branchTaken, hOpcd]
  | bc =>
      rw [analyze_bc hWord] at hTarget
      cases hTarget
      have hOpcd : opcd x = 16#6 := hWord
      simp only [emulateBranch, emulateBc_nip, branchTaken,
        hOpcd, hNip]
      simp
  | bclr =>
      rw [analyze_bclr hWord] at hTarget
      cases hTarget
  | bcctr =>
      rw [analyze_bcctr hWord] at hTarget
      cases hTarget

/-
  Every word that is no call of the emulator goes where the
  analysis says, and to the very target it reports.
-/
theorem step_predicted
    (env : Env R)
    (x cia : BitVec 32)
    (t t' : PPUThread R)
    (hNcall : opcd x ≠ 1#6)
    (hStep : step env x cia t = .ok t') :
    Predicted x cia t.regs t'.nip ∧
      ∀ target,
        (analyze x cia).target = some target →
          t'.nip =
            if branchTaken x t.regs then target
            else cia + 4#32 := by
  unfold step emulate at hStep
  cases hDecode : decode x with
  | none =>
      rw [hDecode] at hStep
      cases hStep
  | some i =>
      rw [hDecode] at hStep
      cases hSets : i.setsNip with
      | true =>
          rcases setsNip_of_decode hDecode hSets with
            ⟨j, rfl, hWord⟩ | ⟨-, hOpcd⟩
          · cases hStep
            exact
              ⟨emulateBranch_predicted hWord cia _ rfl,
                fun target hTarget =>
                  emulateBranch_target hWord hTarget _ rfl⟩
          · exact absurd hOpcd hNcall
      | false =>
          have hNip := emulateInstr_nip hSets hStep
          have hBranch : ∀ j, ¬ BranchWord x j := by
            intro j hWord
            rw [← decode_eq_branch, hDecode] at hWord
            cases hWord
            cases hSets
          have hInfo := analyze_of_ne hNcall hBranch cia
          constructor
          · unfold Predicted
            rw [hInfo]
            exact hNip
          · intro target hTarget
            rw [hInfo] at hTarget
            cases hTarget

/- bge cr7,103b4. -/
theorem step_predicted_bge :
    Predicted 0x409cffe0#32 0x103d4#32 cleared.regs
      0x103b4#32 :=
  (step_predicted (idle Unit) 0x409cffe0#32 0x103d4#32
    cleared { cleared with nip := 0x103b4#32 }
    (by decide) rfl).1

------------------------------------------------------------
-- Prediction
------------------------------------------------------------

/- A word that carries its target. -/
def Direct (x : BitVec 32) : Prop :=
  BranchWord x .b ∨ BranchWord x .bc

/-
  The prediction on the state before the step says where the
  step leads.
-/
def PredictionExact
    (env : Env R)
    (x cia : BitVec 32)
    (t : PPUThread R) : Prop :=
  ∃ taken target t',
    isTaken x cia t = .ok taken ∧
      getTargetAddress x cia = .ok target ∧
        step env x cia t = .ok t' ∧
          t'.nip =
            if taken then target.setWidth 32
            else cia + 4#32

/-
  The counter is not tested, or the condition fails, or the
  counter is neither of the values whose test changes when it
  is decremented, or the two addresses are one.
-/
def PredictionCondition
    (x cia : BitVec 32)
    (r : Registers R) : Prop :=
  opcd x = 18#6 ∨
    bo2 x = true ∨
      (bo0 x = false ∧
        bitTest r.cr 32 (bi x).toNat ≠ bo1 x) ∨
        (r.ctr ≠ 0#64 ∧ r.ctr ≠ 1#64) ∨
          (getNIAB x (cia.setWidth 64)).setWidth 32 =
            cia + 4#32

theorem step_branch
    (env : Env R)
    (hWord : BranchWord x i)
    (cia : BitVec 32)
    (t : PPUThread R) :
    step env x cia t =
      .ok (emulateBranch i x (cia.setWidth 64)
        { t with nip := cia + 4#32 }) := by
  unfold step emulate
  rw [(decode_eq_branch i).mpr hWord]
  rfl

/- Two tests of one branch lead to one address. -/
theorem ite_eq_ite_iff
    {a b : Bool}
    {target next : BitVec 32} :
    (if a then target else next) =
        (if b then target else next) ↔
      a = b ∨ target = next := by
  cases a <;> cases b <;> simp [eq_comm]

/- When the test before and after the decrement agree. -/
theorem isTakenBo_counted_iff
    (x : BitVec 32)
    (r : Registers R) :
    isTakenBo (bo0 x) (bo1 x) (bo2 x) (bo3 x)
          (counted x r) (bi x) =
        isTakenBo (bo0 x) (bo1 x) (bo2 x) (bo3 x) r
          (bi x) ↔
      bo2 x = true ∨
        (bo0 x = false ∧
          bitTest r.cr 32 (bi x).toNat ≠ bo1 x) ∨
          (r.ctr ≠ 0#64 ∧ r.ctr ≠ 1#64) := by
  unfold isTakenBo counted
  cases h2 : bo2 x with
  | true => simp
  | false =>
      have hCounter :
          (r.ctr - 1#64 != 0#64) = (r.ctr != 0#64) ↔
            r.ctr ≠ 0#64 ∧ r.ctr ≠ 1#64 := by
        have hOne : r.ctr - 1#64 = 0#64 ↔ r.ctr = 1#64 := by
          constructor
          · intro hEq
            bv_omega
          · intro hEq
            rw [hEq]
            rfl
        by_cases hZero : r.ctr = 0#64
        · simp [hZero]
        · by_cases hUnit : r.ctr = 1#64
          · simp [hUnit]
          · have hSub : r.ctr - 1#64 ≠ 0#64 :=
              fun hEq => hUnit (hOne.mp hEq)
            have hBefore : (r.ctr != 0#64) = true :=
              bne_iff_ne.mpr hZero
            have hAfter : (r.ctr - 1#64 != 0#64) = true :=
              bne_iff_ne.mpr hSub
            rw [hBefore, hAfter]
            simp [hZero, hUnit]
      cases h0 : bo0 x with
      | true =>
          simp only [Bool.false_or, Bool.true_or,
            Bool.and_true, Bool.false_eq_true, if_false,
            Bool.true_eq_false, false_and, false_or]
          rw [← hCounter]
          cases bo3 x <;> simp
      | false =>
          cases hCond :
              bitTest r.cr 32 (bi x).toNat == bo1 x with
          | false =>
              have hNe :
                  bitTest r.cr 32 (bi x).toNat ≠ bo1 x := by
                simpa using hCond
              simp [hNe]
          | true =>
              have hEq :
                  bitTest r.cr 32 (bi x).toNat = bo1 x := by
                simpa using hCond
              simp only [Bool.false_or, Bool.and_true,
                Bool.false_eq_true, if_false, hEq,
                ne_eq, not_true_eq_false, and_false,
                false_or]
              rw [← ne_eq, ← ne_eq, ← hCounter]
              cases bo3 x <;> simp

/-
  The prediction is exact if and only if the test does not
  depend on the decrement.
-/
theorem isTaken_iff
    (env : Env R)
    (x cia : BitVec 32)
    (t : PPUThread R)
    (hDirect : Direct x) :
    PredictionExact env x cia t ↔
      PredictionCondition x cia t.regs := by
  unfold PredictionExact
  rcases hDirect with hB | hBc
  · have hOpcd : opcd x = 18#6 := hB
    have hLeft : PredictionCondition x cia t.regs :=
      .inl hOpcd
    refine iff_of_true
      ⟨true, getNIAI x (cia.setWidth 64), _, ?_, ?_,
        step_branch env hB cia t, ?_⟩ hLeft
    · unfold isTaken
      rw [if_pos hOpcd]
    · unfold getTargetAddress
      rw [if_pos hOpcd]
    · rfl
  · have hOpcd : opcd x = 16#6 := hBc
    have hNe : opcd x ≠ 18#6 := by
      rw [hOpcd]
      decide
    have hTaken :
        isTaken x cia t =
          .ok (isTakenBo (bo0 x) (bo1 x) (bo2 x) (bo3 x)
            t.regs (bi x)) := by
      unfold isTaken
      rw [if_neg hNe, if_pos hOpcd]
    have hTarget :
        getTargetAddress x cia =
          .ok (getNIAB x (cia.setWidth 64)) := by
      unfold getTargetAddress
      rw [if_neg hNe, if_pos hOpcd]
    have hNip :
        (emulateBranch .bc x (cia.setWidth 64)
            { t with nip := cia + 4#32 }).nip =
          if isTakenBo (bo0 x) (bo1 x) (bo2 x) (bo3 x)
              (counted x t.regs) (bi x) then
            (getNIAB x (cia.setWidth 64)).setWidth 32
          else cia + 4#32 :=
      emulateBc_nip x (lk x) _ _ _
    have hCondition :
        PredictionCondition x cia t.regs ↔
          isTakenBo (bo0 x) (bo1 x) (bo2 x) (bo3 x)
                (counted x t.regs) (bi x) =
              isTakenBo (bo0 x) (bo1 x) (bo2 x) (bo3 x)
                t.regs (bi x) ∨
            (getNIAB x (cia.setWidth 64)).setWidth 32 =
              cia + 4#32 := by
      rw [isTakenBo_counted_iff]
      unfold PredictionCondition
      simp only [hNe, false_or, or_assoc]
    rw [hCondition, ← ite_eq_ite_iff, ← hNip]
    constructor
    · rintro ⟨taken, target, t', hT, hA, hS, hEq⟩
      rw [hTaken] at hT
      rw [hTarget] at hA
      rw [step_branch env hBc] at hS
      cases hT
      cases hA
      cases hS
      exact hEq
    · intro hEq
      exact
        ⟨_, _, _, hTaken, hTarget,
          step_branch env hBc cia t, hEq⟩

/- bdnz .+8, with the counter at two: taken both times. -/
theorem isTaken_iff_bdnz :
    PredictionExact (idle Unit) 0x42000008#32 0x1000#32
      { cleared with
        regs := { cleared.regs with ctr := 2 } } :=
  (isTaken_iff (idle Unit) 0x42000008#32 0x1000#32 _
    (.inr rfl)).mpr
    (.inr (.inr (.inr (.inl (by decide)))))

/-
  With the counter at one the prediction is that the branch is
  taken, and it is not.
-/
theorem bdnz_not_exact :
    ¬ ∀ (env : Env Unit)
        (x cia : BitVec 32)
        (t : PPUThread Unit),
        Direct x → PredictionExact env x cia t := by
  intro hAll
  rcases hAll (idle Unit) 0x42000008#32 0x1000#32
      { cleared with
        regs := { cleared.regs with ctr := 1 } }
      (.inr rfl) with
    ⟨taken, target, t', hTaken, hTarget, hStep, hNip⟩
  cases hTaken
  cases hTarget
  cases hStep
  revert hNip
  decide

end Ppu

end Ps3emu
