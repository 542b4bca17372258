import Ps3emu.Library.Fallible
import Ps3emu.Ppu.Branch

/-
  The instructions as they are compiled by the rewriter.  The
  macros are those of the interpreter, but an instruction
  that sets the next address leaves the code that it is in.

  Key definitions include:
    * `SetNip`, `Outcome`
    * `rewritten`
    * `Outcome.Agrees`, `WayOut`

  Key theorems include:
    * `rewritten_agrees`
    * `rewritten_wayOut`
-/

------------------------------------------------------------
-- Macros
------------------------------------------------------------

namespace Ps3emu

namespace Ppu

variable {R : Type}

/- What `SET_NIP` is defined as. -/
inductive SetNip where
  | initial
  | indirect
deriving DecidableEq

/-
  Control goes on behind the code of an instruction, or to a
  label of the function, or returns from the function.
-/
inductive Outcome (R : Type) where
  | next (t : PPUThread R)
  | goto (label : BitVec 64) (t : PPUThread R)
  | ret (t : PPUThread R)

/- `{TH->setNIP(x & ~3ul); return;}`. -/
def setNipIndirect
    (nia : BitVec 64)
    (t : PPUThread R) : Outcome R :=
  .ret (t.setNIP (nia &&& ~~~3#64))

/- `goto _##x`, unless the macro has been redefined. -/
def setNip
    (mode : SetNip)
    (nia : BitVec 64)
    (t : PPUThread R) : Outcome R :=
  match mode with
  | .initial => .goto nia t
  | .indirect => setNipIndirect nia t

def rewrittenB
    (mode : SetNip)
    (nia : BitVec 64)
    (lk : Bool)
    (cia : BitVec 64)
    (t : PPUThread R) : Outcome R :=
  setNip mode nia (link lk cia t)

def rewrittenBc
    (mode : SetNip)
    (bo0 bo1 bo2 bo3 : Bool)
    (bi : BitVec 5)
    (lk : Bool)
    (nia cia : BitVec 64)
    (t : PPUThread R) : Outcome R :=
  let t := link lk cia (countDown bo2 t)
  if isTakenBo bo0 bo1 bo2 bo3 t.regs bi then
    setNip mode nia t
  else .next t

/- `BRANCH_TO_LR` returns. -/
def rewrittenBclr
    (bo0 bo1 bo2 bo3 : Bool)
    (bi : BitVec 5)
    (lk : Bool)
    (cia : BitVec 64)
    (t : PPUThread R) : Outcome R :=
  let t := countDown bo2 t
  let lr := t.regs.lr
  let t := link lk cia t
  if isTakenBo bo0 bo1 bo2 bo3 t.regs bi then
    setNipIndirect lr t
  else .next t

def rewrittenBcctr
    (bo0 bo1 : Bool)
    (bi : BitVec 5)
    (lk : Bool)
    (cia : BitVec 64)
    (t : PPUThread R) : Outcome R :=
  let condOk :=
    bo0 || bitTest t.regs.cr 32 bi.toNat == bo1
  let t := link lk cia t
  if condOk then
    setNipIndirect (t.regs.ctr &&& ~~~3#64) t
  else .next t

def rewrittenBranch
    (mode : SetNip)
    (i : BranchInstr)
    (x : BitVec 32)
    (cia : BitVec 64)
    (t : PPUThread R) : Outcome R :=
  match i with
  | .b => rewrittenB mode (getNIAI x cia) (lk x) cia t
  | .bc =>
      rewrittenBc mode (bo0 x) (bo1 x) (bo2 x) (bo3 x) (bi x)
        (lk x) (getNIAB x cia) cia t
  | .bclr =>
      rewrittenBclr (bo0 x) (bo1 x) (bo2 x) (bo3 x) (bi x)
        (lk x) cia t
  | .bcctr =>
      rewrittenBcctr (bo0 x) (bo1 x) (bi x) (lk x) cia t

/- `RETURN_REWRITER_NCALL` returns after the call. -/
def rewrittenInstr
    (env : Env R)
    (mode : SetNip)
    (i : Instr)
    (x : BitVec 32)
    (cia : BitVec 64)
    (t : PPUThread R) : Except Fault (Outcome R) :=
  match i with
  | .branch i => .ok (rewrittenBranch mode i x cia t)
  | .system .ncall =>
      (emulateSystem env .ncall x t).map .ret
  | i => (emulateInstr env i x cia t).map .next

/- The code that is printed for a word, when it is run. -/
def rewritten
    (env : Env R)
    (mode : SetNip)
    (x : BitVec 32)
    (cia : BitVec 32)
    (t : PPUThread R) : Except Fault (Outcome R) :=
  match decode x with
  | some i => rewrittenInstr env mode i x (cia.setWidth 64) t
  | none => .error .illegalInstruction

/-
  `PPUThread::ncall` with the table of its callees.  The next
  address is the link register before a callee is run; the
  copy of the old one is for the debugger.
-/
def Env.withNcall
    (env : Env R)
    (callee :
      BitVec 26 → PPUThread R → Except Fault (PPUThread R)) :
    Env R :=
  { env with
    ncall := fun i t => callee i (t.setNIP t.regs.lr) }

------------------------------------------------------------
-- Printed Targets
------------------------------------------------------------

/- The address that the code of a direct branch contains. -/
def nia (x : BitVec 32) (cia : BitVec 32) : BitVec 64 :=
  if opcd x = 18#6 then getNIAI x (cia.setWidth 64)
  else getNIAB x (cia.setWidth 64)

/- A displacement of words, of less than 32 MB. -/
structure Near (ext : BitVec 64) : Prop where
  aligned : ext.toNat % 4 = 0
  lower : -0x2000000 ≤ ext.toInt
  upper : ext.toInt < 0x2000000

/- Two bits are shifted out, and both are copies of the sign. -/
theorem toInt_shiftLeft_two
    {v : BitVec 32}
    (hLower : -0x800000 ≤ v.toInt)
    (hUpper : v.toInt < 0x800000) :
    (v <<< 2).toInt = 4 * v.toInt := by
  have hLt := v.isLt
  rw [BitVec.toInt_eq_toNat_cond] at hLower hUpper
  rw [BitVec.toInt_eq_toNat_cond, BitVec.toInt_eq_toNat_cond,
    BitVec.toNat_shiftLeft, Nat.shiftLeft_eq]
  split at hLower
  · rename_i hCase
    rw [if_pos hCase] at hUpper
    rw [if_pos hCase]
    split <;> omega
  · rename_i hCase
    rw [if_neg hCase] at hUpper
    rw [if_neg hCase]
    split <;> omega

theorem near_of_field
    {n : Nat}
    (v : BitVec n)
    (hWidth : n ≤ 24) :
    Near ((v.signExtend 32 <<< 2).signExtend 64) := by
  have hField : (v.signExtend 32).toInt = v.toInt :=
    BitVec.toInt_signExtend_of_le (by omega)
  have hBound : (2 : Int) ^ (n - 1) ≤ 0x800000 := by
    have hNat : 2 ^ (n - 1) ≤ 0x800000 :=
      Nat.pow_le_pow_right (Nat.two_pos)
        (show n - 1 ≤ 23 by omega)
    have hCast := Int.ofNat_le.mpr hNat
    rw [Int.natCast_pow] at hCast
    exact hCast
  have hLower := BitVec.le_toInt v
  have hUpper := BitVec.toInt_lt (x := v)
  have hValue :
      ((v.signExtend 32 <<< 2).signExtend 64).toInt =
        4 * v.toInt := by
    rw [BitVec.toInt_signExtend_of_le (by omega),
      toInt_shiftLeft_two (by omega) (by omega), hField]
  refine ⟨?_, by omega, by omega⟩
  rw [BitVec.toNat_signExtend, BitVec.toNat_setWidth,
    BitVec.toNat_shiftLeft, Nat.shiftLeft_eq]
  split <;> omega

/- The address is relative to the branch or to zero. -/
theorem nia_eq
    (x cia : BitVec 32) :
    ∃ base ext,
      nia x cia = base + ext ∧ Near ext ∧
        (base = 0#64 ∨ base = cia.setWidth 64) := by
  unfold nia getNIAI getNIAB
  have hLi := near_of_field (li x) (by omega)
  have hBd := near_of_field (bd x) (by omega)
  by_cases hOpcd : opcd x = 18#6
  · rw [if_pos hOpcd]
    cases hAbsolute : aa x with
    | true =>
        exact ⟨0#64, _, (BitVec.zero_add _).symm, hLi, .inl rfl⟩
    | false => exact ⟨_, _, rfl, hLi, .inr rfl⟩
  · rw [if_neg hOpcd]
    cases hAbsolute : aa x with
    | true =>
        exact ⟨0#64, _, (BitVec.zero_add _).symm, hBd, .inl rfl⟩
    | false =>
        exact ⟨_, _, BitVec.add_comm _ _, hBd, .inr rfl⟩

/- Masking the lowest two bits leaves an address as it is. -/
theorem and_not_three
    {va : BitVec 64}
    (hAligned : va.toNat % 4 = 0) :
    va &&& ~~~3#64 = va := by
  have hMask : ~~~3#64 = BitVec.ofNat 64 (2 ^ 64 - 2 ^ 2) :=
    rfl
  apply BitVec.eq_of_toNat_eq
  rw [hMask, Masks.toNat_and_high _ 2 (by omega)]
  omega

variable {cia : BitVec 32}

theorem nia_and
    (x : BitVec 32)
    (hAligned : cia.toNat % 4 = 0) :
    nia x cia &&& ~~~3#64 = nia x cia := by
  rcases nia_eq x cia with ⟨base, ext, hEq, hNear, hBase⟩
  have hExt := hNear.aligned
  apply and_not_three
  rw [hEq, BitVec.toNat_add]
  rcases hBase with rfl | rfl
  · rw [BitVec.toNat_ofNat]
    omega
  · rw [BitVec.toNat_setWidth]
    omega

/-
  Where code and target lie below the windows of the SPUs the
  address is printed as the number of its low word.
-/
theorem nia_eq_setWidth
    {x cia target : BitVec 32}
    (hCia : cia.toNat < 0xe0000000)
    (hTarget : target.toNat < 0xe0000000)
    (hLow : (nia x cia).setWidth 32 = target) :
    nia x cia = target.setWidth 64 := by
  rcases nia_eq x cia with ⟨base, ext, hEq, hNear, hBase⟩
  have hBelow : base.toNat < 0xe0000000 := by
    rcases hBase with rfl | rfl
    · rw [BitVec.toNat_ofNat]
      omega
    · rw [BitVec.toNat_setWidth]
      omega
  have hLower := hNear.lower
  have hUpper := hNear.upper
  have hNat := congrArg BitVec.toNat hLow
  have hLt := ext.isLt
  apply BitVec.eq_of_toNat_eq
  rw [BitVec.toNat_setWidth, hEq, BitVec.toNat_add] at hNat
  rw [BitVec.toNat_setWidth, hEq, BitVec.toNat_add]
  rw [BitVec.toInt_eq_toNat_cond] at hLower hUpper
  split at hLower
  · rename_i hCase
    rw [if_pos hCase] at hUpper
    omega
  · -- a negative sum has a low word in the windows
    rename_i hCase
    rw [if_neg hCase] at hUpper
    omega

variable {x : BitVec 32}

theorem target_eq
    (hDirect : Direct x)
    (cia : BitVec 32) :
    (analyze x cia).target =
      some ((nia x cia).setWidth 32) := by
  unfold nia
  rcases hDirect with hWord | hWord
  · have hOpcd : opcd x = 18#6 := hWord
    rw [analyze_b hWord, if_pos hOpcd]
  · have hOpcd : opcd x ≠ 18#6 := by
      rw [show opcd x = 16#6 from hWord]
      decide
    rw [analyze_bc hWord, if_neg hOpcd]

------------------------------------------------------------
-- Agreement with the Interpreter
------------------------------------------------------------

/-
  The thread after a step of the interpreter has the registers
  of the outcome and is where the outcome leads to.
-/
def Outcome.Agrees
    (cia : BitVec 32) :
    Outcome R → PPUThread R → Prop
  | .next t, t' => t.regs = t'.regs ∧ t'.nip = cia + 4#32
  | .goto label t, t' =>
      t.regs = t'.regs ∧ t'.nip = label.setWidth 32
  | .ret t, t' => t = t'

theorem link_at
    (lk : Bool)
    (cia : BitVec 64)
    (t : PPUThread R)
    (nip : BitVec 32) :
    link lk cia { t with nip := nip } =
      { link lk cia t with nip := nip } := by
  unfold link
  split <;> rfl

theorem countDown_at
    (bo2 : Bool)
    (t : PPUThread R)
    (nip : BitVec 32) :
    countDown bo2 { t with nip := nip } =
      { countDown bo2 t with nip := nip } := by
  unfold countDown
  split <;> rfl

variable {i : Instr}

/- An instruction that sets no address sees registers only. -/
theorem emulateInstr_eq_onRegisters
    (env : Env R)
    (hSets : i.setsNip = false)
    (x : BitVec 32)
    (cia : BitVec 64) :
    ∃ f, emulateInstr env i x cia = onRegisters f := by
  cases i with
  | integer i => exact ⟨_, rfl⟩
  | register i => exact ⟨_, rfl⟩
  | branch i => cases hSets
  | hint i => exact ⟨fun r => .ok r, rfl⟩
  | memory i => exact ⟨_, rfl⟩
  | floating i => exact ⟨_, rfl⟩
  | vector i => exact ⟨_, rfl⟩
  | system i =>
      cases i with
      | ncall => cases hSets
      | bbcall => exact ⟨fun _ => .error .assertion, rfl⟩
      | sc => exact ⟨_, rfl⟩
      | td =>
          by_cases hTrap : trapTo x = 31#5 ∧ ra x = rb x
          · refine ⟨fun _ => .error .breakpoint, ?_⟩
            funext t
            exact if_pos hTrap
          · refine ⟨fun _ => .error .illegalInstruction, ?_⟩
            funext t
            exact if_neg hTrap
      | tw =>
          by_cases hTrap : trapTo x = 31#5 ∧ ra x = rb x
          · refine ⟨fun _ => .error .breakpoint, ?_⟩
            funext t
            exact if_pos hTrap
          · refine ⟨fun _ => .error .illegalInstruction, ?_⟩
            funext t
            exact if_neg hTrap

theorem rewrittenInstr_eq
    (env : Env R)
    (mode : SetNip)
    (hSets : i.setsNip = false)
    (x : BitVec 32)
    (cia : BitVec 64)
    (t : PPUThread R) :
    rewrittenInstr env mode i x cia t =
      (emulateInstr env i x cia t).map .next := by
  cases i with
  | branch i => cases hSets
  | system i =>
      cases i with
      | ncall => cases hSets
      | _ => rfl
  | _ => rfl

theorem onRegisters_agrees
    (f : Registers R → Except Fault (Registers R))
    (cia : BitVec 32)
    (t : PPUThread R) :
    Fallible.Matches (Outcome.Agrees cia)
      ((onRegisters f t).map .next)
      (onRegisters f { t with nip := cia + 4#32 }) := by
  unfold onRegisters
  cases f t.regs with
  | error e => exact rfl
  | ok r => exact ⟨rfl, rfl⟩

theorem setNip_agrees
    (hAligned : cia.toNat % 4 = 0)
    (mode : SetNip)
    (t : PPUThread R) :
    (setNip mode (nia x cia) t).Agrees cia
      ({ t with nip := cia + 4#32 }.setNIP (nia x cia)) := by
  cases mode with
  | initial => exact ⟨rfl, rfl⟩
  | indirect =>
      unfold setNip setNipIndirect
      rw [nia_and x hAligned]
      rfl

theorem rewrittenBranch_agrees
    {i : BranchInstr}
    (hWord : BranchWord x i)
    (hAligned : cia.toNat % 4 = 0)
    (mode : SetNip)
    (t : PPUThread R) :
    (rewrittenBranch mode i x (cia.setWidth 64) t).Agrees cia
      (emulateBranch i x (cia.setWidth 64)
        { t with nip := cia + 4#32 }) := by
  cases i with
  | b =>
      have hNia : getNIAI x (cia.setWidth 64) = nia x cia :=
        (if_pos hWord).symm
      unfold rewrittenBranch rewrittenB emulateBranch emulateB
      simp only
      rw [link_at _ _ t (cia + 4#32), hNia]
      exact setNip_agrees hAligned mode _
  | bc =>
      have hOpcd : opcd x ≠ 18#6 := by
        rw [show opcd x = 16#6 from hWord]
        decide
      have hNia : getNIAB x (cia.setWidth 64) = nia x cia :=
        (if_neg hOpcd).symm
      unfold rewrittenBranch rewrittenBc emulateBranch emulateBc
      simp only
      rw [countDown_at _ t (cia + 4#32),
        link_at _ _ (countDown (bo2 x) t) (cia + 4#32), hNia]
      split
      · exact setNip_agrees hAligned mode _
      · exact ⟨rfl, rfl⟩
  | bclr =>
      unfold rewrittenBranch rewrittenBclr emulateBranch
        emulateBclr
      simp only
      rw [countDown_at _ t (cia + 4#32),
        link_at _ _ (countDown (bo2 x) t) (cia + 4#32)]
      split
      · exact rfl
      · exact ⟨rfl, rfl⟩
  | bcctr =>
      unfold rewrittenBranch rewrittenBcctr emulateBranch
        emulateBcctr
      simp only
      rw [link_at _ _ t (cia + 4#32)]
      split
      · change PPUThread.setNIP _ _ = PPUThread.setNIP _ _
        rw [BitVec.and_assoc, BitVec.and_self]
        rfl
      · exact ⟨rfl, rfl⟩

/-
  The code of an instruction leads where the interpreter goes,
  with the same registers, or fails as the interpreter does.
-/
theorem rewritten_agrees
    (env : Env R)
    (callee :
      BitVec 26 → PPUThread R → Except Fault (PPUThread R))
    (mode : SetNip)
    (x : BitVec 32)
    {cia : BitVec 32}
    (hAligned : cia.toNat % 4 = 0)
    (t : PPUThread R) :
    Fallible.Matches (Outcome.Agrees cia)
      (rewritten (env.withNcall callee) mode x cia t)
      (step (env.withNcall callee) x cia t) := by
  unfold rewritten step emulate
  cases hDecode : decode x with
  | none => exact rfl
  | some i =>
      cases hSets : i.setsNip with
      | false =>
          dsimp only
          rw [rewrittenInstr_eq _ mode hSets]
          rcases emulateInstr_eq_onRegisters
            (env.withNcall callee) hSets x
            (cia.setWidth 64) with ⟨f, hEq⟩
          rw [hEq]
          exact onRegisters_agrees f cia t
      | true =>
          rcases setsNip_of_decode hDecode hSets with
            ⟨j, rfl, hWord⟩ | ⟨rfl, -⟩
          · exact rewrittenBranch_agrees hWord hAligned mode t
          · apply Fallible.Matches.of_map
            exact
              Fallible.Matches.refl (fun _ => rfl)
                (callee (idx x) (t.setNIP t.regs.lr))

------------------------------------------------------------
-- Ways Out
------------------------------------------------------------

/- How control can leave the code of a word. -/
inductive WayOut
    (mode : SetNip)
    (x cia : BitVec 32) : Outcome R → Prop where
  | next {t : PPUThread R} :
      ((analyze x cia).flow = true →
        (analyze x cia).passthrough = true) →
      WayOut mode x cia (.next t)
  | goto {t : PPUThread R} :
      mode = .initial →
      Direct x →
      WayOut mode x cia (.goto (nia x cia) t)
  | ret {t : PPUThread R} : WayOut mode x cia (.ret t)

theorem setNip_wayOut
    (mode : SetNip)
    (cia : BitVec 32)
    (hDirect : Direct x)
    (t : PPUThread R) :
    WayOut mode x cia (setNip mode (nia x cia) t) := by
  cases mode with
  | initial => exact .goto rfl hDirect
  | indirect => exact .ret

/- Only a branch whose test fails lets control through. -/
theorem rewrittenBranch_wayOut
    {i : BranchInstr}
    (hWord : BranchWord x i)
    (mode : SetNip)
    (cia : BitVec 32)
    (t : PPUThread R) :
    WayOut mode x cia
      (rewrittenBranch mode i x (cia.setWidth 64) t) := by
  cases i with
  | b =>
      have hNia : getNIAI x (cia.setWidth 64) = nia x cia :=
        (if_pos hWord).symm
      unfold rewrittenBranch rewrittenB
      simp only
      rw [hNia]
      exact setNip_wayOut mode cia (.inl hWord) _
  | bc =>
      have hOpcd : opcd x ≠ 18#6 := by
        rw [show opcd x = 16#6 from hWord]
        decide
      have hNia : getNIAB x (cia.setWidth 64) = nia x cia :=
        (if_neg hOpcd).symm
      unfold rewrittenBranch rewrittenBc
      simp only
      rw [hNia]
      split
      · exact setNip_wayOut mode cia (.inr hWord) _
      · rename_i hNot
        refine .next ?_
        rw [analyze_bc hWord]
        exact fun _ => passthrough_of_not_taken hNot
  | bclr =>
      unfold rewrittenBranch rewrittenBclr
      simp only
      split
      · exact .ret
      · rename_i hNot
        refine .next ?_
        rw [analyze_bclr hWord]
        exact fun _ => passthrough_of_not_taken hNot
  | bcctr =>
      unfold rewrittenBranch rewrittenBcctr
      simp only
      split
      · exact .ret
      · rename_i hNot
        refine .next ?_
        rw [analyze_bcctr hWord]
        intro _
        cases h0 : bo0 x with
        | false => rfl
        | true =>
            rw [h0] at hNot
            exact absurd rfl hNot

/- The analysis has no flow where no address is set. -/
theorem analyze_of_setsNip
    (hDecode : decode x = some i)
    (hSets : i.setsNip = false)
    (cia : BitVec 32) :
    analyze x cia = noFlow := by
  apply analyze_of_ne
  · intro hOpcd
    have hCall : decode x = some (.system .ncall) := by
      simp only [decode, hOpcd]
      rfl
    rw [hCall] at hDecode
    cases hDecode
    cases hSets
  · intro j hWord
    rw [← decode_eq_branch, hDecode] at hWord
    cases hWord
    cases hSets

theorem flow_of_setsNip
    (hDecode : decode x = some i)
    (hSets : i.setsNip = true)
    (cia : BitVec 32) :
    (analyze x cia).flow = true := by
  rcases setsNip_of_decode hDecode hSets with
    ⟨j, -, hWord⟩ | ⟨-, hOpcd⟩
  · cases j with
    | b => rw [analyze_b hWord]
    | bc => rw [analyze_bc hWord]
    | bclr => rw [analyze_bclr hWord]
    | bcctr => rw [analyze_bcctr hWord]
  · simp [analyze, hOpcd]

theorem rewritten_wayOut
    {env : Env R}
    {mode : SetNip}
    {t : PPUThread R}
    {o : Outcome R}
    (hRun : rewritten env mode x cia t = .ok o) :
    WayOut mode x cia o := by
  unfold rewritten at hRun
  cases hDecode : decode x with
  | none =>
      rw [hDecode] at hRun
      cases hRun
  | some i =>
      rw [hDecode] at hRun
      dsimp only at hRun
      cases hSets : i.setsNip with
      | false =>
          rw [rewrittenInstr_eq env mode hSets] at hRun
          rcases Fallible.map_eq_ok.mp hRun with ⟨u, -, rfl⟩
          refine .next ?_
          rw [analyze_of_setsNip hDecode hSets]
          exact fun hFlow => hFlow
      | true =>
          rcases setsNip_of_decode hDecode hSets with
            ⟨j, rfl, hWord⟩ | ⟨rfl, -⟩
          · cases hRun
            exact rewrittenBranch_wayOut hWord mode cia t
          · rcases Fallible.map_eq_ok.mp hRun with ⟨u, -, rfl⟩
            exact .ret

/- Control goes on behind an instruction that is no branch. -/
theorem rewritten_of_flow
    (env : Env R)
    (hFlow : (analyze x cia).flow = false) :
    ∃ f : Registers R → Except Fault (Registers R),
      (∀ mode t, rewritten env mode x cia t =
        (onRegisters f t).map .next) ∧
        ∀ t, step env x cia t =
          onRegisters f { t with nip := cia + 4#32 } := by
  unfold rewritten step emulate
  cases hDecode : decode x with
  | none =>
      exact
        ⟨fun _ => .error .illegalInstruction,
          fun _ _ => rfl, fun _ => rfl⟩
  | some i =>
      cases hSets : i.setsNip with
      | false =>
          rcases emulateInstr_eq_onRegisters env hSets x
            (cia.setWidth 64) with ⟨f, hEq⟩
          refine ⟨f, ?_, ?_⟩
          · intro mode t
            dsimp only
            rw [rewrittenInstr_eq env mode hSets, hEq]
          · intro t
            dsimp only
            rw [hEq]
      | true =>
          rw [flow_of_setsNip hDecode hSets] at hFlow
          cases hFlow

/- A word with a target is a branch. -/
theorem flow_of_direct
    (hDirect : Direct x)
    (cia : BitVec 32) :
    (analyze x cia).flow = true := by
  rcases hDirect with hWord | hWord
  · rw [analyze_b hWord]
  · rw [analyze_bc hWord]

end Ppu

end Ps3emu
