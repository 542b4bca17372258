import Ps3emu.Spu.AtomicStatus
import Ps3emu.Spu.Interpreter
import Ps3emu.Spu.Window

/-
  The analysis of SPU branches against the interpreter: what
  is not reported as flow goes on with the next word, and a
  target that is reported is where the branch leads.

  Key definitions include:
    * `Spu.Predicted`
    * `Spu.branchTaken`
    * `Spu.SetsNpc`
    * `Spu.RawSpu`

  Key theorems include:
    * `Spu.analyze_direct`, `Spu.analyze_indirect`
    * `Spu.analyze_other`
    * `Spu.interpret_predicted`
    * `Spu.put_not_predicted`
-/

------------------------------------------------------------
-- Addresses and the Analysis
------------------------------------------------------------

namespace Ps3emu

namespace Spu

variable {R : Type} {x : BitVec 32}

/- The two computations of a relative target agree. -/
theorem relative_setWidth (cia : BitVec 32) :
    relative x (cia.setWidth 64) =
      (cia + offset x) &&& lslr := by
  unfold relative
  rw [BitVec.setWidth_and, BitVec.setWidth_add _ _ (by decide)]
  congr 1
  · congr 1
    · exact BitVec.setWidth_setWidth_of_le cia (by decide)
    · apply BitVec.eq_of_getLsbD_eq
      intro i hi
      rw [BitVec.getLsbD_setWidth, BitVec.getLsbD_signExtend]
      simp [hi, show i < 64 by omega]

theorem op9_eq_shift : op9 x = (op11 x >>> 2).setWidth 9 := by
  apply BitVec.eq_of_toNat_eq
  have hDiv : op x 9 = op x 11 / 2 ^ (11 - 9) :=
    op_div (by decide) (by decide)
  have hLt := (op9 x).isLt
  change (op9 x).toNat = (op11 x).toNat / 4 at hDiv
  rw [BitVec.toNat_setWidth, BitVec.toNat_ushiftRight,
    Nat.shiftRight_eq_div_pow]
  change _ = (op11 x).toNat / 4 % 2 ^ 9
  omega

theorem analyze4_flow (info : InstructionInfo) :
    (analyze4 x info).toInstructionInfo =
      info.toInstructionInfo := by
  unfold analyze4
  split <;> rfl

theorem analyze7_flow (info : InstructionInfo) :
    (analyze7 x info).toInstructionInfo =
      info.toInstructionInfo := by
  unfold analyze7
  split <;> rfl

theorem analyzeSpu_flow (cia : BitVec 32) :
    (analyzeSpu x cia).toInstructionInfo =
      (analyze9 x cia
        (analyze11 x noInfo)).toInstructionInfo := by
  unfold analyzeSpu
  rw [analyze4_flow, analyze7_flow]

/- The target that is in the word of a direct branch. -/
def DirectBranch.target
    (j : DirectBranch)
    (x cia : BitVec 32) : BitVec 32 :=
  match j with
  | .br | .brsl => (cia + offset x) &&& lslr
  | .bra | .brasl => absolute x
  | .brnz | .brz | .brhnz | .brhz => br_cia_lsa x cia

/- The branches that may return, or not be taken. -/
def DirectBranch.passes : DirectBranch → Bool
  | .br | .bra => false
  | _ => true

def IndirectBranch.passes : IndirectBranch → Bool
  | .bi | .iret => false
  | _ => true

theorem analyze_direct
    {j : DirectBranch}
    (hOp : op9 x = j.opcode)
    (cia : BitVec 32) :
    (analyzeSpu x cia).toInstructionInfo =
      { flow := true
        passthrough := j.passes
        target := some (j.target x cia) } := by
  rw [analyzeSpu_flow]
  cases j <;>
    simp [analyze9, hOp, DirectBranch.opcode,
      DirectBranch.passes, DirectBranch.target, absolute]

/- The first switch sets the flow, and the next has no case. -/
theorem analyze_indirect
    {j : IndirectBranch}
    (hOp : op11 x = j.opcode)
    (cia : BitVec 32) :
    (analyzeSpu x cia).toInstructionInfo =
      { flow := true
        passthrough := j.passes
        target := none } := by
  have hOp9 : op9 x = (j.opcode >>> 2).setWidth 9 := by
    rw [op9_eq_shift, hOp]
  rw [analyzeSpu_flow]
  cases j <;>
    simp [analyze9, analyze11, hOp, hOp9, noInfo,
      IndirectBranch.opcode, IndirectBranch.passes]

theorem analyze11_other
    (hIndirect : ∀ j : IndirectBranch, op11 x ≠ j.opcode)
    (hStop : op11 x ≠ 0b00000000000#11)
    (hStopd : op11 x ≠ 0b00101000000#11)
    (info : InstructionInfo) :
    analyze11 x info = info := by
  have hBi : op11 x ≠ 0b00110101000#11 := hIndirect .bi
  have hIret : op11 x ≠ 0b00110101010#11 := hIndirect .iret
  have hBisl : op11 x ≠ 0b00110101001#11 := hIndirect .bisl
  have hBiz : op11 x ≠ 0b00100101000#11 := hIndirect .biz
  have hBinz : op11 x ≠ 0b00100101001#11 := hIndirect .binz
  have hBihz : op11 x ≠ 0b00100101010#11 := hIndirect .bihz
  have hBihnz : op11 x ≠ 0b00100101011#11 :=
    hIndirect .bihnz
  simp only [analyze11, if_neg hBi, if_neg hIret,
    if_neg hBisl, hBiz, hBinz, hBihz, hBihnz, or_self,
    if_false, if_neg hStop, if_neg hStopd]

theorem analyze9_other
    (hDirect : ∀ j : DirectBranch, op9 x ≠ j.opcode)
    (cia : BitVec 32)
    (info : InstructionInfo) :
    (analyze9 x cia info).toInstructionInfo =
      info.toInstructionInfo := by
  have hBr : op9 x ≠ 0b001100100#9 := hDirect .br
  have hBra : op9 x ≠ 0b001100000#9 := hDirect .bra
  have hBrsl : op9 x ≠ 0b001100110#9 := hDirect .brsl
  have hBrasl : op9 x ≠ 0b001100010#9 := hDirect .brasl
  have hBrnz : op9 x ≠ 0b001000010#9 := hDirect .brnz
  have hBrz : op9 x ≠ 0b001000000#9 := hDirect .brz
  have hBrhnz : op9 x ≠ 0b001000110#9 := hDirect .brhnz
  have hBrhz : op9 x ≠ 0b001000100#9 := hDirect .brhz
  simp only [analyze9, hBr, hBra, hBrsl, hBrasl, hBrnz, hBrz,
    hBrhnz, hBrhz, or_self, if_false]
  split
  case isTrue => rfl
  case isFalse =>
    split
    case isTrue => rfl
    case isFalse => rfl

theorem analyze_other
    (hDirect : ∀ j : DirectBranch, op9 x ≠ j.opcode)
    (hIndirect : ∀ j : IndirectBranch, op11 x ≠ j.opcode)
    (hStop : op11 x ≠ 0b00000000000#11)
    (hStopd : op11 x ≠ 0b00101000000#11)
    (cia : BitVec 32) :
    (analyzeSpu x cia).toInstructionInfo =
      { flow := false
        passthrough := false
        target := none } := by
  rw [analyzeSpu_flow, analyze9_other hDirect,
    analyze11_other hIndirect hStop hStopd]
  rfl

------------------------------------------------------------
-- Next Addresses of the Interpreter
------------------------------------------------------------

variable {t t' : Thread R}

theorem setNip_nip
    {nip : BitVec 32}
    (hRun : t.setNip nip = .ok t') :
    t'.nip = nip ∧ t'.regs = t.regs := by
  unfold Thread.setNip at hRun
  split at hRun
  case isTrue =>
    cases hRun
    exact ⟨rfl, rfl⟩
  case isFalse => cases hRun

theorem branchIf_nip
    {taken : Bool}
    {nip : BitVec 32}
    (hRun : branchIf taken nip t = .ok t') :
    (t'.nip = if taken then nip else t.nip) ∧
      t'.regs = t.regs := by
  unfold branchIf at hRun
  cases taken with
  | true => exact setNip_nip hRun
  | false =>
      cases hRun
      exact ⟨rfl, rfl⟩

/- The condition of a direct branch. -/
def DirectBranch.taken
    (j : DirectBranch)
    (x : BitVec 32)
    (r : Registers R) : Bool :=
  match j with
  | .br | .bra | .brsl | .brasl => true
  | .brnz => !isZero r (rt x)
  | .brz => isZero r (rt x)
  | .brhnz => !isZeroHw r (rt x)
  | .brhz => isZeroHw r (rt x)

theorem emulateDirect_nip
    {j : DirectBranch}
    {cia : BitVec 32}
    (hRun :
      emulateDirect j x (cia.setWidth 64) t = .ok t') :
    t'.nip =
      if j.taken x t.regs then j.target x cia
      else t.nip := by
  have hCia : (cia.setWidth 64).setWidth 32 = cia :=
    BitVec.setWidth_setWidth_of_le cia (by decide)
  simp only [emulateDirect, relative_setWidth, hCia] at hRun
  cases j with
  | br =>
      dsimp only at hRun
      split at hRun
      case isTrue => cases hRun
      case isFalse => exact (setNip_nip hRun).1
  | bra => exact (setNip_nip hRun).1
  | brsl => exact (setNip_nip hRun).1
  | brasl => exact (setNip_nip hRun).1
  | brnz => exact (branchIf_nip hRun).1
  | brz => exact (branchIf_nip hRun).1
  | brhnz => exact (branchIf_nip hRun).1
  | brhz => exact (branchIf_nip hRun).1

variable {cia : BitVec 64}

/- An indirect branch reads a register as it leaves it. -/
theorem emulateIndirect_nip
    {j : IndirectBranch}
    (hRun : emulateIndirect j x cia t = .ok t') :
    t'.nip = address t'.regs (ra x) ∨
      (j.passes = true ∧ t'.nip = t.nip) := by
  have hBranchIf :
      ∀ taken : Bool,
        branchIf taken (address t.regs (ra x)) t = .ok t' →
          t'.nip = address t'.regs (ra x) ∨
            t'.nip = t.nip := by
    intro taken hIf
    rcases branchIf_nip hIf with ⟨hNip, hRegs⟩
    cases taken with
    | true =>
        left
        rw [hNip, hRegs]
        rfl
    | false => exact .inr hNip
  cases j with
  | bi =>
      rcases setNip_nip hRun with ⟨hNip, hRegs⟩
      left
      rw [hNip, hRegs]
  | iret =>
      simp only [emulateIndirect] at hRun
      cases hSrr0 : t.setNip t.regs.srr0 with
      | error fault =>
          rw [hSrr0] at hRun
          cases hRun
      | ok u =>
          rw [hSrr0] at hRun
          cases hRun
  | bisl =>
      rcases setNip_nip hRun with ⟨hNip, hRegs⟩
      left
      rw [hNip, hRegs]
  | biz => exact (hBranchIf _ hRun).imp_right (⟨rfl, ·⟩)
  | binz => exact (hBranchIf _ hRun).imp_right (⟨rfl, ·⟩)
  | bihz => exact (hBranchIf _ hRun).imp_right (⟨rfl, ·⟩)
  | bihnz => exact (hBranchIf _ hRun).imp_right (⟨rfl, ·⟩)

theorem onRegisters_nip
    {f : Registers R → Except Fault (Registers R)}
    (hRun : onRegisters f t = .ok t') :
    t'.nip = t.nip := by
  unfold onRegisters at hRun
  cases hResult : f t.regs with
  | error e =>
      rw [hResult] at hRun
      cases hRun
  | ok r =>
      rw [hResult] at hRun
      cases hRun
      rfl

/- The write of a channel sets the next address itself. -/
def SetsNpc
    (env : Env R)
    (x : BitVec 32)
    (t : Thread R) : Prop :=
  decode x = some (.channel .wrch) ∧
    ∃ t', env.write (ca x) (w0 (t.regs.r (rt x))) t = .ok t' ∧
      t'.nip ≠ t.nip

/- An instruction that is no branch, and does not throw. -/
theorem emulateInstr_nip
    {env : Env R}
    {i : Instr}
    (hDirect : ∀ j, i ≠ .direct j)
    (hIndirect : ∀ j, i ≠ .indirect j)
    (hDecode : decode x = some i)
    (hNpc : ¬ SetsNpc env x t)
    (hRun : emulateInstr env i x cia t = .ok t') :
    t'.nip = t.nip := by
  cases i with
  | direct j => exact absurd rfl (hDirect j)
  | indirect j => exact absurd rfl (hIndirect j)
  | halt j =>
      simp only [emulateInstr, emulateHalt] at hRun
      split at hRun
      · cases hRun
      · cases hRun
        rfl
  | system j => cases j <;> cases hRun
  | channel j =>
      cases j with
      | rdch => exact onRegisters_nip hRun
      | rchcnt => exact onRegisters_nip hRun
      | wrch =>
          by_contra hNe
          exact hNpc ⟨hDecode, t', hRun, hNe⟩
  | hint j =>
      cases hRun
      rfl
  | memory j => exact onRegisters_nip hRun
  | compute j => exact onRegisters_nip hRun

------------------------------------------------------------
-- Soundness of the Analysis
------------------------------------------------------------

/- The next addresses that an analysis allows. -/
def Predicted
    (x cia : BitVec 32)
    (r : Registers R)
    (nip : BitVec 32) : Prop :=
  let info := (analyzeSpu x cia).toInstructionInfo
  if info.flow then
    info.target = some nip ∨
      (info.passthrough = true ∧ nip = cia + 4#32) ∨
        (info.target = none ∧ nip = address r (ra x))
  else nip = cia + 4#32

/- Whether the interpreter takes the branch in a word. -/
def branchTaken
    (x : BitVec 32)
    (r : Registers R) : Bool :=
  match decode x with
  | some (.direct j) => j.taken x r
  | _ => false

/- The stops are decoded by their opcodes, and throw. -/
theorem decode_system
    (k : BitVec 11)
    (j : SystemInstr)
    (hLookup : opcode11.lookup k.toNat = some (.system j))
    (hOp : op11 x = k) :
    decode x = some (.system j) := by
  apply Switch.decode_eq_some [] _ 11 opcode11
  · intro s hMem
    cases hMem
  · rw [← hLookup, ← hOp]
    rfl

/- What is decoded as no branch is analyzed as none. -/
theorem analyze_of_decode
    {env : Env R}
    {i : Instr}
    (hDirect : ∀ j, i ≠ .direct j)
    (hIndirect : ∀ j, i ≠ .indirect j)
    (hDecode : decode x = some i)
    (hRun : emulateInstr env i x cia t = .ok t')
    (pc : BitVec 32) :
    (analyzeSpu x pc).toInstructionInfo =
      { flow := false
        passthrough := false
        target := none } := by
  have hSystem : ∀ j, i ≠ .system j := by
    rintro j rfl
    cases j <;> cases hRun
  apply analyze_other
  · intro j hOp
    rw [(decode_eq_direct j).mpr hOp] at hDecode
    exact hDirect j (Option.some.inj hDecode).symm
  · intro j hOp
    rw [(decode_eq_indirect j).mpr hOp] at hDecode
    exact hIndirect j (Option.some.inj hDecode).symm
  · intro hOp
    rw [decode_system _ .stop rfl hOp] at hDecode
    exact hSystem _ (Option.some.inj hDecode).symm
  · intro hOp
    rw [decode_system _ .stopd rfl hOp] at hDecode
    exact hSystem _ (Option.some.inj hDecode).symm

/-
  Every word that does not throw goes where the analysis
  says, and to the very target that is reported, unless it
  writes the next address through a channel.
-/
theorem interpret_predicted
    (env : Env R)
    (x cia : BitVec 32)
    (t t' : Thread R)
    (hNpc : ¬ SetsNpc env x { t with nip := cia + 4#32 })
    (hRun : interpret env x cia t = .ok t') :
    Predicted x cia t'.regs t'.nip ∧
      ∀ target,
        (analyzeSpu x cia).target = some target →
          t'.nip =
            if branchTaken x t.regs then target
            else cia + 4#32 := by
  unfold interpret SPUDasm at hRun
  cases hDecode : decode x with
  | none =>
      rw [hDecode] at hRun
      cases hRun
  | some i =>
      rw [hDecode] at hRun
      by_cases hDirect : ∃ j, i = .direct j
      · rcases hDirect with ⟨j, rfl⟩
        have hOp := (decode_eq_direct j).mp hDecode
        have hInfo := analyze_direct hOp cia
        have hNip := emulateDirect_nip hRun
        refine ⟨?_, ?_⟩
        · simp only [Predicted]
          rw [hInfo, if_pos rfl]
          cases hTaken : j.taken x t.regs with
          | true =>
              rw [hTaken, if_pos rfl] at hNip
              exact .inl (congrArg some hNip.symm)
          | false =>
              rw [hTaken, if_neg Bool.false_ne_true] at hNip
              refine .inr (.inl ⟨?_, hNip⟩)
              cases j <;> first | rfl | cases hTaken
        · intro target hTarget
          rw [hInfo] at hTarget
          cases hTarget
          rw [branchTaken, hDecode]
          exact hNip
      by_cases hIndirect : ∃ j, i = .indirect j
      · rcases hIndirect with ⟨j, rfl⟩
        have hOp := (decode_eq_indirect j).mp hDecode
        have hInfo := analyze_indirect hOp cia
        refine ⟨?_, ?_⟩
        · simp only [Predicted]
          rw [hInfo, if_pos rfl]
          rcases emulateIndirect_nip hRun with hTo | hNext
          · exact .inr (.inr ⟨rfl, hTo⟩)
          · exact .inr (.inl hNext)
        · intro target hTarget
          rw [hInfo] at hTarget
          cases hTarget
      · have hInfo :=
          analyze_of_decode (not_exists.mp hDirect)
            (not_exists.mp hIndirect) hDecode hRun cia
        have hNip :=
          emulateInstr_nip (not_exists.mp hDirect)
            (not_exists.mp hIndirect) hDecode hNpc hRun
        refine ⟨?_, ?_⟩
        · simp only [Predicted]
          rw [hInfo]
          exact hNip
        · intro target hTarget
          rw [hInfo] at hTarget
          cases hTarget

/- brnz r3,118. -/
theorem interpret_predicted_brnz :
    Predicted 0x21000303#32 0x100#32
      (⟨fun _ => inW0 1, 0, ()⟩ : Registers Unit) 0x118#32 :=
  (interpret_predicted
    { memory := fun _ _ _ r => .ok r
      compute := fun _ _ r => .ok r
      read := fun _ r => .ok (0, r)
      readCount := fun _ r => .ok (0, r)
      write := fun _ _ t => .ok t }
    0x21000303#32 0x100#32 ⟨0, ⟨fun _ => inW0 1, 0, ()⟩⟩
    ⟨0x118#32, ⟨fun _ => inW0 1, 0, ()⟩⟩
    (fun hNpc => absurd hNpc.1 (by decide)) rfl).1

------------------------------------------------------------
-- A Write of the Next Address
------------------------------------------------------------

def MFC_LSA : BitVec 7 := 16
def MFC_EAH : BitVec 7 := 17
def MFC_EAL : BitVec 7 := 18
def MFC_Size : BitVec 7 := 19
def MFC_TagID : BitVec 7 := 20
def MFC_Cmd : BitVec 7 := 21

def MFC_PUT_CMD : BitVec 32 := 0x0020

/- A thread of a system in which it runs as a raw SPU. -/
structure RawSpu where
  spus : SpuSystem
  th : Nat

namespace RawSpu

/- The thread's part of the system has its next address. -/
def self (s : RawSpu) (nip : BitVec 32) : SPUThread :=
  { s.spus.threads s.th with nip }

def setChannels
    (s : RawSpu)
    (f : SPUChannels → SPUChannels) : RawSpu :=
  let t := s.spus.threads s.th
  { s with
    spus := s.spus.put s.th (t.setChannels (f t.channels)) }

/-
  The plain put of `SPUChannels::command`, to the windows of
  the raw SPUs; other areas of main memory are left out.
-/
def command
    (word : BitVec 32)
    (t : Thread RawSpu) : Except Fault (Thread RawSpu) :=
  let s := t.regs.rest
  let self := s.self t.nip
  let c := self.channels
  let lsaVa := c.mfcLsa &&& lslr
  if word >>> 16 = 0 ∧ c.mfcEah = 0 ∧
      subset lsaVa c.mfcSize 0
        (BitVec.ofNat 32 localStorageSize) then
    if word = MFC_PUT_CMD ∧ isSpuThreadVa c.mfcEal = false ∧
        isRawSpuVa c.mfcEal then
      let buf :=
        self.ls.get (lsaVa.setWidth 18) c.mfcSize.toNat
      match (s.spus.put s.th self).writeRawSpuVa c.mfcEal buf
      with
      | none => .error .assertion
      | some spus =>
          .ok
            { nip := (spus.threads s.th).nip
              regs := { t.regs with rest := { s with spus } } }
    else .error .other
  else .error .assertion

/- The parameters of a command, and the command itself. -/
def write
    (ch : BitVec 7)
    (data : BitVec 32)
    (t : Thread RawSpu) : Except Fault (Thread RawSpu) :=
  let set := fun (f : SPUChannels → SPUChannels) =>
    .ok
      { t with
        regs :=
          { t.regs with rest := t.regs.rest.setChannels f } }
  if ch = MFC_LSA then set (fun c => { c with mfcLsa := data })
  else if ch = MFC_EAH then
    set (fun c => { c with mfcEah := data })
  else if ch = MFC_EAL then
    set (fun c => { c with mfcEal := data })
  else if ch = MFC_Size then
    set (fun c => { c with mfcSize := data })
  else if ch = MFC_TagID then
    set (fun c => { c with mfcTagId := data })
  else if ch = MFC_Cmd then command data t
  else .error .other

def env : Env RawSpu where
  memory _ _ _ _ := .error .other
  compute _ _ _ := .error .other
  read _ _ := .error .other
  readCount _ _ := .error .other
  write := write

/- The storage is zero; the put is one word to `SPU_NPC`. -/
def ownNpc : Thread RawSpu where
  nip := 0x100
  regs :=
    { r := fun _ => inW0 MFC_PUT_CMD
      srr0 := 0
      rest :=
        { spus :=
            { threads := fun _ =>
                { ls := fun _ => 0
                  channels :=
                    { mfcEal := 0xe0044034, mfcSize := 4 } }
              spuThreads := []
              rawSpus := fun id =>
                if id = 0 then some 0 else none }
          th := 0 } }

end RawSpu

/- wrch MFC_Cmd,r3 -/
theorem put_not_predicted :
    ¬ ∀ (env : Env RawSpu) (x cia : BitVec 32)
        (t t' : Thread RawSpu),
        interpret env x cia t = .ok t' →
          Predicted x cia t'.regs t'.nip := by
  intro hAll
  have hRun :
      ∃ t',
        interpret RawSpu.env 0x21a00a83#32 0x100#32
            RawSpu.ownNpc = .ok t' ∧ t'.nip = 0 :=
    ⟨_, rfl, rfl⟩
  rcases hRun with ⟨t', hRun, hNip⟩
  have hPredicted := hAll _ _ _ _ _ hRun
  have hInfo :
      (analyzeSpu 0x21a00a83#32
        0x100#32).toInstructionInfo.flow = false := by decide
  simp only [Predicted, hInfo, hNip] at hPredicted
  cases hPredicted

end Spu

end Ps3emu
