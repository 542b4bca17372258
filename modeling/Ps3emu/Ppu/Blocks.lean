import Mathlib.Data.List.Chain
import Ps3emu.Ppu.Branch
import Ps3emu.Rewriter.Closure

/-
  Runs of the interpreter through the basic blocks of a segment,
  each of which is compiled as a whole.

  Key definitions include:
    * `Next`, `LandsAtStart`
    * `Whole`

  Key theorems include:
    * `told_of_step`
    * `whole_of_next`
    * `whole_of_run`
-/

namespace Ps3emu

namespace Ppu

open Rewriter

variable {R : Type}

/- The analysis of the code of a segment. -/
def analyzeCode (code : Ps3Uintptr → BitVec 32) : Analyze :=
  fun cia => analyze (code cia) cia

/-
  A branch whose target is in a register, or a call of a
  native function.
-/
def Untold (info : InstructionInfo) : Prop :=
  info.flow = true ∧ info.target = none

/- One round of the loop of a thread, at its address. -/
def Next
    (env : Env R)
    (code : Ps3Uintptr → BitVec 32)
    (s : PPUThread R)
    (cia : Ps3Uintptr)
    (t : PPUThread R) : Prop :=
  cia = s.nip ∧ step env (code cia) cia s = .ok t

/-
  Where the analysis does not tell the target, or outside the
  blocks, a step that leads into a block leads to its start.
-/
def LandsAtStart
    (code : Ps3Uintptr → BitVec 32)
    (blocks : List BasicBlock)
    (_ : PPUThread R)
    (cia : Ps3Uintptr)
    (t : PPUThread R) : Prop :=
  (∀ b ∈ blocks, b.Contains cia →
      Untold (analyzeCode code cia)) →
    ∀ b ∈ blocks, b.Contains t.nip → t.nip = b.start

/-
  Between two addresses no block is entered but at its start,
  and none is left but at its end.
-/
structure Whole
    (blocks : List BasicBlock)
    (cia next : Ps3Uintptr) : Prop where
  entered :
    ∀ b ∈ blocks, b.Contains next → next ≠ b.start →
      b.Contains cia ∧ next = cia + 4#32
  left :
    ∀ b ∈ blocks, b.Contains cia → cia ≠ b.lastVa →
      next = cia + 4#32

variable {env : Env R}
variable {s t : PPUThread R}

theorem told_of_predicted
    {x cia nip : BitVec 32}
    {r : Registers R}
    (hTold : ¬ Untold (analyze x cia))
    (hPredicted : Predicted x cia r nip) :
    if (analyze x cia).flow then
      (analyze x cia).target = some nip ∨
        ((analyze x cia).passthrough = true ∧
          nip = cia + 4#32)
    else nip = cia + 4#32 := by
  unfold Predicted at hPredicted
  dsimp only at hPredicted
  split at hPredicted
  case isFalse hFlow =>
    rw [if_neg hFlow]
    exact hPredicted
  case isTrue hFlow =>
    rw [if_pos hFlow]
    rcases hPredicted with
      hTarget | hPass | ⟨hWord, -⟩ | ⟨hWord, -⟩
    · exact .inl hTarget
    · exact .inr hPass
    · rw [analyze_bclr hWord] at hTold
      exact absurd ⟨rfl, rfl⟩ hTold
    · rw [analyze_bcctr hWord] at hTold
      exact absurd ⟨rfl, rfl⟩ hTold

/- Where a word leads whose targets the analysis tells. -/
theorem told_of_step
    {x cia : BitVec 32}
    (hTold : ¬ Untold (analyze x cia))
    (hStep : step env x cia s = .ok t) :
    if (analyze x cia).flow then
      (analyze x cia).target = some t.nip ∨
        ((analyze x cia).passthrough = true ∧
          t.nip = cia + 4#32)
    else t.nip = cia + 4#32 := by
  have hNcall : opcd x ≠ 1#6 := by
    intro hOpcd
    exact hTold (by simp [Untold, analyze, hOpcd, noFlow])
  unfold step emulate at hStep
  cases hDecode : decode x with
  | none =>
      rw [hDecode] at hStep
      cases hStep
  | some i =>
      rw [hDecode] at hStep
      cases hSets : i.setsNip with
      | true =>
          rcases setsNip_of_decode hDecode hSets with
            ⟨j, rfl, hWord⟩ | ⟨-, hOpcd⟩
          · cases hStep
            exact
              told_of_predicted hTold
                (emulateBranch_predicted hWord cia _ rfl)
          · exact absurd hOpcd hNcall
      | false =>
          have hBranch : ∀ j, ¬ BranchWord x j := by
            intro j hWord
            rw [← decode_eq_branch, hDecode] at hWord
            cases hWord
            cases hSets
          rw [analyze_of_ne hNcall hBranch cia]
          exact emulateInstr_nip hSets hStep

variable {code : Ps3Uintptr → BitVec 32}
variable {start length : BitVec 32}
variable {leads : List Ps3Uintptr}
variable {blocks : List BasicBlock}

/- The address is one of an instruction, if in a block. -/
def Aligned
    (blocks : List BasicBlock)
    (cia : Ps3Uintptr) : Prop :=
  ∀ b ∈ blocks, b.Contains cia → 4 ∣ cia.toNat

theorem whole_of_next
    {cia : Ps3Uintptr}
    (hCut : Cut start length leads (analyzeCode code) blocks)
    (hAligned : Aligned blocks cia)
    (hNext : Next env code s cia t)
    (hLands : LandsAtStart code blocks s cia t) :
    Whole blocks cia t.nip ∧ Aligned blocks t.nip := by
  have hLast :
      ∀ b ∈ blocks, b.Contains cia →
        (analyzeCode code cia).flow = true →
          cia = b.lastVa :=
    fun b hb hIn => hCut.flow hb (hAligned b hb hIn) hIn
  -- a step to the start of a block, by a branch if from one
  have hWhole :
      (∀ b ∈ blocks, b.Contains cia →
          (analyzeCode code cia).flow = true) →
        (∀ b ∈ blocks, b.Contains t.nip → t.nip = b.start) →
          Whole blocks cia t.nip ∧ Aligned blocks t.nip := by
    intro hFlow hStarts
    refine ⟨⟨?_, ?_⟩, ?_⟩
    · intro b hb hIn hNe
      exact absurd (hStarts b hb hIn) hNe
    · intro b hb hIn hNe
      exact absurd (hLast b hb hIn (hFlow b hb hIn)) hNe
    · intro b hb hIn
      rw [hStarts b hb hIn]
      exact Nat.dvd_of_mod_eq_zero (hCut.aligned b hb).1
  by_cases hUntold :
      ∀ b ∈ blocks, b.Contains cia →
        Untold (analyzeCode code cia)
  · exact
      hWhole (fun b hb hIn => (hUntold b hb hIn).1)
        (hLands hUntold)
  · push Not at hUntold
    obtain ⟨b, hb, hIn, hTold⟩ := hUntold
    have hNip := told_of_step hTold hNext.2
    change if (analyzeCode code cia).flow then _ else _ at hNip
    split at hNip
    case isTrue hFlow =>
      refine hWhole (fun _ _ _ => hFlow) (fun c hc hInto => ?_)
      have hCia := hLast b hb hIn hFlow
      subst hCia
      refine (hCut.start_of_exit hb hc ?_ hInto).symm
      rcases hNip with hTarget | ⟨hPass, hEnd⟩
      · exact .target hFlow hTarget
      · rw [hEnd]
        exact .passthrough hFlow hPass
    case isFalse =>
      have hFits := hCut.fits hb
      have hBounds := hCut.bounds hb
      have hWords := hCut.aligned b hb
      have hDvd := hAligned b hb hIn
      have hUpper := hIn.2
      unfold BasicBlock.finish at hBounds hUpper
      have hEnd : t.nip.toNat = cia.toNat + 4 := by
        rw [hNip]
        exact toNat_add_ofNat _ 4 (by omega)
      refine ⟨⟨?_, fun _ _ _ _ => hNip⟩, ?_⟩
      · intro c hc hInto hNe
        have hStart := (hCut.aligned c hc).1
        have hOther : c.start.toNat ≠ t.nip.toNat :=
          fun hSame => hNe (BitVec.eq_of_toNat_eq hSame.symm)
        rcases hInto with ⟨hLower, hBefore⟩
        exact ⟨⟨by omega, by omega⟩, hNip⟩
      · intro c hc hInto
        omega

/-
  The interpreter goes through the blocks of a segment as
  wholes, if what the analysis does not tell leads to their
  starts.
-/
theorem whole_of_run
    (env : Env R)
    (code : Ps3Uintptr → BitVec 32)
    (start length : BitVec 32)
    (leads : List Ps3Uintptr)
    (blocks : List BasicBlock)
    (s t : PPUThread R)
    (cias : List Ps3Uintptr)
    (hDvd : 4 ∣ length.toNat)
    (hBlocks :
      discoveredBlocks start length leads (analyzeCode code) =
        .ok blocks)
    (hStart : ∀ b ∈ blocks, b.Contains s.nip → s.nip = b.start)
    (hRun :
      Transition.Run
        (Transition.restrict (Next env code)
          (LandsAtStart code blocks))
        s cias t) :
    cias.IsChain (Whole blocks) := by
  have hCut := discoveredBlocks_spec hDvd hBlocks
  have hAll :
      cias.IsChain (Whole blocks) ∧
        (∀ cia ∈ cias.getLast?, Whole blocks cia t.nip) ∧
          Aligned blocks t.nip := by
    induction hRun with
    | nil =>
        refine ⟨.nil, ?_, fun b hb hIn => ?_⟩
        · intro cia hCia
          cases hCia
        · rw [hStart b hb hIn]
          exact Nat.dvd_of_mod_eq_zero (hCut.aligned b hb).1
    | @snoc cias middle t cia _ hLast ih =>
        obtain ⟨hChain, hEnd, hAligned⟩ := ih
        obtain ⟨hNext, hLands⟩ := hLast
        have hCia := hNext.1
        rw [← hCia] at hEnd hAligned
        have hWhole := whole_of_next hCut hAligned hNext hLands
        refine ⟨?_, ?_, hWhole.2⟩
        · rw [List.isChain_append]
          refine ⟨hChain, .singleton _, fun a ha b hb => ?_⟩
          obtain rfl := Option.some.inj hb
          exact hEnd a ha
        · intro a ha
          rw [List.getLast?_concat] at ha
          obtain rfl := Option.some.inj ha
          exact hWhole.1
  exact hAll.1

/- A word that does nothing, and a branch back to it. -/
def nopLoop (cia : Ps3Uintptr) : BitVec 32 :=
  if cia = 0x1000#32 then 0x60000000#32 else 0x4bfffffc#32

theorem whole_of_run_nopLoop :
    [0x1000#32, 0x1004#32].IsChain
      (Whole [⟨0x1000#32, 8#32⟩]) := by
  have hNop :
      ∀ s t : PPUThread Unit,
        LandsAtStart nopLoop [⟨0x1000#32, 8#32⟩] s 0x1000#32 t :=
    fun _ _ hAll =>
      absurd
        (hAll _ List.mem_cons_self ⟨by decide, by decide⟩).1
        (by decide)
  have hBranch :
      ∀ s t : PPUThread Unit,
        LandsAtStart nopLoop [⟨0x1000#32, 8#32⟩] s 0x1004#32 t :=
    fun _ _ hAll =>
      absurd
        (hAll _ List.mem_cons_self ⟨by decide, by decide⟩).2
        (by decide)
  refine
    whole_of_run (idle Unit) nopLoop 0x1000#32 8#32
      [0x1000#32] _ { cleared with nip := 0x1000#32 } _ _
      (by decide) rfl ?_
      (.snoc (.snoc .nil ⟨⟨rfl, rfl⟩, hNop _ _⟩)
        ⟨⟨rfl, rfl⟩, hBranch _ _⟩)
  intro b hb _
  obtain rfl := List.mem_singleton.mp hb
  rfl

end Ppu

end Ps3emu
