import Ps3emu.Rewriter.Compile

/-
  The functions that are compiled from the parts, when they
  are run: from the last instruction of a block control goes
  where the interpreter goes.

  Key definitions include:
    * `run`, `Program.enter`
    * `Continues`
    * `KeepsControl`

  Key theorems include:
    * `linked_part`
    * `run_last`
    * `rewritePPU_keepsControl`
-/

------------------------------------------------------------
-- Runs
------------------------------------------------------------

namespace Ps3emu

namespace Rewriter

open Ppu (SetNip Outcome PPUThread Registers Fault Env)

variable {R : Type}

/-
  Control comes to the next label, goes to a label, returns
  from the function, or comes to its end.
-/
inductive Leave (R : Type) where
  | label (va : Ps3Uintptr) (t : PPUThread R)
  | goto (label : BitVec 64) (t : PPUThread R)
  | ret (t : PPUThread R)
  | finish (t : PPUThread R)

section Run

variable (env : Env R)

/-
  What the code of an access of several sources does.  It has
  to do with registers and memory only.
-/
variable
  (access :
    LoadStoreStatement →
      Registers R → Except Fault (Registers R))

variable
  (call :
    Ps3Uintptr → PPUThread R → Except Fault (PPUThread R))

/- The code of a function up to the next label. -/
def run : List Code → PPUThread R → Except Fault (Leave R)
  | [], t => .ok (.finish t)
  | .label va :: _, t => .ok (.label va t)
  | .call va :: rest, t => do
      let t ← call va t
      run rest t
  | .instr mode i :: rest, t => do
      match ← Ppu.rewritten env mode i.bytes i.cia t with
      | .next t => run rest t
      | .goto label t => .ok (.goto label t)
      | .ret t => .ok (.ret t)
  | .access st :: rest, t => do
      let t ← Ppu.onRegisters (access st) t
      run rest t
  | .indirect va :: _, t =>
      .ok (.ret (t.setNIP (va.setWidth 64 &&& ~~~3#64)))

namespace Program

/- A function that is called comes back in either case. -/
def callFunction
    (p : Program)
    (va : Ps3Uintptr)
    (t : PPUThread R) : Except Fault (PPUThread R) :=
  match p.functions.lookup va with
  | none => .error .other
  | some code => do
      match ← run env access (fun _ _ => .error .other) code t
        with
      | .ret t => .ok t
      | .finish t => .ok t
      | _ => .error .other

/- The code behind a label. -/
def fromLabel (va : Ps3Uintptr) : List Code → List Code
  | [] => []
  | c :: rest =>
      if c = .label va then rest else fromLabel va rest

/- `goto *labels[label]`. -/
def enter
    (p : Program)
    (label : Nat)
    (t : PPUThread R) : Except Fault (Leave R) :=
  match p.labels[label]? with
  | none => .error .other
  | some va =>
      run env access (p.callFunction env access)
        (fromLabel va p.body) t

end Program

/- The registers after an instruction of the interpreter. -/
def stepRegisters
    (i : SimpleInstruction)
    (r : Registers R) : Except Fault (Registers R) :=
  (Ppu.step env i.bytes i.cia ⟨i.cia, r⟩).map PPUThread.regs

/- The registers after a statement that is no branch. -/
def Statement.registers :
    Statement → Registers R → Except Fault (Registers R)
  | .simple i => stepRegisters env i
  | .loadStore st =>
      if st.src.length = 1 then stepRegisters env st.simple
      else access st

/- The registers after some statements. -/
def statementsRegisters
    (statements : List Statement)
    (r : Registers R) : Except Fault (Registers R) :=
  statements.foldlM
    (fun r st => Statement.registers env access st r) r

end Run

/-
  The interpreter has come to the thread `t'`.  A label that
  is reached is that of a block of the part at its address;
  otherwise the function has returned, and the thread is the
  same.
-/
def Continues
    (blocks : List BasicBlockInfo) :
    Leave R → PPUThread R → Prop
  | .label va t, t' =>
      t.regs = t'.regs ∧ va = t'.nip ∧
        ∃ c ∈ blocks, c.start = t'.nip
  | .goto label t, t' =>
      t.regs = t'.regs ∧ label = t'.nip.setWidth 64 ∧
        ∃ c ∈ blocks, c.start = t'.nip
  | .ret t, t' => t = t'
  | .finish _, _ => False

/-
  The blocks of the parts are those that have been discovered.
  The text of each part compiles.  From the entry of a block
  its function runs the statements before the last, and then
  leads where the interpreter goes from the last instruction.
-/
structure KeepsControl
    (load32 : Ps3Uintptr → BitVec 32)
    (blocks : List BasicBlock)
    (segments : List SegmentInfo) : Prop where
  once :
    (segments.flatMap (fun segment =>
      segment.blocks.map (fun b => BasicBlock.mk b.start b.len))).Perm
        blocks
  flow :
    ∀ segment ∈ segments, ∃ program,
      compile (printSegment segment) = some program ∧
        ∀ n b, segment.blocks[n]? = some b →
          ∃ front last,
            optimized load32 ⟨b.start, b.len⟩ =
                front ++ [transform last] ∧
              last.cia = b.start + b.len - 4#32 ∧
              last.bytes = load32 last.cia ∧
              ∀ (R : Type) (env : Env R) (callee) (access) (t),
                Fallible.Matches (Continues segment.blocks)
                  (program.enter (env.withNcall callee) access
                    n t)
                  (do
                    let t ← Ppu.onRegisters
                      (statementsRegisters
                        (env.withNcall callee) access front) t
                    Ppu.step (env.withNcall callee) last.bytes
                      last.cia t)

------------------------------------------------------------
-- Straight Code
------------------------------------------------------------

/- Code that lets control through to what is behind it. -/
def Code.Straight : Code → Prop
  | .instr _ i => (Ppu.analyze i.bytes i.cia).flow = false
  | .access _ => True
  | _ => False

theorem Code.Straight.goto_eq_none
    {c : Code}
    (hStraight : c.Straight) :
    c.goto? = none := by
  cases c with
  | instr mode i =>
      cases mode with
      | indirect => rfl
      | initial =>
          apply if_neg
          intro hDirect
          have hFlow := Ppu.flow_of_direct hDirect i.cia
          rw [show (Ppu.analyze i.bytes i.cia).flow = false
            from hStraight] at hFlow
          cases hFlow
  | access st => rfl
  | _ => cases hStraight

theorem Code.Straight.label_eq_none
    {c : Code}
    (hStraight : c.Straight) :
    c.label? = none := by
  cases c with
  | label va => cases hStraight
  | _ => rfl

theorem Code.Straight.call_eq_none
    {c : Code}
    (hStraight : c.Straight) :
    c.call? = none := by
  cases c with
  | call va => cases hStraight
  | _ => rfl

/- A statement of instructions that are no branches. -/
theorem Early.straight
    {instrs : List SimpleInstruction}
    (hFlow :
      ∀ i ∈ instrs, (Ppu.analyze i.bytes i.cia).flow = false)
    {st : Statement}
    (hEarly : Early instrs st)
    (mode : SetNip) :
    (st.code mode).Straight := by
  rcases hEarly with ⟨i, hi, rfl⟩ | ⟨x, rfl, hTwo⟩
  · rw [code_transform]
    exact hFlow i hi
  · unfold Statement.code
    simp only
    rw [if_neg (by omega)]
    exact trivial

theorem onRegisters_bind
    {α : Type}
    (f g : Registers R → Except Fault (Registers R))
    (k : PPUThread R → Except Fault α)
    (t : PPUThread R) :
    (Ppu.onRegisters (fun r => f r >>= g) t >>= k) =
      (Ppu.onRegisters f t >>= fun t =>
        Ppu.onRegisters g t >>= k) := by
  unfold Ppu.onRegisters
  dsimp only
  cases f t.regs with
  | error e => rfl
  | ok r => rfl

/- The code of one statement acts on the registers. -/
theorem run_statement
    (env : Env R)
    (access :
      LoadStoreStatement →
        Registers R → Except Fault (Registers R))
    (call :
      Ps3Uintptr → PPUThread R → Except Fault (PPUThread R))
    (mode : SetNip)
    {st : Statement}
    (hStraight : (st.code mode).Straight)
    (rest : List Code)
    (t : PPUThread R) :
    run env access call (st.code mode :: rest) t =
      Ppu.onRegisters (Statement.registers env access st) t >>=
        run env access call rest := by
  have hInstr :
      ∀ i : SimpleInstruction,
        (Ppu.analyze i.bytes i.cia).flow = false →
        run env access call (.instr mode i :: rest) t =
          Ppu.onRegisters (stepRegisters env i) t >>=
            run env access call rest := by
    intro i hFlow
    rcases Ppu.rewritten_of_flow env hFlow with
      ⟨f, hRewritten, hStep⟩
    have hRegisters : stepRegisters env i = f := by
      funext r
      unfold stepRegisters
      rw [hStep]
      unfold Ppu.onRegisters
      dsimp only
      cases f r with
      | error e => rfl
      | ok r' => rfl
    rw [hRegisters, run, hRewritten]
    unfold Ppu.onRegisters
    cases f t.regs with
    | error e => rfl
    | ok r => rfl
  cases st with
  | simple i => exact hInstr i hStraight
  | loadStore st =>
      unfold Statement.code Statement.registers at *
      simp only at hStraight ⊢
      by_cases hOne : st.src.length = 1
      · rw [if_pos hOne] at hStraight
        rw [if_pos hOne]
        simp only [hOne, if_true]
        exact hInstr st.simple hStraight
      · rw [if_neg hOne]
        simp only [hOne, if_false]
        rfl

theorem run_statements
    (env : Env R)
    (access :
      LoadStoreStatement →
        Registers R → Except Fault (Registers R))
    (call :
      Ps3Uintptr → PPUThread R → Except Fault (PPUThread R))
    (mode : SetNip)
    {statements : List Statement}
    (hStraight :
      ∀ st ∈ statements, (st.code mode).Straight)
    (rest : List Code)
    (t : PPUThread R) :
    run env access call
        (statements.map (Statement.code mode) ++ rest) t =
      Ppu.onRegisters (statementsRegisters env access statements)
          t >>=
        run env access call rest := by
  induction statements generalizing t with
  | nil => rfl
  | cons st others ih =>
      have hOthers :=
        ih (fun x hx => hStraight x (List.mem_cons_of_mem _ hx))
      have hFold :
          statementsRegisters env access (st :: others) =
            fun r => Statement.registers env access st r >>=
              statementsRegisters env access others := by
        funext r
        exact List.foldlM_cons
      rw [List.map_cons, List.cons_append,
        run_statement env access call mode
          (hStraight st List.mem_cons_self), hFold,
        onRegisters_bind]
      exact bind_congr hOthers

------------------------------------------------------------
-- Parts of a Segment
------------------------------------------------------------

/- What is known of the blocks of a part. -/
structure PartOk
    (load32 : Ps3Uintptr → BitVec 32)
    (part : List BasicBlock) : Prop where
  placed : ∀ b ∈ part, Placed b
  ordered : Ordered part
  flow :
    ∀ b ∈ part, ∀ cia,
      4 ∣ cia.toNat →
      b.Contains cia →
      (analyzeFunc load32 cia).flow = true →
      cia = b.lastVa

/- The last instruction of a block, as it is printed. -/
def lastInstruction
    (load32 : Ps3Uintptr → BitVec 32)
    (b : BasicBlock) : SimpleInstruction :=
  ⟨b.lastVa, load32 b.lastVa⟩

section Part

variable {load32 : Ps3Uintptr → BitVec 32} {part : List BasicBlock}

/- A direct branch whose target is no block of the part. -/
theorem lastMode_of_direct
    {b : BasicBlock}
    (hDirect : Ppu.Direct (load32 b.lastVa))
    (hOutside :
      startsAt part
          ((Ppu.nia (load32 b.lastVa) b.lastVa).setWidth 32) =
        false) :
    lastMode load32 part b = .indirect := by
  have hTarget := Ppu.target_eq hDirect b.lastVa
  have hFlow := Ppu.flow_of_direct hDirect b.lastVa
  have hSome :
      (outOfPart load32 part b).1 =
        some
          ((Ppu.nia (load32 b.lastVa) b.lastVa).setWidth
            32) := by
    change
      ((Ppu.analyze (load32 b.lastVa) b.lastVa).target.filter
        _) = _
    rw [hTarget]
    apply Option.filter_some_pos
    change
      ((Ppu.analyze (load32 b.lastVa) b.lastVa).flow &&
        !startsAt part _) = true
    rw [hFlow, hOutside]
    rfl
  unfold lastMode
  rw [hSome]
  rfl

section

variable (hPart : PartOk load32 part)

include hPart

variable {b : BasicBlock}

theorem PartOk.ends
    (hb : b ∈ part) :
    ∃ instrs,
      Ends instrs (lastInstruction load32 b)
          (optimized load32 b) ∧
        ∀ i ∈ instrs,
          (Ppu.analyze i.bytes i.cia).flow = false := by
  rcases (hPart.placed b hb).instructions_eq load32 with
    ⟨instrs, hEq, hEarly⟩
  refine ⟨instrs, optimized_ends load32 b hEq, ?_⟩
  intro i hi
  rcases hEarly i hi with ⟨hBytes, hDvd, hIn, hNe⟩
  rw [hBytes]
  cases hFlow : (Ppu.analyze (load32 i.cia) i.cia).flow with
  | false => rfl
  | true =>
      exact absurd (hPart.flow b hb i.cia hDvd hIn hFlow) hNe

theorem PartOk.optimized_eq
    (hb : b ∈ part) :
    optimized load32 b =
        (optimized load32 b).dropLast ++
          [transform (lastInstruction load32 b)] ∧
      ∀ st ∈ (optimized load32 b).dropLast, ∀ mode,
        (st.code mode).Straight := by
  rcases hPart.ends hb with
    ⟨instrs, ⟨front, hEq, hEarly⟩, hFlow⟩
  rw [hEq, List.dropLast_concat]
  exact
    ⟨rfl, fun st hst mode => (hEarly st hst).straight hFlow mode⟩

/- The code of a block: straight code, and how it ends. -/
theorem PartOk.blockTail_eq
    (hb : b ∈ part) :
    blockTail load32 part b =
      (if shouldExtract (emitBlock load32 part b) then
        [.call b.start]
      else
        (optimized load32 b).dropLast.map
          (Statement.code (lastMode load32 part b))) ++
        .instr (lastMode load32 part b)
            (lastInstruction load32 b) ::
          lastTrailing load32 part b := by
  have hEq := (hPart.optimized_eq hb).1
  unfold blockTail
  cases hExtract :
      shouldExtract (emitBlock load32 part b) with
  | true =>
      rcases lastMode_of_shouldExtract hExtract with
        ⟨hMode, hTrailing⟩
      rw [if_pos rfl, if_pos rfl, hEq, List.getLast?_concat,
        hMode, hTrailing]
      exact
        congrArg (fun c => [Code.call b.start, c])
          (code_transform .initial _)
  | false =>
      rw [if_neg Bool.false_ne_true,
        if_neg Bool.false_ne_true]
      conv_lhs => rw [hEq]
      rw [List.map_append, List.append_assoc,
        List.map_singleton, code_transform,
        List.singleton_append]

theorem PartOk.mem_blockTail
    (hb : b ∈ part)
    {c : Code}
    (hc : c ∈ blockTail load32 part b) :
    (c = .call b.start ∧ b ∈ extracted load32 part) ∨
      c.Straight ∨
        c =
            .instr (lastMode load32 part b)
              (lastInstruction load32 b) ∨
          ∃ va, c = .indirect va := by
  rw [hPart.blockTail_eq hb] at hc
  rcases List.mem_append.mp hc with hFront | hLast
  · split at hFront
    case isTrue hExtract =>
      exact
        .inl
          ⟨List.mem_singleton.mp hFront,
            List.mem_filter.mpr ⟨hb, hExtract⟩⟩
    case isFalse =>
      rcases List.mem_map.mp hFront with ⟨st, hst, rfl⟩
      exact .inr (.inl ((hPart.optimized_eq hb).2 st hst _))
  · rcases List.mem_cons.mp hLast with hInstr | hAfter
    · exact .inr (.inr (.inl hInstr))
    · unfold lastTrailing trailing at hAfter
      split at hAfter
      case isTrue =>
        exact
          .inr (.inr (.inr ⟨_, List.mem_singleton.mp hAfter⟩))
      case isFalse => cases hAfter

/- A target in the part is the label that is printed. -/
theorem PartOk.label_of_direct
    (hb : b ∈ part)
    (hMode : lastMode load32 part b = .initial)
    (hDirect : Ppu.Direct (load32 b.lastVa)) :
    ∃ c ∈ part,
      c.start =
          (Ppu.nia (load32 b.lastVa) b.lastVa).setWidth 32 ∧
        Ppu.nia (load32 b.lastVa) b.lastVa =
          c.start.setWidth 64 := by
  cases hInside :
      startsAt part
        ((Ppu.nia (load32 b.lastVa) b.lastVa).setWidth 32) with
  | false =>
      rw [lastMode_of_direct hDirect hInside] at hMode
      cases hMode
  | true =>
      rcases startsAt_iff.mp hInside with ⟨c, hc, hStart⟩
      have hLast := (hPart.placed b hb).toNat_lastVa
      have hBelow := (hPart.placed b hb).below
      have hPos := (hPart.placed c hc).nonempty
      have hTarget := (hPart.placed c hc).below
      unfold BasicBlock.finish at hTarget
      exact
        ⟨c, hc, hStart,
          Ppu.nia_eq_setWidth (by omega) (by omega)
            hStart.symm⟩

theorem PartOk.labels_eq :
    (part.flatMap (blockCode load32 part)).filterMap
        Code.label? =
      part.map BasicBlock.start := by
  have hBlock :
      ∀ b ∈ part,
        (blockCode load32 part b).filterMap
          Code.label? = [b.start] := by
    intro b hb
    have hTail :
        (blockTail load32 part b).filterMap
          Code.label? = [] := by
      apply List.filterMap_eq_nil_iff.mpr
      intro c hc
      rcases hPart.mem_blockTail hb hc with
        ⟨rfl, -⟩ | hStraight | rfl | ⟨va, rfl⟩
      · rfl
      · exact hStraight.label_eq_none
      · rfl
      · rfl
    unfold blockCode
    rw [List.filterMap_cons, hTail]
    rfl
  rw [List.filterMap_flatMap, List.flatMap_congr hBlock,
    List.map_eq_flatMap]

theorem PartOk.starts_nodup :
    (part.map BasicBlock.start).Nodup := by
  refine List.pairwise_map.mpr ?_
  refine hPart.ordered.imp_of_mem ?_
  intro b c hb _ hBefore hSame
  have hPos := (hPart.placed b hb).nonempty
  unfold BasicBlock.finish at hBefore
  rw [hSame] at hBefore
  omega

theorem linked_part :
    Linked (partProgram load32 part) where
  labels := by
    change (List.filterMap _ (part.flatMap _)).Nodup
    rw [hPart.labels_eq]
    exact hPart.starts_nodup
  functions := by
    change (List.map _ (List.map _ _)).Nodup
    rw [List.map_map]
    exact
      (hPart.starts_nodup).sublist
        (List.filter_sublist.map BasicBlock.start)
  entries := by
    intro va hva
    change va ∈ List.filterMap _ (part.flatMap _)
    rw [hPart.labels_eq]
    exact hva
  calls := by
    intro c hc va hva
    rcases List.mem_flatMap.mp hc with ⟨b, hb, hIn⟩
    cases hIn with
    | head => cases hva
    | tail _ hTail =>
        rcases hPart.mem_blockTail hb hTail with
          ⟨rfl, hExtract⟩ | hStraight | rfl | ⟨_, rfl⟩
        · cases hva
          exact
            List.mem_map_of_mem
              (List.mem_map_of_mem hExtract)
        · rw [hStraight.call_eq_none] at hva
          cases hva
        · cases hva
        · cases hva
  gotos := by
    intro c hc label hLabel
    change ∃ va ∈ List.filterMap _ (part.flatMap _), _
    rw [hPart.labels_eq]
    rcases List.mem_flatMap.mp hc with ⟨b, hb, hIn⟩
    cases hIn with
    | head => cases hLabel
    | tail _ hTail =>
        rcases hPart.mem_blockTail hb hTail with
          ⟨rfl, -⟩ | hStraight | rfl | ⟨_, rfl⟩
        · cases hLabel
        · rw [hStraight.goto_eq_none] at hLabel
          cases hLabel
        · cases hMode :
              lastMode load32 part b with
          | indirect =>
              rw [hMode] at hLabel
              cases hLabel
          | initial =>
              rw [hMode] at hLabel
              unfold Code.goto? at hLabel
              simp only at hLabel
              split at hLabel
              case isFalse => cases hLabel
              case isTrue hDirect =>
                cases hLabel
                rcases hPart.label_of_direct hb hMode hDirect
                  with ⟨d, hd, -, hSame⟩
                exact
                  ⟨d.start, List.mem_map_of_mem hd, hSame⟩
        · cases hLabel
  leaves := by
    intro f hf c hc
    rcases List.mem_map.mp hf with ⟨b, hb, rfl⟩
    rcases List.mem_map.mp hc with ⟨st, hst, rfl⟩
    have hIn := (List.mem_filter.mp hb).1
    exact ((hPart.optimized_eq hIn).2 st hst _).goto_eq_none

end

------------------------------------------------------------
-- Runs of a Part
------------------------------------------------------------

theorem fromLabel_append
    {va : Ps3Uintptr}
    {first : List Code}
    (hNone : ∀ c ∈ first, c ≠ .label va)
    (second : List Code) :
    Program.fromLabel va (first ++ second) =
      Program.fromLabel va second := by
  induction first with
  | nil => rfl
  | cons c rest ih =>
      rw [List.cons_append, Program.fromLabel,
        if_neg (hNone c List.mem_cons_self)]
      exact ih (fun d hd => hNone d (List.mem_cons_of_mem _ hd))

/- The labels of a part lead to the code of their blocks. -/
theorem PartOk.fromLabel_eq
    {before after : List BasicBlock}
    {b : BasicBlock}
    (hPart : PartOk load32 (before ++ b :: after)) :
    Program.fromLabel b.start
        ((before ++ b :: after).flatMap
          (blockCode load32 (before ++ b :: after))) =
      blockTail load32 (before ++ b :: after) b ++
        after.flatMap
          (blockCode load32 (before ++ b :: after)) := by
  rw [List.flatMap_append, List.flatMap_cons]
  rw [fromLabel_append]
  · exact if_pos rfl
  · rintro c hc rfl
    rcases List.mem_flatMap.mp hc with ⟨d, hd, hIn⟩
    have hdPart : d ∈ before ++ b :: after :=
      List.mem_append_left _ hd
    have hApart :=
      (List.pairwise_append.mp hPart.ordered).2.2 d hd b
        List.mem_cons_self
    have hPos := (hPart.placed d hdPart).nonempty
    rcases List.mem_cons.mp hIn with hLabel | hTail
    · injection hLabel with hSame
      rw [hSame] at hApart
      unfold BasicBlock.finish at hApart
      omega
    · rcases hPart.mem_blockTail hdPart hTail with
        ⟨hCode, -⟩ | hStraight | hCode | ⟨_, hCode⟩
      · cases hCode
      · cases hStraight
      · cases hCode
      · cases hCode

theorem lookup_map
    {blocks : List BasicBlock}
    (hNodup : (blocks.map BasicBlock.start).Nodup)
    (code : BasicBlock → List Code)
    {b : BasicBlock}
    (hb : b ∈ blocks) :
    (blocks.map (fun c => (c.start, code c))).lookup b.start =
      some (code b) := by
  induction blocks with
  | nil => cases hb
  | cons c rest ih =>
      rw [List.map_cons] at hNodup ⊢
      rcases List.nodup_cons.mp hNodup with ⟨hNew, hRest⟩
      rw [List.lookup_cons]
      cases hb with
      | head => simp
      | tail _ hIn =>
          have hNe : (b.start == c.start) = false := by
            apply beq_eq_false_iff_ne.mpr
            intro hSame
            apply hNew
            rw [← hSame]
            exact List.mem_map_of_mem hIn
          rw [hNe]
          exact ih hRest hIn

section Run

variable (env : Env R)

variable
  (access :
    LoadStoreStatement →
      Registers R → Except Fault (Registers R))

variable {b : BasicBlock}

/- A block that is a function runs all but its last statement. -/
theorem PartOk.callFunction_eq
    (hPart : PartOk load32 part)
    (hb : b ∈ extracted load32 part) :
    (partProgram load32 part).callFunction env access
        b.start =
      Ppu.onRegisters
        (statementsRegisters env access
          (optimized load32 b).dropLast) := by
  have hIn := (List.mem_filter.mp hb).1
  have hNodup :
      ((extracted load32 part).map BasicBlock.start).Nodup :=
    hPart.starts_nodup.sublist
      (List.filter_sublist.map BasicBlock.start)
  have hLookup := lookup_map hNodup (frontCode load32) hb
  have hRun :=
    run_statements env access (fun _ _ => .error .other)
      .initial
      (fun st hst => (hPart.optimized_eq hIn).2 st hst .initial)
      []
  funext t
  unfold Program.callFunction partProgram
  simp only
  rw [hLookup]
  simp only
  have hFront := hRun t
  rw [List.append_nil] at hFront
  unfold frontCode
  rw [hFront]
  cases Ppu.onRegisters
    (statementsRegisters env access
      (optimized load32 b).dropLast) t with
  | error e => rfl
  | ok t' => rfl

/- All but the last statement, and what follows them. -/
theorem PartOk.run_block
    (hPart : PartOk load32 part)
    (hb : b ∈ part)
    (later : List Code)
    (t : PPUThread R) :
    run env access
        ((partProgram load32 part).callFunction env access)
        (blockTail load32 part b ++ later) t =
      Ppu.onRegisters
          (statementsRegisters env access
            (optimized load32 b).dropLast) t >>=
        run env access
          ((partProgram load32 part).callFunction env access)
          (.instr (lastMode load32 part b)
              (lastInstruction load32 b) ::
            (lastTrailing load32 part b ++ later)) := by
  rw [hPart.blockTail_eq hb, List.append_assoc,
    List.cons_append]
  cases hExtract :
      shouldExtract (emitBlock load32 part b) with
  | true =>
      rw [if_pos rfl, List.singleton_append, run,
        hPart.callFunction_eq env access
          (List.mem_filter.mpr ⟨hb, hExtract⟩)]
  | false =>
      rw [if_neg Bool.false_ne_true]
      exact
        run_statements env access _ _
          (fun st hst => (hPart.optimized_eq hb).2 st hst _) _ t

/- The address after a block, which is not zero. -/
theorem PartOk.finish_ne_zero
    (hPart : PartOk load32 part)
    (hb : b ∈ part) :
    b.start + b.len ≠ 0#32 := by
  have hFinish := (hPart.placed b hb).toNat_finish
  have hPos := (hPart.placed b hb).nonempty
  intro hZero
  rw [hZero] at hFinish
  unfold BasicBlock.finish at hFinish
  have hNat : (0#32).toNat = 0 := rfl
  omega

/- What follows an instruction that lets control through. -/
theorem lastTrailing_eq
    (hPass :
      (analyzeFunc load32 b.lastVa).flow = true →
        (analyzeFunc load32 b.lastVa).passthrough = true) :
    lastTrailing load32 part b =
      trailing
        (if startsAt part (b.start + b.len) then 0#32
        else b.start + b.len) := by
  have hTest :
      ((analyzeFunc load32 b.lastVa).flow &&
        !(analyzeFunc load32 b.lastVa).passthrough) = false := by
    cases hFlow : (analyzeFunc load32 b.lastVa).flow with
    | false => rfl
    | true =>
        rw [hPass hFlow]
        rfl
  change
    trailing
        (if ((analyzeFunc load32 b.lastVa).flow &&
            !(analyzeFunc load32 b.lastVa).passthrough) ||
            startsAt part (b.start + b.len) then 0#32
        else b.start + b.len) = _
  rw [hTest, Bool.false_or]

/-
  Behind the last instruction of a block comes the block that
  starts there, or the indirect transfer to the address.
-/
theorem PartOk.run_fallthrough
    {before after : List BasicBlock}
    (hPart : PartOk load32 (before ++ b :: after))
    (call :
      Ps3Uintptr → PPUThread R → Except Fault (PPUThread R))
    (hPass :
      (analyzeFunc load32 b.lastVa).flow = true →
        (analyzeFunc load32 b.lastVa).passthrough = true)
    {t t' : PPUThread R}
    (hRegs : t.regs = t'.regs)
    (hNip : t'.nip = b.lastVa + 4#32) :
    ∃ leave,
      run env access call
          (lastTrailing load32 (before ++ b :: after) b ++
            after.flatMap
              (blockCode load32 (before ++ b :: after))) t =
        .ok leave ∧
      Continues
        ((before ++ b :: after).map
          (emitBlock load32 (before ++ b :: after)))
        leave t' := by
  have hb : b ∈ before ++ b :: after := by simp
  rw [Placed.lastVa_add] at hNip
  rw [lastTrailing_eq hPass]
  cases hInside :
      startsAt (before ++ b :: after) (b.start + b.len) with
  | true =>
      rcases startsAt_iff.mp hInside with ⟨c, hc, hStart⟩
      have hFinish := (hPart.placed b hb).toNat_finish
      rw [← hStart] at hFinish
      rcases
        hPart.ordered.next
          (fun d hd => (hPart.placed d hd).nonempty) hc
          hFinish with ⟨rest, rfl⟩
      refine ⟨.label c.start t, rfl, hRegs, ?_, ?_⟩
      · rw [hStart, hNip]
      · exact
          ⟨_, List.mem_map_of_mem hc, by rw [hNip]; exact hStart⟩
  | false =>
      have hTrailing :
          trailing (b.start + b.len) =
            [.indirect (b.start + b.len)] :=
        if_pos (hPart.finish_ne_zero hb)
      rw [if_neg Bool.false_ne_true, hTrailing]
      refine ⟨_, rfl, ?_⟩
      change PPUThread.setNIP t _ = t'
      rw [(hPart.placed b hb).setNIP_finish, hRegs, ← hNip]

/-
  From the last instruction of a block control goes where the
  interpreter goes.
-/
theorem PartOk.run_last
    {before after : List BasicBlock}
    (hPart : PartOk load32 (before ++ b :: after))
    (callee :
      BitVec 26 → PPUThread R → Except Fault (PPUThread R))
    (call :
      Ps3Uintptr → PPUThread R → Except Fault (PPUThread R))
    (t : PPUThread R) :
    Fallible.Matches
      (Continues
        ((before ++ b :: after).map
          (emitBlock load32 (before ++ b :: after))))
      (run (env.withNcall callee) access call
        (.instr (lastMode load32 (before ++ b :: after) b)
            (lastInstruction load32 b) ::
          (lastTrailing load32 (before ++ b :: after) b ++
            after.flatMap
              (blockCode load32 (before ++ b :: after)))) t)
      (Ppu.step (env.withNcall callee) (load32 b.lastVa)
        b.lastVa t) := by
  have hb : b ∈ before ++ b :: after := by simp
  have hAligned := (hPart.placed b hb).lastVa_mod
  generalize hMode :
    lastMode load32 (before ++ b :: after) b = mode
  rw [run]
  apply
    (Ppu.rewritten_agrees env callee mode (load32 b.lastVa)
      hAligned t).bind_left
  intro o t' hRun hAgrees
  cases Ppu.rewritten_wayOut hRun with
  | next hPass =>
      rcases hPart.run_fallthrough (env.withNcall callee) access
        call hPass hAgrees.1 hAgrees.2 with
        ⟨leave, hLeave, hContinues⟩
      dsimp only
      rw [hLeave]
      exact hContinues
  | goto hInitial hDirect =>
      rw [hInitial] at hMode
      rcases hPart.label_of_direct hb hMode hDirect with
        ⟨c, hc, hStart, hLabel⟩
      rcases hAgrees with ⟨hRegs, hNip⟩
      rw [← hStart] at hNip
      refine ⟨hRegs, ?_, _, List.mem_map_of_mem hc, hNip.symm⟩
      rw [hNip]
      exact hLabel
  | ret => exact hAgrees

end Run

------------------------------------------------------------
-- Segments
------------------------------------------------------------

/- The code of a block, from its entry. -/
theorem PartOk.enter
    (hPart : PartOk load32 part)
    (env : Env R)
    (callee :
      BitVec 26 → PPUThread R → Except Fault (PPUThread R))
    (access :
      LoadStoreStatement →
        Registers R → Except Fault (Registers R))
    {n : Nat}
    {b : BasicBlock}
    (hn : part[n]? = some b)
    (t : PPUThread R) :
    Fallible.Matches
      (Continues (part.map (emitBlock load32 part)))
      ((partProgram load32 part).enter (env.withNcall callee)
        access n t)
      (do
        let t ← Ppu.onRegisters
          (statementsRegisters (env.withNcall callee) access
            (optimized load32 b).dropLast) t
        Ppu.step (env.withNcall callee) (load32 b.lastVa)
          b.lastVa t) := by
  have hb : b ∈ part := List.mem_of_getElem? hn
  rcases List.append_of_mem hb with ⟨before, after, rfl⟩
  have hLabel :
      (partProgram load32 (before ++ b :: after)).labels[n]? =
        some b.start := by
    change (List.map BasicBlock.start _)[n]? = _
    rw [List.getElem?_map, hn]
    rfl
  unfold Program.enter
  rw [hLabel]
  dsimp only
  change Fallible.Matches _
    (run _ access _
      (Program.fromLabel b.start (List.flatMap _ _)) t) _
  rw [hPart.fromLabel_eq, hPart.run_block _ access hb]
  apply (Fallible.Matches.refl (r := Eq) (fun _ => rfl) _).bind
  rintro u _ rfl
  exact hPart.run_last env access callee _ u

end Part

theorem partOk_of_discovered
    {metis : Metis}
    {partSize : Nat}
    {load32 : Ps3Uintptr → BitVec 32}
    {vaBase segmentSize : BitVec 32}
    {leads : List Ps3Uintptr}
    {blocks : List BasicBlock}
    {parts : List (List BasicBlock)}
    (hLoad : loadSegment vaBase segmentSize = .ok ⟨⟩)
    (hBlocks :
      Partition vaBase segmentSize leads (analyzeFunc load32)
        blocks)
    (hParts :
      partitionBasicBlocks metis blocks (analyzeFunc load32)
        partSize = .ok parts)
    {part : List BasicBlock}
    (hPart : part ∈ parts) :
    PartOk load32 part := by
  rcases partitionBasicBlocks_ordered hBlocks.ordered
    hBlocks.nonempty hParts hPart with ⟨hOrdered, hSubset⟩
  exact
    ⟨fun b hb => hBlocks.placed hLoad (hSubset b hb), hOrdered,
      fun b hb => hBlocks.flow b (hSubset b hb)⟩

/-
  Whatever the blocks are and however they are assigned to
  parts, the text that is emitted keeps the flow of control.
-/
theorem rewritePPU_keepsControl
    (metis : Metis)
    (partSize : Nat)
    (load32 : Ps3Uintptr → BitVec 32)
    (vaBase segmentSize : BitVec 32)
    (leads : List Ps3Uintptr)
    (segments : List SegmentInfo)
    (hRewrite :
      rewritePPU metis partSize load32 vaBase segmentSize
          leads =
        .ok segments) :
    ∃ blocks,
      discoverBasicBlocks vaBase segmentSize leads
          (analyzeFunc load32) (validateFunc load32) =
        .ok blocks ∧
      KeepsControl load32 blocks segments := by
  rcases Fallible.bind_eq_ok.mp hRewrite with
    ⟨⟨⟩, hLoad, hRest⟩
  rcases Fallible.bind_eq_ok.mp hRest with
    ⟨blocks, hBlocks, hRest⟩
  rcases Fallible.bind_eq_ok.mp hRest with
    ⟨parts, hParts, hSegments⟩
  cases hSegments
  have hPartition :=
    (discoverBasicBlocks_partition vaBase segmentSize leads
      (analyzeFunc load32) (validateFunc load32)
      (Nat.dvd_of_mod_eq_zero (loadSegment_spec hLoad).1)).1
      blocks hBlocks
  refine ⟨blocks, hBlocks, ?_, ?_⟩
  · have hStarts :
        (parts.mapIdx (emitPart load32)).flatMap
            (fun segment => segment.blocks.map
              (fun b => BasicBlock.mk b.start b.len)) =
          parts.flatten := by
      have hPart :
          ∀ i part,
            (emitPart load32 i part).blocks.map
              (fun b => BasicBlock.mk b.start b.len) = part := by
        intro i part
        unfold emitPart
        rw [List.map_map]
        exact List.map_id part
      rw [List.mapIdx_eq_zipIdx_map, List.flatMap_map]
      simp only [hPart]
      rw [List.flatMap_def, List.zipIdx_map_fst]
    rw [hStarts]
    exact partitionBasicBlocks_perm hParts
  · intro segment hSegment
    rcases List.mem_mapIdx.mp hSegment with ⟨i, hi, rfl⟩
    have hPart :=
      partOk_of_discovered hLoad hPartition hParts
        (List.getElem_mem hi)
    generalize parts[i] = part at hPart
    refine
      ⟨_, compile_part i (fun b hb => ?_) (linked_part hPart),
        ?_⟩
    · rcases hPart.ends hb with ⟨instrs, hEnds, -⟩
      exact ⟨instrs, _, hEnds⟩
    · intro n info hn
      change (part.map _)[n]? = some info at hn
      rw [List.getElem?_map] at hn
      rcases Option.map_eq_some_iff.mp hn with ⟨b, hb, rfl⟩
      refine
        ⟨(optimized load32 b).dropLast, lastInstruction load32 b,
          (hPart.optimized_eq (List.mem_of_getElem? hb)).1, rfl,
          rfl, ?_⟩
      intro R env callee access t
      exact hPart.enter env callee access hb t

/- bdnz .+8; nop; b .-8, in two parts and an empty one. -/
def countdownLoop : Ps3Uintptr → BitVec 32 := fun cia =>
  if cia = 0x1000#32 then 0x42000008#32
  else if cia = 0x1008#32 then 0x4bfffff8#32
  else 0x60000000#32

theorem rewritePPU_keepsControl_loop :
    ∃ segments,
      rewritePPU (fun _ _ => some (fun i => i % 2)) 1
          countdownLoop 0x1000#32 12#32 [0x1000#32] =
        .ok segments ∧
      segments.map (fun s => s.blocks.map BasicBlockInfo.start) =
        [[0x1000#32, 0x1008#32], [0x1004#32], []] ∧
      ∃ blocks,
        discoverBasicBlocks 0x1000#32 12#32 [0x1000#32]
            (analyzeFunc countdownLoop)
            (validateFunc countdownLoop) =
          .ok blocks ∧
        KeepsControl countdownLoop blocks segments := by
  refine ⟨_, rfl, rfl, ?_⟩
  exact
    rewritePPU_keepsControl (fun _ _ => some (fun i => i % 2)) 1
      countdownLoop 0x1000#32 12#32 [0x1000#32] _ rfl

end Rewriter

end Ps3emu
