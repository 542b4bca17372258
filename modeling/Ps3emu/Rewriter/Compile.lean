import Ps3emu.Rewriter.Emission

/-
  The code that a printed text is compiled to: directives take
  effect in the order of the text, braces match, and each
  label that code goes to is in the same function.

  Key definitions include:
    * `Code`, `compileItem`
    * `Program`, `Linked`, `compile`
    * `Compiles`

  Key theorems include:
    * `compiles_statements`
    * `compiles_body`, `compiles_block`
-/

------------------------------------------------------------
-- Code
------------------------------------------------------------

namespace Ps3emu

namespace Rewriter

open Ppu (SetNip)

/- A macro is expanded with `SET_NIP` as it is defined. -/
inductive Code where
  | label (va : Ps3Uintptr)
  | call (va : Ps3Uintptr)
  | instr (mode : SetNip) (i : SimpleInstruction)
  | access (st : LoadStoreStatement)
  | indirect (va : Ps3Uintptr)
deriving DecidableEq

/-
  The definition of `SET_NIP`, if there is one, the lines that
  have been read since the last brace was opened, and the code
  so far.
-/
structure Compiler where
  mode : Option SetNip
  inside : Nat
  code : List Code

def Compiler.emit (s : Compiler) (c : Code) : Compiler :=
  { s with code := s.code ++ [c] }

/- What does not belong to an access of several sources. -/
def compileOther (s : Compiler) : Item → Option Compiler
  | .label va => some (s.emit (.label va))
  | .call va => some (s.emit (.call va))
  | .line (.comment _) => some s
  | .line .undef => some { s with mode := none }
  | .line (.define mode) => some { s with mode := some mode }
  | .line (.indirect va) => some (s.emit (.indirect va))
  | .line (.instr i) =>
      s.mode.map (fun mode => s.emit (.instr mode i))
  | .line (.access _ _) => none

/- The lines of an access follow each other. -/
def compileItem (s : Compiler) : Item → Option Compiler
  | .line (.access st k) =>
      if k ≠ s.inside then none
      else if k + 1 = st.lines then
        some { s.emit (.access st) with inside := 0 }
      else some { s with inside := k + 1 }
  | item => if s.inside = 0 then compileOther s item else none

/- A function ends with its braces closed. -/
def compileItems
    (mode : Option SetNip)
    (items : List Item) :
    Option (Option SetNip × List Code) := do
  let s ← items.foldlM compileItem ⟨mode, 0, []⟩
  if s.inside = 0 then some (s.mode, s.code) else none

def compileFunctions
    (mode : Option SetNip) :
    List (Ps3Uintptr × List Line) →
      Option
        (Option SetNip × List (Ps3Uintptr × List Code))
  | [] => some (mode, [])
  | (va, lines) :: rest => do
      let (mode, code) ← compileItems mode (lines.map .line)
      let (mode, others) ← compileFunctions mode rest
      some (mode, (va, code) :: others)

def Code.label? : Code → Option Ps3Uintptr
  | .label va => some va
  | _ => none

def Code.call? : Code → Option Ps3Uintptr
  | .call va => some va
  | _ => none

/- The label in the code of a direct branch. -/
def Code.goto? : Code → Option (BitVec 64)
  | .instr .initial i =>
      if Ppu.opcd i.bytes = 18#6 ∨ Ppu.opcd i.bytes = 16#6 then
        some (Ppu.nia i.bytes i.cia)
      else none
  | _ => none

structure Program where
  blocks : List (Ps3Uintptr × BitVec 32)
  functions : List (Ps3Uintptr × List Code)
  labels : List Ps3Uintptr
  body : List Code

/-
  Names are defined once, and those that are used are defined.
  A label is written as a number.
-/
structure Linked (p : Program) : Prop where
  labels : (p.body.filterMap Code.label?).Nodup
  functions : (p.functions.map Prod.fst).Nodup
  entries : ∀ va ∈ p.labels, va ∈ p.body.filterMap Code.label?
  calls :
    ∀ c ∈ p.body, ∀ va ∈ c.call?, va ∈ p.functions.map Prod.fst
  gotos :
    ∀ c ∈ p.body, ∀ label ∈ c.goto?,
      ∃ va ∈ p.body.filterMap Code.label?,
        label = va.setWidth 64
  leaves :
    ∀ f ∈ p.functions, ∀ c ∈ f.2, c.goto? = none

instance (p : Program) : Decidable (Linked p) :=
  decidable_of_iff
    ((p.body.filterMap Code.label?).Nodup ∧
      (p.functions.map Prod.fst).Nodup ∧
      (∀ va ∈ p.labels, va ∈ p.body.filterMap Code.label?) ∧
      (∀ c ∈ p.body, ∀ va ∈ c.call?,
        va ∈ p.functions.map Prod.fst) ∧
      (∀ c ∈ p.body, ∀ label ∈ c.goto?,
        ∃ va ∈ p.body.filterMap Code.label?,
          label = va.setWidth 64) ∧
      ∀ f ∈ p.functions, ∀ c ∈ f.2, c.goto? = none)
    ⟨fun ⟨h1, h2, h3, h4, h5, h6⟩ => ⟨h1, h2, h3, h4, h5, h6⟩,
      fun h => ⟨h.1, h.2, h.3, h.4, h.5, h.6⟩⟩

/- Functions stand before the function of the part. -/
def compile (text : SegmentText) : Option Program := do
  let (mode, functions) ←
    compileFunctions (some .initial) text.functions
  let (_, body) ← compileItems mode text.body
  let p : Program := ⟨text.blocks, functions, text.labels, body⟩
  if Linked p then some p else none

------------------------------------------------------------
-- Compilation of Lines
------------------------------------------------------------

/- Whatever comes before, the items add the code. -/
def Compiles
    (mode : Option SetNip)
    (items : List Item)
    (mode' : Option SetNip)
    (code : List Code) : Prop :=
  ∀ before,
    items.foldlM compileItem ⟨mode, 0, before⟩ =
      some ⟨mode', 0, before ++ code⟩

theorem Compiles.nil (mode : Option SetNip) :
    Compiles mode [] mode [] := by
  intro before
  rw [List.append_nil]
  rfl

theorem Compiles.append
    {mode mid mode' : Option SetNip}
    {first second : List Item}
    {code code' : List Code}
    (hFirst : Compiles mode first mid code)
    (hSecond : Compiles mid second mode' code') :
    Compiles mode (first ++ second) mode' (code ++ code') := by
  intro before
  rw [List.foldlM_append, hFirst before, ← List.append_assoc]
  exact hSecond (before ++ code)

theorem Compiles.cons
    {mode mid mode' : Option SetNip}
    {item : Item}
    {items : List Item}
    {c : Code}
    {code : List Code}
    (hFirst : Compiles mode [item] mid [c])
    (hRest : Compiles mid items mode' code) :
    Compiles mode (item :: items) mode' (c :: code) :=
  hFirst.append hRest

theorem Compiles.flatMap
    {α : Type}
    {mode : Option SetNip}
    {items : α → List Item}
    {code : α → List Code}
    {as : List α}
    (hAll : ∀ a ∈ as, Compiles mode (items a) mode (code a)) :
    Compiles mode (as.flatMap items) mode
      (as.flatMap code) := by
  induction as with
  | nil => exact .nil mode
  | cons a rest ih =>
      rw [List.flatMap_cons, List.flatMap_cons]
      exact
        (hAll a List.mem_cons_self).append
          (ih (fun b hb => hAll b (List.mem_cons_of_mem _ hb)))

theorem Compiles.items
    {mode mode' : Option SetNip}
    {items : List Item}
    {code : List Code}
    (hCompiles : Compiles mode items mode' code) :
    compileItems mode items = some (mode', code) := by
  unfold compileItems
  rw [hCompiles []]
  rfl

theorem compiles_instr
    (mode : SetNip)
    (i : SimpleInstruction) :
    Compiles (some mode) [.line (.instr i)] (some mode)
      [.instr mode i] :=
  fun _ => rfl

/- The lines of an access before the last of them. -/
theorem compile_lines
    (mode : Option SetNip)
    (st : LoadStoreStatement)
    (before : List Code)
    {n : Nat}
    (hLt : n < st.lines) :
    ((List.range n).map
        (fun k => Item.line (.access st k))).foldlM
        compileItem ⟨mode, 0, before⟩ =
      some ⟨mode, n, before⟩ := by
  induction n with
  | zero => rfl
  | succ n ih =>
      rw [List.range_succ, List.map_append,
        List.foldlM_append, ih (by omega)]
      change compileItem ⟨mode, n, before⟩
        (.line (.access st n)) >>= some = _
      simp only [compileItem]
      rw [if_neg (by simp), if_neg (by omega)]
      rfl

theorem compiles_access
    (mode : Option SetNip)
    (st : LoadStoreStatement) :
    Compiles mode
      ((List.range st.lines).map
        (fun k => Item.line (.access st k)))
      mode [.access st] := by
  intro before
  have hLines : st.lines = 2 * st.src.length + 4 + 1 := rfl
  rw [hLines, List.range_succ, List.map_append,
    List.foldlM_append, compile_lines mode st before (by omega)]
  change compileItem ⟨mode, _, before⟩
    (.line (.access st _)) >>= some = _
  simp only [compileItem]
  rw [if_neg (by simp), if_pos hLines.symm]
  rfl

/- The code of a statement. -/
def Statement.code (mode : SetNip) : Statement → Code
  | .simple i => .instr mode i
  | .loadStore st =>
      if st.src.length = 1 then .instr mode st.simple
      else .access st

theorem compiles_statement
    (mode : SetNip)
    (st : Statement) :
    Compiles (some mode) ((printStatement st).map .line)
      (some mode) [st.code mode] := by
  cases st with
  | simple i => exact compiles_instr mode i
  | loadStore st =>
      unfold printStatement Statement.code
      simp only
      split
      · exact compiles_instr mode st.simple
      · rw [List.map_map]
        exact compiles_access (some mode) st

theorem compiles_statements
    (mode : SetNip)
    (statements : List Statement) :
    Compiles (some mode)
      ((statements.flatMap printStatement).map .line)
      (some mode) (statements.map (Statement.code mode)) := by
  rw [List.map_flatMap, ← List.flatMap_singleton' (statements.map _),
    List.flatMap_map]
  exact Compiles.flatMap (fun st _ => compiles_statement mode st)

/- The statement of a single instruction is its macro. -/
theorem printStatement_transform (i : SimpleInstruction) :
    printStatement (transform i) = [.instr i] := by
  rcases transform_eq i with
    ⟨hSimple, -⟩ | ⟨st, hAccess, hPlain, rfl⟩
  · rw [hSimple]
    rfl
  · rw [hAccess]
    unfold printStatement
    simp only
    rw [if_pos (by rw [hPlain.src]; rfl)]

theorem code_transform
    (mode : SetNip)
    (i : SimpleInstruction) :
    (transform i).code mode = .instr mode i := by
  rcases transform_eq i with
    ⟨hSimple, -⟩ | ⟨st, hAccess, hPlain, rfl⟩
  · rw [hSimple]
    rfl
  · rw [hAccess]
    unfold Statement.code
    simp only
    rw [if_pos (by rw [hPlain.src]; rfl)]

------------------------------------------------------------
-- Compilation of Blocks
------------------------------------------------------------

/- `SET_NIP` in a block one of whose targets leads out. -/
def blockMode (target : Option Ps3Uintptr) : SetNip :=
  if target.isSome then .indirect else .initial

/- What follows the last instruction of a block. -/
def trailing (fallthrough : Ps3Uintptr) : List Code :=
  if fallthrough ≠ 0#32 then [.indirect fallthrough] else []

theorem compiles_withTarget
    (target : Option Ps3Uintptr)
    (statements : List Statement) :
    Compiles (some .initial)
      ((withTarget target
        (statements.flatMap printStatement)).map .line)
      (some .initial)
      (statements.map
        (Statement.code (blockMode target))) := by
  cases target with
  | none => exact compiles_statements .initial statements
  | some va =>
      unfold withTarget
      simp only
      rw [List.map_append, List.map_append]
      have hBefore :
          Compiles (some .initial)
            ([Line.comment va, .undef, .define .indirect].map
              Item.line) (some .indirect) [] := by
        intro before
        rw [List.append_nil]
        rfl
      have hAfter :
          Compiles (some .indirect)
            ([Line.undef, .define .initial].map Item.line)
            (some .initial) [] := by
        intro before
        rw [List.append_nil]
        rfl
      have hBody := compiles_statements .indirect statements
      have hAll := (hBefore.append hBody).append hAfter
      rw [List.nil_append, List.append_nil] at hAll
      exact hAll

theorem compiles_body
    (target : Option Ps3Uintptr)
    (fallthrough : Ps3Uintptr)
    (statements : List Statement) :
    Compiles (some .initial)
      ((withFallthrough fallthrough
        (withTarget target
          (statements.flatMap printStatement))).map .line)
      (some .initial)
      (statements.map (Statement.code (blockMode target)) ++
        trailing fallthrough) := by
  have hBody := compiles_withTarget target statements
  unfold withFallthrough trailing
  by_cases hZero : fallthrough ≠ 0#32
  · rw [if_pos hZero, if_pos hZero, List.map_append]
    have hRemark :
        Compiles (some .initial)
          [.line (.comment fallthrough)] (some .initial)
          [] := by
      intro before
      rw [List.append_nil]
      rfl
    have hLast :
        Compiles (some .initial)
          [.line (.indirect fallthrough)] (some .initial)
          [.indirect fallthrough] :=
      fun _ => rfl
    exact (hRemark.append hBody).append hLast
  · rw [if_neg hZero, if_neg hZero, List.append_nil]
    exact hBody

------------------------------------------------------------
-- Compilation of a Part
------------------------------------------------------------

section Part

variable (load32 : Ps3Uintptr → BitVec 32) (part : List BasicBlock)

/- Where a block leads out of the part. -/
def outOfPart (b : BasicBlock) : Option Ps3Uintptr × Ps3Uintptr :=
  outOfPartTargets b part (analyzeFunc load32)

/- `SET_NIP` at the last instruction of a block. -/
def lastMode (b : BasicBlock) : SetNip :=
  blockMode (outOfPart load32 part b).1

/- The code behind the last instruction of a block. -/
def lastTrailing (b : BasicBlock) : List Code :=
  trailing (outOfPart load32 part b).2

/- The code of the statements before the last one. -/
def frontCode (b : BasicBlock) : List Code :=
  (optimized load32 b).dropLast.map (Statement.code .initial)

/- The code of a block in the function of its part. -/
def blockTail (b : BasicBlock) : List Code :=
  if shouldExtract (emitBlock load32 part b) then
    .call b.start ::
      (optimized load32 b).getLast?.toList.map
        (Statement.code .initial)
  else
    (optimized load32 b).map
        (Statement.code (lastMode load32 part b)) ++
      lastTrailing load32 part b

def blockCode (b : BasicBlock) : List Code :=
  .label b.start :: blockTail load32 part b

/- The blocks that become functions. -/
def extracted : List BasicBlock :=
  part.filter
    (fun b => shouldExtract (emitBlock load32 part b))

def partProgram : Program where
  blocks := part.map (fun b => (b.start, b.len))
  functions :=
    (extracted load32 part).map
      (fun b => (b.start, frontCode load32 b))
  labels := part.map BasicBlock.start
  body := part.flatMap (blockCode load32 part)

variable {load32 part}

theorem emitBlock_body (b : BasicBlock) :
    (emitBlock load32 part b).body =
      withFallthrough (outOfPart load32 part b).2
        (withTarget (outOfPart load32 part b).1
          ((optimized load32 b).flatMap printStatement)) :=
  rfl

variable {b : BasicBlock}

section

variable (hExtract : shouldExtract (emitBlock load32 part b) = true)

include hExtract

/- A block that leads out of the part is not extracted. -/
theorem outOfPart_of_shouldExtract :
    outOfPart load32 part b = (none, 0#32) := by
  unfold shouldExtract at hExtract
  have hExtractable := (Bool.and_eq_true_iff.mp hExtract).1
  rcases Bool.and_eq_true_iff.mp hExtractable with
    ⟨hTarget, hFallthrough⟩
  exact
    Prod.ext (Option.isNone_iff_eq_none.mp hTarget)
      (beq_iff_eq.mp hFallthrough)

theorem lastMode_of_shouldExtract :
    lastMode load32 part b = .initial ∧
      lastTrailing load32 part b = [] := by
  unfold lastMode lastTrailing
  rw [outOfPart_of_shouldExtract hExtract]
  exact ⟨rfl, if_neg (fun hNe => hNe rfl)⟩

theorem body_of_shouldExtract :
    (emitBlock load32 part b).body =
      (optimized load32 b).flatMap printStatement := by
  rw [emitBlock_body, outOfPart_of_shouldExtract hExtract]
  exact if_neg (fun hNe => hNe rfl)

end

/- The last line is the macro of the last instruction. -/
theorem body_of_ends
    {instrs : List SimpleInstruction}
    {last : SimpleInstruction}
    (hEnds : Ends instrs last (optimized load32 b))
    (hExtract :
      shouldExtract (emitBlock load32 part b) =
        true) :
    (emitBlock load32 part b).body =
      (optimized load32 b).dropLast.flatMap printStatement ++
        [.instr last] := by
  rcases hEnds with ⟨front, hEq, -⟩
  rw [body_of_shouldExtract hExtract, hEq,
    List.dropLast_concat, List.flatMap_append,
    List.flatMap_singleton, printStatement_transform]

theorem compiles_block
    {instrs : List SimpleInstruction}
    {last : SimpleInstruction}
    (hEnds : Ends instrs last (optimized load32 b)) :
    Compiles (some .initial)
      (blockItems (emitBlock load32 part b))
      (some .initial) (blockCode load32 part b) := by
  have hLabel :
      Compiles (some .initial)
        [.label (emitBlock load32 part b).label]
        (some .initial) [.label b.start] :=
    fun _ => rfl
  unfold blockItems blockCode blockTail
  cases hExtract :
      shouldExtract (emitBlock load32 part b) with
  | true =>
      have hCall :
          Compiles (some .initial)
            [.call (emitBlock load32 part b).label]
            (some .initial) [.call b.start] :=
        fun _ => rfl
      have hLast :
          (optimized load32 b).getLast?.toList.map
            (Statement.code .initial) =
              [.instr .initial last] := by
        rcases hEnds with ⟨front, hEq, -⟩
        rw [hEq, List.getLast?_concat]
        exact congrArg (fun c => [c]) (code_transform _ last)
      rw [if_pos rfl, if_pos rfl, hLast,
        body_of_ends hEnds hExtract, List.getLast?_concat]
      exact
        hLabel.cons (hCall.cons (compiles_instr .initial last))
  | false =>
      rw [if_neg Bool.false_ne_true,
        if_neg Bool.false_ne_true]
      rw [emitBlock_body]
      exact
        hLabel.cons
          (compiles_body (outOfPart load32 part b).1
            (outOfPart load32 part b).2
            (optimized load32 b))

theorem compile_functions
    {blocks : List BasicBlock}
    (hEnds :
      ∀ b ∈ blocks, ∃ instrs last,
        Ends instrs last (optimized load32 b))
    (hExtract :
      ∀ b ∈ blocks,
        shouldExtract (emitBlock load32 part b) =
          true) :
    compileFunctions (some .initial)
        (blocks.map (fun b =>
          (b.start,
            (emitBlock load32 part b).body.dropLast))) =
      some (some .initial,
        blocks.map (fun b => (b.start, frontCode load32 b))) := by
  induction blocks with
  | nil => rfl
  | cons b rest ih =>
      rcases hEnds b List.mem_cons_self with
        ⟨instrs, last, hLast⟩
      have hRest :=
        ih (fun c hc => hEnds c (List.mem_cons_of_mem _ hc))
          (fun c hc => hExtract c (List.mem_cons_of_mem _ hc))
      have hFront :=
        (compiles_statements .initial
          (optimized load32 b).dropLast).items
      rw [List.map_cons, compileFunctions,
        body_of_ends hLast (hExtract b List.mem_cons_self),
        List.dropLast_concat, hFront]
      change
        (compileFunctions (some .initial) _).bind _ = _
      rw [hRest]
      rfl

theorem compile_part
    (n : Nat)
    (hEnds :
      ∀ b ∈ part, ∃ instrs last,
        Ends instrs last (optimized load32 b))
    (hLinked : Linked (partProgram load32 part)) :
    compile
        (printSegment
          ⟨n, part.map (emitBlock load32 part)⟩) =
      some (partProgram load32 part) := by
  have hFunctions :=
    @compile_functions load32 part
      (extracted load32 part)
      (fun b hb => hEnds b (List.mem_filter.mp hb).1)
      (fun b hb => (List.mem_filter.mp hb).2)
  have hBody :
      Compiles (some .initial)
        (part.flatMap (fun b =>
          blockItems (emitBlock load32 part b)))
        (some .initial)
        (part.flatMap (blockCode load32 part)) := by
    apply Compiles.flatMap
    intro b hb
    rcases hEnds b hb with ⟨instrs, last, hLast⟩
    exact compiles_block hLast
  have hFilter :
      ((part.map (emitBlock load32 part)).filter
          shouldExtract).map
          (fun b => (b.label, b.body.dropLast)) =
        (extracted load32 part).map (fun b =>
          (b.start,
            (emitBlock load32 part b).body.dropLast)) := by
    rw [List.filter_map, List.map_map]
    rfl
  unfold compile printSegment
  simp only
  rw [hFilter, hFunctions]
  simp only [Option.bind_eq_bind, Option.bind_some]
  rw [List.flatMap_map, hBody.items]
  simp only [Option.bind_some, List.map_map]
  exact if_pos hLinked

end Part

end Rewriter

end Ps3emu
