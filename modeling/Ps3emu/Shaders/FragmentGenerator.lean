import Ps3emu.Shaders.FragmentProgram
import Ps3emu.Shaders.FragmentStatement
import Ps3emu.Shaders.IfStubs

/-
  The generation of a fragment shader, which walks through
  the program a third time and counts its constants.

  Key definitions include:
    * `generateStep`, `generateStatements`
    * `FragmentShaderText`, `GeneratesFragmentShader`
    * `IsFragmentProgram`, `WalksAgree`

  Key theorems include:
    * `mem_variablesOf_fixIfStubs`
    * `generateStatements_iff`
    * `walksAgree_iff`
-/

------------------------------------------------------------
-- The Generator
------------------------------------------------------------

namespace Ps3emu

namespace Shaders

open Cursor (Item Walk)

/-
  `InfoCollectorVisitor`: the greatest index that a register
  file of a name is used with, or `-1`.
-/
def lastRegisterUsed (name : String) (st : Statement) : Int :=
  st.variables.foldl (fun last x =>
    match x.2 with
    | (other, some (.integerLiteral num)) =>
        if other = name then max last num else last
    | _ => last) (-1)

structure Generator where
  sts : List Statement
  lastRReg : Int
  lastHReg : Int
  constIndex : Nat

/- The statements of one instruction, and the next index. -/
def generateStep
    (g : Generator)
    (pos : Nat)
    (r : FragmentInstr × Nat) : Option Generator :=
  (makeFragmentStatement r.1 g.constIndex).map (fun sts =>
    { sts :=
        g.sts ++ sts.map (Statement.setAddress (16 * pos))
      lastRReg :=
        sts.foldl (fun last st =>
          max last (lastRegisterUsed "r" st)) g.lastRReg
      lastHReg :=
        sts.foldl (fun last st =>
          max last (lastRegisterUsed "h" st)) g.lastHReg
      constIndex :=
        if r.2 = 2 then g.constIndex + 1 else g.constIndex })

/- The loop of `GenerateFragmentShader`. -/
def generateStatements (bytecode : List Slot) :
    Option (Generator × Nat) :=
  Cursor.loop (dasmItem bytecode) bytecode.length generateStep
    bytecode.length 0 ⟨[], 0, 0, 0⟩

/- What the text of a fragment shader is printed from. -/
structure FragmentShaderText where
  statements : List Statement
  lastRReg : Int
  lastHReg : Int
  constIndex : Nat
  samplerSizes : Fin 16 → Nat
  isFlatColorShading : Bool
  isMrt : Bool

/-
  `GenerateFragmentShader` prints this text, after the stubs
  of its IFs were rewritten.
-/
def GeneratesFragmentShader
    (bytecode : List Slot)
    (samplerSizes : Fin 16 → Nat)
    (isFlatColorShading isMrt : Bool)
    (text : FragmentShaderText) : Prop :=
  ∃ g stop statements,
    generateStatements bytecode = some (g, stop) ∧
      IfStubs.Rewrites g.sts statements ∧
      text =
        { statements
          lastRReg := g.lastRReg
          lastHReg := g.lastHReg
          constIndex := g.constIndex
          samplerSizes
          isFlatColorShading
          isMrt }

------------------------------------------------------------
-- Agreement of the Walks
------------------------------------------------------------

open Cursor (Item Walk)

/- The instructions of a program, each with its position. -/
abbrev Instrs := List (Nat × Item (FragmentInstr × Nat))

/-
  A program of at most 512 slots, given with the instructions
  that `fragment_dasm_instr` meets up to and including the
  last one, and with the slots that they take.
-/
structure IsFragmentProgram
    (p : List Slot)
    (instrs : Instrs)
    (length : Nat) : Prop where
  fits : p.length ≤ fragmentProgramSlots
  walk : Walk (dasmItem p) p.length 0 instrs length
  ends : ∃ x ∈ instrs, x.2.isLast = true

/- The instructions that have a constant, in program order. -/
def constInstrs (instrs : Instrs) : Instrs :=
  instrs.filter (fun x => isConst x.2.value)

/- Whether a slot holds the constant of an instruction. -/
def IsConstSlot (instrs : Instrs) (j : Nat) : Prop :=
  ∃ x ∈ constInstrs instrs, j = x.1 + 1

/- Two programs that differ only in embedded constants. -/
structure SameButConstants
    (instrs : Instrs)
    (p q : List Slot) : Prop where
  length : q.length = p.length
  slots : ∀ j, ¬ IsConstSlot instrs j → q[j]? = p[j]?

/-
  What the three walks have to agree on: the map of constants
  and the length, the extracted constants and the code that is
  left, and the constants that the shader reads: the `k`-th
  instruction with a constant is given the index `k`, and
  nothing else reads `fconst.c[k]`.
-/
structure WalksAgree
    {H : Type}
    (xxh64 : List Slot → H)
    (p : List Slot)
    (instrs : Instrs) : Prop where
  info :
    ∃ info,
      getFragmentBytecodeInfo p = some info ∧
        info.length = (instrs.map (fun x => x.2.size)).sum ∧
        ∀ j, info.constMap j = true ↔ IsConstSlot instrs j
  unzips :
    ∀ (fconst : List Slot) (mrt : Bool),
      fconst.length = fragmentProgramSlots / 2 →
      ∃ u key,
        unzip xxh64 p fconst mrt = some (u, key) ∧
          (∀ (k : Nat) x, (constInstrs instrs)[k]? = some x →
            ∃ s,
              p[x.1 + 1]? = some s ∧
                u.fconst[k]? = some (readFragmentImmVal s)) ∧
          (∀ j, IsConstSlot instrs j →
            u.slots[j]? = some Slot.zero) ∧
          ∀ j, ¬ IsConstSlot instrs j → u.slots[j]? = p[j]?
  indices :
    ∀ g stop, generateStatements p = some (g, stop) →
      ∀ (k : Nat) x, (constInstrs instrs)[k]? = some x →
        ∃ sts,
          makeFragmentStatement x.2.value.1 k = some sts ∧
            ∀ st ∈ sts, st.setAddress (16 * x.1) ∈ g.sts
  reads :
    ∀ sizes flat isMrt text,
      GeneratesFragmentShader p sizes flat isMrt text →
      ∀ v ∈ variablesOf text.statements,
        v.2.1 = "fconst.c" →
        ∃ (k : Nat) (x : Nat × Item (FragmentInstr × Nat)),
          (constInstrs instrs)[k]? = some x ∧
            v.1 = 16 * x.1 ∧
            v.2.2 = some (.integerLiteral k)
  sameKey :
    ∀ q, SameButConstants instrs p q →
      ∀ (fconst fconst' : List Slot) mrt,
        fconst.length = fragmentProgramSlots / 2 →
        fconst'.length = fragmentProgramSlots / 2 →
        ∃ u u' key,
          unzip xxh64 p fconst mrt = some (u, key) ∧
            unzip xxh64 q fconst' mrt = some (u', key) ∧
            u'.slots = u.slots
  sameText :
    ∀ q, SameButConstants instrs p q →
      ∀ sizes flat isMrt text,
        GeneratesFragmentShader q sizes flat isMrt text ↔
          GeneratesFragmentShader p sizes flat isMrt text

------------------------------------------------------------
-- Statements and their Constants
------------------------------------------------------------

open Cursor (Item Walk)

variable {fuel : Nat} {sts res : List Statement} {v : Nat × Var}

theorem mem_variablesOf_iff :
    v ∈ variablesOf sts ↔ ∃ st ∈ sts, v ∈ st.variables := by
  induction sts with
  | nil => simp [variablesOf]
  | cons st rest ih => simp [variablesOf, ih]

theorem mem_variablesOf_of_subset
    {sub : List Statement}
    (hSub : sub ⊆ sts)
    (hv : v ∈ variablesOf sub) :
    v ∈ variablesOf sts := by
  rcases mem_variablesOf_iff.mp hv with ⟨st, hSt, hMem⟩
  exact mem_variablesOf_iff.mpr ⟨st, hSub hSt, hMem⟩

/- Moving statements into the blocks of an IF adds nothing. -/
theorem mem_variablesOf_fixFirstIfStub
    {fix :
      List Statement →
        Except IfStubs.Failure (List Statement)}
    (hFix :
      ∀ {sts res : List Statement},
        fix sts = .ok res →
          v ∈ variablesOf res → v ∈ variablesOf sts)
    (hCall : IfStubs.fixFirstIfStub fix sts = .ok (some res))
    (hv : v ∈ variablesOf res) :
    v ∈ variablesOf sts := by
  dsimp only [IfStubs.fixFirstIfStub] at hCall
  split at hCall
  case h_2 => cases hCall
  case h_1 address condition elseLabel endifLabel _ old hGet =>
    split at hCall
    case isTrue => cases hCall
    case isFalse =>
      split at hCall
      case isTrue => cases hCall
      case isFalse =>
        split at hCall
        case isTrue => cases hCall
        case isFalse =>
          split at hCall
          case h_1 => cases hCall
          case h_2 => cases hCall
          case h_3 trueBlock falseBlock hTrue hFalse =>
            obtain rfl :=
              Option.some.inj (Except.ok.inj hCall)
            rw [variablesOf_append, List.mem_append] at hv
            rcases hv with hBefore | hRest
            · exact
                mem_variablesOf_of_subset
                  (List.take_subset _ _) hBefore
            rw [variablesOf, List.mem_append] at hRest
            rcases hRest with hStub | hAfter
            · rw [Statement.variables, List.mem_append,
                List.mem_append] at hStub
              rcases hStub with (hCond | hInTrue) | hInFalse
              · apply mem_variablesOf_iff.mpr
                refine ⟨_, List.mem_of_getElem? hGet, ?_⟩
                rw [Statement.variables, List.mem_append,
                  List.mem_append]
                exact .inl (.inl hCond)
              · exact
                  mem_variablesOf_of_subset
                    (fun _ h =>
                      List.take_subset _ _
                        (List.drop_subset _ _ h))
                    (hFix hTrue hInTrue)
              · exact
                  mem_variablesOf_of_subset
                    (fun _ h =>
                      List.take_subset _ _
                        (List.drop_subset _ _ h))
                    (hFix hFalse hInFalse)
            · exact
                mem_variablesOf_of_subset
                  (List.drop_subset _ _) hAfter

/- By induction on the loops of the rewriting. -/
theorem mem_variablesOf_fixIfStubs
    (hFix : IfStubs.fixIfStubs fuel sts = .ok res)
    (hv : v ∈ variablesOf res) :
    v ∈ variablesOf sts := by
  induction fuel generalizing sts res with
  | zero => cases hFix
  | succ fuel ih =>
      rw [IfStubs.fixIfStubs] at hFix
      split at hFix
      case h_1 => cases hFix
      case h_2 =>
        obtain rfl := Except.ok.inj hFix
        exact hv
      case h_3 rest hCall =>
        exact
          mem_variablesOf_fixFirstIfStub ih hCall (ih hFix hv)

------------------------------------------------------------
-- A Run of the Generator
------------------------------------------------------------

variable {p : List Slot} {limit pos stop length : Nat} {instrs : Instrs}
variable {g g' : Generator}

/- An argument that is a constant makes an instruction longer. -/
theorem isConst_of_argument
    {instr : Slot}
    {next : Option Slot}
    {r : FragmentInstr × Nat}
    {n : Nat}
    {a : FragmentArgument}
    (hDasm : fragmentDasmInstr instr next = some r)
    (hGet : r.1.arguments[n]? = some a)
    (hType : a.type = .Const) :
    isConst r = true := by
  rcases Option.bind_eq_some_iff.mp hDasm with
    ⟨opcode, hOpcode, hRest⟩
  rcases Option.map_eq_some_iff.mp hRest with
    ⟨arguments, hArguments, rfl⟩
  rcases exists_of_mapM hArguments hGet with ⟨m, hm, hArg⟩
  have hConst :
      (FragmentWords.ofSlot instr).opType m = .Const := by
    rw [fragmentArgument] at hArg
    split at hArg
    case isTrue h => exact h
    case isFalse =>
      obtain rfl := Option.some.inj hArg
      exact hType
  have hHas :
      (FragmentWords.ofSlot instr).hasConst opcode = true := by
    rw [FragmentWords.hasConst, List.any_eq_true]
    exact ⟨m, hm, beq_iff_eq.mpr hConst⟩
  simp [isConst, hHas]

variable {x : Nat × Item (FragmentInstr × Nat)}

/- What a walk has decoded at each of its positions. -/
theorem exists_dasm_of_mem
    (hWalk : Walk (dasmItem p) limit pos instrs stop)
    (hMem : x ∈ instrs) :
    ∃ instr,
      p[x.1]? = some instr ∧
        fragmentDasmInstr instr p[x.1 + 1]? =
          some x.2.value := by
  rcases Option.bind_eq_some_iff.mp
      (hWalk.item_of_mem hMem).2 with
    ⟨instr, hInstr, hRest⟩
  rcases Option.map_eq_some_iff.mp hRest with ⟨r, hDasm, hx⟩
  refine ⟨instr, hInstr, ?_⟩
  rw [hDasm, ← hx]

theorem constInstrs_cons
    (x : Nat × Item (FragmentInstr × Nat))
    (rest : Instrs) :
    constInstrs (x :: rest) =
      if isConst x.2.value then x :: constInstrs rest
      else constInstrs rest := by
  rw [constInstrs, List.filter_cons]
  rfl

/- The walk through a program continues with its next index. -/
theorem getElem?_constInstrs_cons
    {x y : Nat × Item (FragmentInstr × Nat)}
    {rest : Instrs}
    {c k : Nat}
    (hGet : (constInstrs rest)[k]? = some y) :
    ∃ k',
      (constInstrs (x :: rest))[k']? = some y ∧
        (if x.2.value.2 = 2 then c + 1 else c) + k =
          c + k' := by
  rw [constInstrs_cons]
  by_cases hSize : x.2.value.2 = 2
  · have hConst : isConst x.2.value = true :=
      decide_eq_true hSize
    rw [if_pos hSize, if_pos hConst]
    exact ⟨k + 1, hGet, by omega⟩
  · have hConst : ¬ isConst x.2.value = true := by
      simpa [isConst] using hSize
    rw [if_neg hSize, if_neg hConst]
    exact ⟨k, hGet, rfl⟩

/-
  What a run reads of the constants.  An instruction is given
  the number of the instructions with a constant before it.
-/
theorem reads_of_runItems
    (hDecoded :
      ∀ x ∈ instrs, ∃ instr next,
        fragmentDasmInstr instr next = some x.2.value)
    (hRun :
      Cursor.runItems generateStep instrs g = some g')
    {v : Nat × Var}
    (hv : v ∈ variablesOf g'.sts)
    (hName : v.2.1 = "fconst.c") :
    v ∈ variablesOf g.sts ∨
      ∃ (k : Nat) (x : Nat × Item (FragmentInstr × Nat)),
        (constInstrs instrs)[k]? = some x ∧
          v.1 = 16 * x.1 ∧
          v.2.2 =
            some (.integerLiteral (g.constIndex + k : Nat)) := by
  induction instrs generalizing g with
  | nil =>
      obtain rfl := Option.some.inj hRun
      exact .inl hv
  | cons x rest ih =>
      rcases Option.bind_eq_some_iff.mp hRun with
        ⟨g₁, hStep, hRest⟩
      rcases Option.map_eq_some_iff.mp hStep with
        ⟨sts, hSts, rfl⟩
      rcases ih (fun y hy => hDecoded y (by simp [hy])) hRest with
        hHere | ⟨k, y, hGet, hAddress, hIndex⟩
      · rw [variablesOf_append, List.mem_append] at hHere
        rcases hHere with hOld | hNew
        · exact .inl hOld
        · rcases variables_makeFragmentStatement hSts hNew hName
            with ⟨rfl, n, a, hArg, hType⟩
          rcases hDecoded x (by simp) with
            ⟨instr, next, hDasm⟩
          refine .inr ⟨0, x, ?_, rfl, rfl⟩
          rw [constInstrs_cons,
            if_pos (isConst_of_argument hDasm hArg hType)]
          rfl
      · rcases getElem?_constInstrs_cons
            (c := g.constIndex) hGet with ⟨k', hGet', hEq⟩
        refine .inr ⟨k', y, hGet', hAddress, ?_⟩
        rw [hIndex]
        exact congrArg (fun n : Nat =>
          some (Expression.integerLiteral n)) hEq

theorem sts_subset_of_runItems
    (hRun :
      Cursor.runItems generateStep instrs g = some g') :
    g.sts ⊆ g'.sts := by
  induction instrs generalizing g with
  | nil =>
      obtain rfl := Option.some.inj hRun
      exact List.Subset.refl _
  | cons x rest ih =>
      rcases Option.bind_eq_some_iff.mp hRun with
        ⟨g₁, hStep, hRest⟩
      rcases Option.map_eq_some_iff.mp hStep with
        ⟨sts, hSts, rfl⟩
      exact
        List.Subset.trans (List.subset_append_left _ _)
          (ih hRest)

/- The index that an instruction with a constant is given. -/
theorem indices_of_runItems
    (hRun :
      Cursor.runItems generateStep instrs g = some g')
    {k : Nat}
    {x : Nat × Item (FragmentInstr × Nat)}
    (hGet : (constInstrs instrs)[k]? = some x) :
    ∃ sts,
      makeFragmentStatement x.2.value.1 (g.constIndex + k) =
          some sts ∧
        ∀ st ∈ sts, st.setAddress (16 * x.1) ∈ g'.sts := by
  induction instrs generalizing g k with
  | nil => cases hGet
  | cons y rest ih =>
      rcases Option.bind_eq_some_iff.mp hRun with
        ⟨g₁, hStep, hRest⟩
      rcases Option.map_eq_some_iff.mp hStep with
        ⟨sts, hSts, rfl⟩
      rw [constInstrs_cons] at hGet
      split at hGet
      case isFalse hNot =>
        rcases ih hRest hGet with ⟨sts', hSts', hMem⟩
        have hSize : ¬ y.2.value.2 = 2 := by
          simpa [isConst] using hNot
        rw [if_neg hSize] at hSts'
        exact ⟨sts', hSts', hMem⟩
      case isTrue hConst =>
        cases k with
        | zero =>
            obtain rfl := Option.some.inj hGet
            refine ⟨sts, hSts, fun st hMem => ?_⟩
            apply sts_subset_of_runItems hRest
            exact
              List.mem_append_right _
                (List.mem_map_of_mem hMem)
        | succ k =>
            rcases ih hRest hGet with ⟨sts', hSts', hMem⟩
            have hSize : y.2.value.2 = 2 :=
              of_decide_eq_true hConst
            rw [if_pos hSize] at hSts'
            refine ⟨sts', ?_, hMem⟩
            rw [← hSts', Nat.add_right_comm g.constIndex 1 k]
            rfl

------------------------------------------------------------
-- The Walks of a Program
------------------------------------------------------------

/- The instructions of a program, as the scan sees them. -/
def scanned (instrs : Instrs) : List (Nat × Item Bool) :=
  instrs.map (fun x => (x.1, x.2.map isConst))

theorem constSlots_scanned (instrs : Instrs) :
    constSlots (scanned instrs) =
      (constInstrs instrs).map (fun x => x.1 + 1) := by
  induction instrs with
  | nil => rfl
  | cons x rest ih =>
      have hHead :
          scanned (x :: rest) =
            (x.1, x.2.map isConst) :: scanned rest := rfl
      rw [hHead, constSlots_cons, constInstrs_cons, ih]
      by_cases hConst : isConst x.2.value = true
      · simp [Item.map, hConst]
      · simp [Item.map, hConst]

theorem mem_constSlots_scanned (j : Nat) :
    j ∈ constSlots (scanned instrs) ↔
      IsConstSlot instrs j := by
  rw [constSlots_scanned, List.mem_map]
  constructor
  · rintro ⟨x, hx, rfl⟩
    exact ⟨x, hx, rfl⟩
  · rintro ⟨x, hx, rfl⟩
    exact ⟨x, hx, rfl⟩

theorem length_le_of_program
    (hProgram : IsFragmentProgram p instrs length) :
    length ≤ p.length := by
  have hStop :
      ∀ {pos stop : Nat} {instrs : Instrs},
        Walk (dasmItem p) p.length pos instrs stop →
        pos ≤ p.length → stop ≤ p.length := by
    intro pos stop instrs hWalk hPos
    induction hWalk with
    | done => exact hPos
    | last _ hItem => exact dasmItem_le hItem
    | more _ hItem _ _ ih => exact ih (dasmItem_le hItem)
  exact hStop hProgram.walk (Nat.zero_le _)

theorem scanWalk_of_program
    (hProgram : IsFragmentProgram p instrs length) :
    Walk (scanItem p) fragmentProgramSlots 0
      (scanned instrs) length := by
  have hWide :=
    hProgram.walk.widen hProgram.ends hProgram.fits
  exact scanWalk_of_dasmWalk hWide

/- The bit past the last slot does not exist. -/
theorem mapped_scanned :
    Mapped (scanned instrs) ↔
      ∀ x ∈ instrs, x.1 + 1 < fragmentProgramSlots := by
  rw [Mapped, scanned, List.forall_mem_map]

theorem getFragmentBytecodeInfo_of_program
    (hProgram : IsFragmentProgram p instrs length)
    (info : FragmentProgramInfo) :
    getFragmentBytecodeInfo p = some info ↔
      Mapped (scanned instrs) ∧
        info.length = length ∧
        info.constMap =
          fun j => decide (j ∈ constSlots (scanned instrs)) := by
  have hScan := scanWalk_of_program hProgram
  rw [getFragmentBytecodeInfo_iff]
  constructor
  · rintro ⟨items, hWalk, hMapped, hMap⟩
    rcases hScan.unique hWalk with ⟨rfl, hStop⟩
    exact ⟨hMapped, hStop.symm, hMap⟩
  · rintro ⟨hMapped, rfl, hMap⟩
    exact ⟨_, hScan, hMapped, hMap⟩

theorem generateStatements_of_program
    (hProgram : IsFragmentProgram p instrs length)
    (g : Generator) :
    generateStatements p = some (g, stop) ↔
      stop = length ∧
        Cursor.runItems generateStep instrs ⟨[], 0, 0, 0⟩ =
          some g := by
  rw [generateStatements,
    Cursor.loop_iff _ (dasmItem_size_pos p) _ _ _ _ _
      (Nat.le_add_left _ _)]
  constructor
  · rintro ⟨items, hWalk, hRun⟩
    rcases hProgram.walk.unique hWalk with ⟨rfl, rfl⟩
    exact ⟨rfl, hRun⟩
  · rintro ⟨rfl, hRun⟩
    exact ⟨instrs, hProgram.walk, hRun⟩

------------------------------------------------------------
-- Other Constants
------------------------------------------------------------

variable {q : List Slot}

/- What is decoded, without the values of constants. -/
def erase (r : FragmentInstr × Nat) : FragmentInstr × Nat :=
  (r.1.erased, r.2)

def eraseAll (instrs : Instrs) : Instrs :=
  instrs.map (fun x => (x.1, x.2.map erase))

theorem scanned_eraseAll (instrs : Instrs) :
    scanned (eraseAll instrs) = scanned instrs := by
  rw [scanned, eraseAll, List.map_map]
  rfl

/- No instruction stands in the slot of a constant. -/
theorem not_isConstSlot
    (hProgram : IsFragmentProgram p instrs length)
    (hMem : x ∈ instrs) :
    ¬ IsConstSlot instrs x.1 := by
  rw [← mem_constSlots_scanned]
  exact
    not_mem_constSlots (scanWalk_of_program hProgram)
      (List.mem_map_of_mem
        (f := fun x => (x.1, x.2.map isConst)) hMem)

/- Other constants are decoded to the same instructions. -/
theorem exists_program_of_same
    (hProgram : IsFragmentProgram p instrs length)
    (hSame : SameButConstants instrs p q) :
    ∃ instrs',
      IsFragmentProgram q instrs' length ∧
        eraseAll instrs' = eraseAll instrs := by
  have hWalk :
      Walk (fun pos => (dasmItem q pos).map (Item.map erase))
        p.length 0 (eraseAll instrs) length := by
    apply hProgram.walk.map erase
    intro pos i hMem
    rcases Option.bind_eq_some_iff.mp
        (hProgram.walk.item_of_mem hMem).2 with
      ⟨instr, hInstr, hRest⟩
    rcases Option.map_eq_some_iff.mp hRest with
      ⟨⟨fi, size⟩, hDasm, rfl⟩
    have hSlot : q[pos]? = some instr := by
      rw [hSame.slots pos (not_isConstSlot hProgram hMem),
        hInstr]
    have hNext :
        (q[pos + 1]?).isSome = (p[pos + 1]?).isSome := by
      rw [Bool.eq_iff_iff]
      simp [hSame.length]
    rcases exists_dasm_erased hDasm hNext with
      ⟨fi', hDasm', hErased⟩
    have hLast : fi'.isLast = fi.isLast := by
      rw [← FragmentInstr.isLast_erased fi', hErased,
        FragmentInstr.isLast_erased]
    rw [dasmItem, hSlot, Option.bind_some, hDasm']
    simp [Item.map, erase, hErased, hLast]
  rcases hWalk.exists_of_map with ⟨instrs', hWalk', hEq⟩
  refine ⟨instrs', ⟨?_, ?_, ?_⟩, hEq.symm⟩
  · rw [hSame.length]
    exact hProgram.fits
  · rwa [hSame.length]
  · rcases hProgram.ends with ⟨x, hMem, hLast⟩
    have hErased :
        (x.1, x.2.map erase) ∈
          instrs'.map (fun x => (x.1, x.2.map erase)) := by
      rw [← hEq]
      exact List.mem_map_of_mem hMem
    rcases List.mem_map.mp hErased with ⟨y, hy, hxy⟩
    refine ⟨y, hy, ?_⟩
    have hItem := (Prod.mk.inj hxy).2
    exact (congrArg Item.isLast hItem).trans hLast

theorem generateStep_erase
    (g : Generator)
    (pos : Nat)
    (r : FragmentInstr × Nat) :
    generateStep g pos (erase r) = generateStep g pos r := by
  simp only [generateStep, erase, makeFragmentStatement_erased]
  rfl

theorem runItems_eraseAll
    (instrs : Instrs)
    (g : Generator) :
    Cursor.runItems generateStep (eraseAll instrs) g =
      Cursor.runItems generateStep instrs g := by
  rw [eraseAll, Cursor.runItems_map]
  simp only [generateStep_erase]

/- The generator does the same for other constants. -/
theorem generateStatements_of_same
    (hProgram : IsFragmentProgram p instrs length)
    (hSame : SameButConstants instrs p q) :
    generateStatements q = generateStatements p := by
  rcases exists_program_of_same hProgram hSame with
    ⟨instrs', hProgram', hErased⟩
  have hRun :
      Cursor.runItems generateStep instrs' =
        Cursor.runItems generateStep instrs := by
    funext g
    rw [← runItems_eraseAll, hErased, runItems_eraseAll]
  apply Option.ext
  rintro ⟨g, stop⟩
  rw [generateStatements_of_program hProgram',
    generateStatements_of_program hProgram, hRun]

------------------------------------------------------------
-- Agreement
------------------------------------------------------------

variable {H : Type}

theorem const_lt_length
    (hProgram : IsFragmentProgram p instrs length) :
    ∀ j ∈ constSlots (scanned instrs), j < p.length := by
  intro j hj
  have hBounds :=
    constSlots_bounds (scanWalk_of_program hProgram) hj
  have hLength := length_le_of_program hProgram
  omega

/- What the extraction of constants leaves of a program. -/
theorem unzip_of_program
    (xxh64 : List Slot → H)
    (hProgram : IsFragmentProgram p instrs length)
    (hMapped : Mapped (scanned instrs))
    {fconst : List Slot}
    (hRoom : fconst.length = fragmentProgramSlots / 2)
    (mrt : Bool) :
    unzip xxh64 p fconst mrt =
      some
        ({ slots := cleared p (constSlots (scanned instrs))
           fconst :=
             embedded p (constSlots (scanned instrs)) ++
               fconst.drop (constSlots (scanned instrs)).length
           constCount :=
             (constSlots (scanned instrs)).length },
         { hash :=
             xxh64
               ((cleared p
                 (constSlots (scanned instrs))).take length)
           size := length
           constCount := (constSlots (scanned instrs)).length
           mrt }) := by
  have hScan := scanWalk_of_program hProgram
  apply
    unzip_of_walk xxh64 fconst mrt hScan hMapped
      (const_lt_length hProgram)
  rw [hRoom]
  exact length_constSlots_le hScan hMapped

theorem fconst_of_program
    (hProgram : IsFragmentProgram p instrs length)
    (rest : List Slot)
    {k : Nat}
    (hGet : (constInstrs instrs)[k]? = some x) :
    ∃ s,
      p[x.1 + 1]? = some s ∧
        (embedded p (constSlots (scanned instrs)) ++
            rest)[k]? =
          some (readFragmentImmVal s) := by
  have hIn := const_lt_length hProgram
  have hSlot :
      (constSlots (scanned instrs))[k]? = some (x.1 + 1) := by
    rw [constSlots_scanned, List.getElem?_map, hGet]
    rfl
  have hLess : x.1 + 1 < p.length :=
    hIn _ (List.mem_of_getElem? hSlot)
  have hEmbedded := getElem?_embedded hIn k
  rw [hSlot, Option.bind_some,
    List.getElem?_eq_getElem hLess] at hEmbedded
  refine ⟨p[x.1 + 1], List.getElem?_eq_getElem hLess, ?_⟩
  rw [List.getElem?_append_left]
  · exact hEmbedded
  · exact (List.getElem?_eq_some_iff.mp hEmbedded).1

/- Programs that differ only in constants lose them alike. -/
theorem cleared_of_same
    (hSame : SameButConstants instrs p q) :
    cleared q (constSlots (scanned instrs)) =
      cleared p (constSlots (scanned instrs)) := by
  apply List.ext_getElem?
  intro j
  rw [getElem?_cleared, getElem?_cleared]
  split
  case isFalse hNot =>
    rw [mem_constSlots_scanned] at hNot
    exact hSame.slots j hNot
  case isTrue =>
    by_cases hj : j < p.length
    · have hq : j < q.length := by
        rwa [hSame.length]
      rw [List.getElem?_eq_getElem hj,
        List.getElem?_eq_getElem hq]
      rfl
    · have hq : ¬ j < q.length := by
        rwa [hSame.length]
      rw [List.getElem?_eq_none (Nat.le_of_not_lt hj),
        List.getElem?_eq_none (Nat.le_of_not_lt hq)]

theorem reads_of_program
    (hProgram : IsFragmentProgram p instrs length)
    {sizes : Fin 16 → Nat}
    {flat isMrt : Bool}
    {text : FragmentShaderText}
    (hText : GeneratesFragmentShader p sizes flat isMrt text)
    {v : Nat × Var}
    (hv : v ∈ variablesOf text.statements)
    (hName : v.2.1 = "fconst.c") :
    ∃ (k : Nat) (x : Nat × Item (FragmentInstr × Nat)),
      (constInstrs instrs)[k]? = some x ∧
        v.1 = 16 * x.1 ∧
        v.2.2 = some (.integerLiteral k) := by
  rcases hText with
    ⟨g, stop, statements, hRun, ⟨fuel, hFix⟩, rfl⟩
  have hDecoded :
      ∀ x ∈ instrs, ∃ instr next,
        fragmentDasmInstr instr next = some x.2.value := by
    intro x hMem
    rcases exists_dasm_of_mem hProgram.walk hMem with
      ⟨instr, -, hDasm⟩
    exact ⟨instr, _, hDasm⟩
  have hItems :=
    ((generateStatements_of_program hProgram g).mp hRun).2
  have hMem := mem_variablesOf_fixIfStubs hFix hv
  rcases reads_of_runItems hDecoded hItems hMem hName with
    hNil | ⟨k, x, hGet, hAddress, hIndex⟩
  · cases hNil
  · refine ⟨k, x, hGet, hAddress, ?_⟩
    rw [hIndex, Nat.zero_add]

/-
  The walks agree on exactly the programs that have no
  instruction in the last of the 512 slots: the scan sets the
  bit after every instruction, also after the last one.
-/
theorem walksAgree_iff
    (xxh64 : List Slot → H)
    (hProgram : IsFragmentProgram p instrs length) :
    WalksAgree xxh64 p instrs ↔
      ∀ x ∈ instrs, x.1 + 1 ≠ fragmentProgramSlots := by
  have hInfo := getFragmentBytecodeInfo_of_program hProgram
  constructor
  · intro hAgree x hMem
    rcases hAgree.info with ⟨info, hSome, -⟩
    have hMapped := ((hInfo info).mp hSome).1
    exact Nat.ne_of_lt (mapped_scanned.mp hMapped x hMem)
  · intro hRoom
    have hMapped : Mapped (scanned instrs) := by
      rw [mapped_scanned]
      intro x hMem
      have hLess := (hProgram.walk.item_of_mem hMem).1
      have hFits := hProgram.fits
      have hNe := hRoom x hMem
      omega
    constructor
    case info =>
      refine
        ⟨⟨fun j =>
            decide (j ∈ constSlots (scanned instrs)), length⟩,
          (hInfo _).mpr ⟨hMapped, rfl, rfl⟩, ?_, ?_⟩
      · exact hProgram.walk.stop_eq.trans (Nat.zero_add _)
      · intro j
        rw [decide_eq_true_eq, mem_constSlots_scanned]
    case unzips =>
      intro fconst mrt hBuffer
      refine
        ⟨_, _,
          unzip_of_program xxh64 hProgram hMapped hBuffer mrt,
          ?_, ?_, ?_⟩
      · intro k x hGet
        exact fconst_of_program hProgram _ hGet
      · intro j hj
        rw [← mem_constSlots_scanned] at hj
        rw [getElem?_cleared, if_pos hj,
          List.getElem?_eq_getElem
            (const_lt_length hProgram j hj)]
        rfl
      · intro j hj
        rw [← mem_constSlots_scanned] at hj
        rw [getElem?_cleared, if_neg hj]
    case indices =>
      intro g stop hRun k x hGet
      have hItems :=
        ((generateStatements_of_program hProgram g).mp hRun).2
      have hIndex := indices_of_runItems hItems hGet
      rwa [Nat.zero_add] at hIndex
    case reads =>
      intro sizes flat isMrt text hText v hv hName
      exact reads_of_program hProgram hText hv hName
    case sameKey =>
      intro q hSame fconst fconst' mrt hBuffer hBuffer'
      rcases exists_program_of_same hProgram hSame with
        ⟨instrs', hProgram', hErased⟩
      have hScanned : scanned instrs' = scanned instrs := by
        rw [← scanned_eraseAll, hErased, scanned_eraseAll]
      have hUnzip :=
        unzip_of_program xxh64 hProgram hMapped hBuffer mrt
      have hUnzip' :=
        unzip_of_program xxh64 hProgram'
          (hScanned ▸ hMapped) hBuffer' mrt
      rw [hScanned, cleared_of_same hSame] at hUnzip'
      exact ⟨_, _, _, hUnzip, hUnzip', rfl⟩
    case sameText =>
      intro q hSame sizes flat isMrt text
      rw [GeneratesFragmentShader,
        generateStatements_of_same hProgram hSame]
      rfl

/- A program is what the decoder collects up to its end. -/
theorem exists_isFragmentProgram
    {values : List (Nat × FragmentInstr × Nat)}
    (hFits : p.length ≤ fragmentProgramSlots)
    (hCollect :
      Cursor.collect (dasmItem p) p.length p.length 0 =
        some (values, stop))
    (hEnds : ∃ x ∈ values, x.2.1.isLast = true) :
    ∃ instrs,
      IsFragmentProgram p instrs stop ∧
        values = instrs.map (fun x => (x.1, x.2.value)) := by
  rcases (Cursor.collect_iff (dasmItem_size_pos p) _ _ _ _
      (Nat.le_add_left _ _)).mp hCollect with
    ⟨instrs, hWalk, rfl⟩
  refine ⟨instrs, ⟨hFits, hWalk, ?_⟩, rfl⟩
  rcases hEnds with ⟨y, hy, hLast⟩
  rcases List.mem_map.mp hy with ⟨x, hx, rfl⟩
  refine ⟨x, hx, ?_⟩
  rcases Option.bind_eq_some_iff.mp
      (hWalk.item_of_mem hx).2 with ⟨instr, -, hRest⟩
  rcases Option.map_eq_some_iff.mp hRest with ⟨r, -, hItem⟩
  rw [← hItem] at hLast ⊢
  exact hLast

/- `MOV R0, {constant}`, the last instruction. -/
def movConst : List Slot :=
  [![0, 1, 1, 0, 0, 2, 0, 0, 0, 0, 0, 0, 0, 0, 0, 0],
    fun _ => 1]

theorem walksAgree_iff_movConst :
    ∃ instrs length,
      IsFragmentProgram movConst instrs length ∧
        (constInstrs instrs).length = 1 ∧
        (WalksAgree (fun slots => slots) movConst instrs ↔
          ∀ x ∈ instrs, x.1 + 1 ≠ fragmentProgramSlots) := by
  have hRun :
      (Cursor.collect (dasmItem movConst) movConst.length
          movConst.length 0).any (fun r =>
        r.1.any (fun x => x.2.1.isLast) &&
          (r.1.filter (fun x => isConst x.2)).length == 1) =
        true := by
    decide +kernel
  rcases (Option.any_eq_true _ _).mp hRun with
    ⟨⟨values, stop⟩, hCollect, hRest⟩
  rw [Bool.and_eq_true, List.any_eq_true, beq_iff_eq] at hRest
  rcases exists_isFragmentProgram (by decide) hCollect hRest.1
    with ⟨instrs, hProgram, rfl⟩
  refine ⟨instrs, stop, hProgram, ?_, ?_⟩
  · have hCount := hRest.2
    rw [List.filter_map, List.length_map] at hCount
    exact hCount
  · exact walksAgree_iff _ hProgram

/- A last instruction that does nothing. -/
def lastNop : Slot :=
  ![0, 1, 0, 0, 0, 0, 0, 0, 0, 0, 0, 0, 0, 0, 0, 0]

/- Instructions that do nothing, the last one at the end. -/
def nops (n : Nat) : List Slot :=
  List.replicate n Slot.zero ++ [lastNop]

theorem exists_item_nops
    (n pos : Nat)
    (hLe : pos ≤ n) :
    ∃ i,
      dasmItem (nops n) pos = some i ∧ i.size = 1 ∧
        i.isLast = decide (pos = n) := by
  have hZero :
      fragmentScanInstr Slot.zero = some (false, false) := by
    decide +kernel
  have hLast :
      fragmentScanInstr lastNop = some (false, true) := by
    decide +kernel
  rcases Nat.lt_or_eq_of_le hLe with hLess | rfl
  · have hSlot : (nops n)[pos]? = some Slot.zero := by
      simp [nops, List.getElem?_append, hLess]
    have hNext :
        false = true → (nops n)[pos + 1]?.isSome = true :=
      nofun
    rcases exists_dasm_of_scan hZero hNext with
      ⟨fi, hDasm, hMore⟩
    refine ⟨⟨(fi, 1), 1, fi.isLast⟩, ?_, rfl, ?_⟩
    · rw [dasmItem, hSlot, Option.bind_some, hDasm]
      rfl
    · rw [hMore, decide_eq_false (Nat.ne_of_lt hLess)]
  · have hSlot : (nops pos)[pos]? = some lastNop := by
      simp [nops]
    have hNext :
        false = true → (nops pos)[pos + 1]?.isSome = true :=
      nofun
    rcases exists_dasm_of_scan hLast hNext with
      ⟨fi, hDasm, hEnd⟩
    refine ⟨⟨(fi, 1), 1, fi.isLast⟩, ?_, rfl, ?_⟩
    · rw [dasmItem, hSlot, Option.bind_some, hDasm]
      rfl
    · rw [hEnd, decide_eq_true rfl]

/- By induction on the instructions before the last one. -/
theorem exists_walk_nops
    (n d : Nat)
    (hLe : d ≤ n) :
    ∃ instrs stop i,
      Walk (dasmItem (nops n)) (n + 1) (n - d) instrs stop ∧
        (n, i) ∈ instrs ∧ i.isLast = true := by
  induction d with
  | zero =>
      rcases exists_item_nops n n (Nat.le_refl n) with
        ⟨i, hItem, -, hLast⟩
      rw [decide_eq_true rfl] at hLast
      exact
        ⟨_, _, i, .last (Nat.lt_succ_self n) hItem hLast,
          List.mem_singleton.mpr rfl, hLast⟩
  | succ d ih =>
      rcases ih (by omega) with
        ⟨instrs, stop, i, hWalk, hMem, hLast⟩
      rcases exists_item_nops n (n - (d + 1)) (by omega) with
        ⟨j, hItem, hSize, hMore⟩
      rw [decide_eq_false (by omega)] at hMore
      have hNext : n - (d + 1) + j.size = n - d := by
        omega
      exact
        ⟨_, stop, i, .more (by omega) hItem hMore
          (hNext ▸ hWalk), List.mem_cons_of_mem _ hMem, hLast⟩

theorem full_program_leaves_map :
    ¬ ∀ (H : Type) (xxh64 : List Slot → H)
        (p : List Slot) (instrs : Instrs) (length : Nat),
        IsFragmentProgram p instrs length →
        WalksAgree xxh64 p instrs := by
  intro hAll
  rcases exists_walk_nops 511 511 (Nat.le_refl _) with
    ⟨instrs, stop, i, hWalk, hMem, hLast⟩
  have hLength : (nops 511).length = fragmentProgramSlots := by
    rw [nops, List.length_append, List.length_replicate]
    rfl
  have hProgram : IsFragmentProgram (nops 511) instrs stop :=
    ⟨Nat.le_of_eq hLength, by rwa [hLength], _, hMem, hLast⟩
  rcases (hAll _ (fun slots => slots) _ _ _ hProgram).info with
    ⟨info, hSome, -⟩
  have hMapped :=
    ((getFragmentBytecodeInfo_of_program hProgram info).mp
      hSome).1
  exact
    Nat.lt_irrefl _ (mapped_scanned.mp hMapped _ hMem)

end Shaders

end Ps3emu
