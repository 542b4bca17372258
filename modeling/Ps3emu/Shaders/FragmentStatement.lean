import Ps3emu.Shaders.Rewriter

/-
  The statements that are made from an instruction of a
  fragment program.

  Key definitions include:
    * `convertArgument`
    * `fragmentRhs`, `makeFragmentStatement`

  Key theorems include:
    * `variables_convertArgument`
    * `variables_makeFragmentStatement`
    * `makeFragmentStatement_congr`
-/

------------------------------------------------------------
-- Arguments and Statements
------------------------------------------------------------

namespace Ps3emu

namespace Shaders

/- `print_attr`. -/
def printAttr : InputAttr → String
  | .WPOS => "WPOS"
  | .COL0 => "COL0"
  | .COL1 => "COL1"
  | .FOGC => "FOGC"
  | .TEX0 => "TEX0"
  | .TEX1 => "TEX1"
  | .TEX2 => "TEX2"
  | .TEX3 => "TEX3"
  | .TEX4 => "TEX4"
  | .TEX5 => "TEX5"
  | .TEX6 => "TEX6"
  | .TEX7 => "TEX7"
  | .TEX8 => "TEX8"
  | .TEX9 => "TEX9"
  | .SSA => "SSA"
  | .v15 => "v15"

def registerName : RegType → String
  | .H => "h"
  | .R => "r"

/- The uniform that holds the constants of a program. -/
def fconst (constIndex : Nat) : Expression :=
  .variable "fconst.c" (some (.integerLiteral constIndex))

/-
  What an argument names, before it is modified.  An argument
  of an illegal type becomes a null pointer.
-/
def argumentOperand
    (i : FragmentInstr)
    (constIndex : Nat)
    (arg : FragmentArgument) : Option Expression :=
  match arg.type with
  | .Const => some (fconst constIndex)
  | .Attr =>
      some (.variable ("f_" ++ printAttr i.inputAttr) none)
  | .Temp =>
      some
        (.variable (registerName arg.regType)
          (some (.integerLiteral arg.regNum)))
  | .Illegal => none

/- The last argument of a texture opcode is the texture. -/
def isTexture (i : FragmentInstr) (n : Nat) : Prop :=
  i.opcode.tex = true ∧ n + 1 = i.opcode.opCount

instance (i : FragmentInstr) (n : Nat) :
    Decidable (isTexture i n) :=
  inferInstanceAs (Decidable (_ ∧ _))

/-
  `ConvertArgument`.  An expression with a null pointer inside
  of it is taken to be null: no visitor gets past it.
-/
def convertArgument
    (i : FragmentInstr)
    (constIndex n : Nat) : Option Expression :=
  i.arguments[n]?.bind (fun arg =>
    (if isTexture i n then
      some (.integerLiteral i.texNum)
    else argumentOperand i constIndex arg).map
      (modified arg.isAbs arg.isNeg arg.swizzle))

/- `assert(dynamic_cast<IntegerLiteral*>(args[1]))`. -/
def textureInvocation
    (func : FunctionName)
    (coordinate : Expression) : Expression → Option Expression
  | .integerLiteral num =>
      some (.invocation func [.integerLiteral num, coordinate])
  | _ => none

/- Expressions of the first arguments; null if one is null. -/
def unary
    (arg : Nat → Option Expression)
    (f : Expression → Expression) : Option Expression :=
  (arg 0).map f

def binary
    (arg : Nat → Option Expression)
    (f : Expression → Expression → Expression) :
    Option Expression :=
  (arg 0).bind (fun first => (arg 1).map (f first))

def ternary
    (arg : Nat → Option Expression)
    (f : Expression → Expression → Expression → Expression) :
    Option Expression :=
  (arg 0).bind (fun first =>
    (arg 1).bind (fun second => (arg 2).map (f first second)))

/-
  The right-hand side of an operation.  `KIL` and `IFE` have
  none, and the operations left out fail an assertion.
-/
def fragmentRhs
    (op : FragmentOp)
    (arg : Nat → Option Expression) : Option Expression :=
  match op with
  | .ADD => binary arg (.binaryOperator .add)
  | .COS => unary arg (scalarInvocation .cos)
  | .DP2 => binary arg (maskedDot ⟨true, true, false, false⟩)
  | .DP3 => binary arg (maskedDot ⟨true, true, true, false⟩)
  | .DP4 => binary arg (fun a b => .invocation .dot [a, b])
  | .DIV =>
      binary arg (fun a b =>
        .binaryOperator .div a (adaptToSingleScalar b))
  | .DIVSQ =>
      binary arg (fun a b =>
        .binaryOperator .mul a
          (scalarInvocation .inversesqrt b))
  | .EX2 => unary arg (scalarInvocation .exp2)
  | .FLR => unary arg (fun a => .invocation .floor [a])
  | .FRC => unary arg (fun a => .invocation .fract [a])
  | .LG2 => unary arg (scalarInvocation .lg2)
  | .MAD =>
      ternary arg (fun a b c =>
        .binaryOperator .add (.binaryOperator .mul a b) c)
  | .MAX => binary arg (fun a b => .invocation .max [a, b])
  | .MIN => binary arg (fun a b => .invocation .min [a, b])
  | .MOV => arg 0
  | .MUL => binary arg (.binaryOperator .mul)
  | .RCP =>
      unary arg (fun a =>
        .invocation .pow [adaptToSingleScalar a, splat (-1)])
  | .RSQ => unary arg (scalarInvocation .inversesqrt)
  | .SEQ => binary arg (comparison .equal)
  | .SFL => some (vec4Of 0)
  | .SGE => binary arg (comparison .greaterThanEqual)
  | .SGT => binary arg (comparison .greaterThan)
  | .SIN => unary arg (scalarInvocation .sin)
  | .SLE => binary arg (comparison .lessThanEqual)
  | .SLT => binary arg (comparison .lessThan)
  | .SNE => binary arg (comparison .notEqual)
  | .STR => some (vec4Of 1)
  | .TEX =>
      (arg 0).bind (fun a =>
        (arg 1).bind (textureInvocation .ftex a))
  | .TXP =>
      (arg 0).bind (fun a =>
        (arg 1).bind (textureInvocation .ftxp a))
  | .NRM => unary arg (fun a => .invocation .normalize [a])
  | .UPB =>
      unary arg (fun a =>
        .invocation .unpackUnorm4x8
          [.invocation .floatBitsToUint [a]])
  | _ => none

/- The operations whose right-hand side is a scalar. -/
def isScalarRhs (op : FragmentOp) : Bool :=
  op == .DP2 || op == .DP3 || op == .DP4

/- An illegal scale has thrown before its factor is used. -/
def scaleFactor : ScaleMod → Option Rat
  | .D2 => some (1 / 2)
  | .D4 => some (1 / 4)
  | .D8 => some (1 / 8)
  | .M2 => some 2
  | .M4 => some 4
  | .M8 => some 8
  | .None | .Illegal => none

def scaled (scale : ScaleMod) (rhs : Expression) : Expression :=
  match scaleFactor scale with
  | none => rhs
  | some factor =>
      .binaryOperator .mul (.floatLiteral factor) rhs

def clamped (i : FragmentInstr) (rhs : Expression) :
    Expression :=
  if i.isSat then clamp rhs 0 1
  else if i.clamp = .X then clamp rhs (-2) 2
  else if i.clamp = .B then clamp rhs (-1) 1
  else rhs

/- The register that an instruction writes. -/
def destination (i : FragmentInstr) : Expression :=
  if i.isRegC then
    cRegister (if i.control = .C0 then 0 else 1)
  else
    .variable (registerName i.reg)
      (some (.integerLiteral i.regNum))

/-
  The assignment of an instruction, and the one that updates
  a condition register from what was assigned.
-/
def assignments
    (i : FragmentInstr)
    (rhs : Expression) : List Statement :=
  let value :=
    appendCondition i.condition
      (clamped i (scaled i.scale rhs)) (destination i)
  let dest := .componentMask (destination i) i.destMask
  .assignment Statement.noAddress dest
      (if isScalarRhs i.opcode.instr then value
        else .componentMask value i.destMask) ::
    (makeCAssignment i.control i.isRegC dest).toList

/-
  `MakeStatement` of a fragment instruction, or nothing where
  it throws or fails an assertion.
-/
def makeFragmentStatement
    (i : FragmentInstr)
    (constIndex : Nat) : Option (List Statement) :=
  match i.opcode.instr with
  | .NOP | .FENCB | .FENCT =>
      some
        [.whileStatement Statement.noAddress
          (.variable "false" none) []]
  | op =>
      if i.scale = .Illegal ∨ i.isBx2 = true then none
      else
        match op with
        | .IFE =>
            (makeCondition i.condition).map (fun relation =>
              [.ifStub Statement.noAddress (anyOf relation)
                i.elseLabel i.endifLabel [] []])
        | .KIL =>
            match makeCondition i.condition with
            | none =>
                some
                  [.discardStatement Statement.noAddress]
            | some relation =>
                some
                  [.ifStatement Statement.noAddress
                    (anyOf relation)
                    [.discardStatement Statement.noAddress]
                    []]
        | op =>
            (fragmentRhs op (convertArgument i constIndex)).map
              (assignments i)

------------------------------------------------------------
-- Variables of Statements
------------------------------------------------------------

variable {i : FragmentInstr} {constIndex n : Nat}
variable {arg : Nat → Option Expression}
variable {e : Expression} {v : Var}

theorem attrName_ne (attr : InputAttr) :
    "f_" ++ printAttr attr ≠ "fconst.c" := by
  cases attr <;> decide

theorem registerName_ne (t : RegType) :
    registerName t ≠ "fconst.c" := by
  cases t <;> decide

theorem c_ne : "c" ≠ "fconst.c" := by
  decide

/- A constant is read where an argument is one. -/
theorem variables_convertArgument
    (hArg : convertArgument i constIndex n = some e)
    (hv : v ∈ e.variables)
    (hName : v.1 = "fconst.c") :
    v = ("fconst.c", some (.integerLiteral constIndex)) ∧
      ∃ a,
        i.arguments[n]? = some a ∧ a.type = .Const ∧
          ¬ isTexture i n := by
  rcases Option.bind_eq_some_iff.mp hArg with
    ⟨a, hGet, hRest⟩
  rcases Option.map_eq_some_iff.mp hRest with
    ⟨operand, hOperand, rfl⟩
  rw [variables_modified] at hv
  split at hOperand
  case isTrue =>
    obtain rfl := Option.some.inj hOperand
    cases hv
  case isFalse hTexture =>
    rw [argumentOperand] at hOperand
    cases hType : a.type with
    | Const =>
        rw [hType] at hOperand
        obtain rfl := Option.some.inj hOperand
        rw [fconst, Expression.variables,
          List.mem_singleton] at hv
        exact ⟨hv, a, hGet, hType, hTexture⟩
    | Attr =>
        rw [hType] at hOperand
        obtain rfl := Option.some.inj hOperand
        rw [Expression.variables, List.mem_singleton] at hv
        rw [hv] at hName
        exact absurd hName (attrName_ne i.inputAttr)
    | Temp =>
        rw [hType] at hOperand
        obtain rfl := Option.some.inj hOperand
        rw [Expression.variables, List.mem_singleton] at hv
        rw [hv] at hName
        exact absurd hName (registerName_ne a.regType)
    | Illegal =>
        rw [hType] at hOperand
        cases hOperand

theorem mem_variables_unary
    {f : Expression → Expression}
    (hf : ∀ a, (f a).variables = a.variables)
    (hRhs : unary arg f = some e)
    (hv : v ∈ e.variables) :
    ∃ n a, arg n = some a ∧ v ∈ a.variables := by
  rcases Option.map_eq_some_iff.mp hRhs with ⟨a, ha, rfl⟩
  rw [hf] at hv
  exact ⟨0, a, ha, hv⟩

theorem mem_variables_binary
    {f : Expression → Expression → Expression}
    (hf :
      ∀ a b, (f a b).variables = a.variables ++ b.variables)
    (hRhs : binary arg f = some e)
    (hv : v ∈ e.variables) :
    ∃ n a, arg n = some a ∧ v ∈ a.variables := by
  rcases Option.bind_eq_some_iff.mp hRhs with ⟨a, ha, hRest⟩
  rcases Option.map_eq_some_iff.mp hRest with ⟨b, hb, rfl⟩
  rw [hf, List.mem_append] at hv
  rcases hv with hLeft | hRight
  · exact ⟨0, a, ha, hLeft⟩
  · exact ⟨1, b, hb, hRight⟩

theorem mem_variables_texture
    {func : FunctionName}
    (hRhs :
      ((arg 0).bind fun a =>
          (arg 1).bind (textureInvocation func a)) =
        some e)
    (hv : v ∈ e.variables) :
    ∃ n a, arg n = some a ∧ v ∈ a.variables := by
  rcases Option.bind_eq_some_iff.mp hRhs with ⟨a, ha, hRest⟩
  rcases Option.bind_eq_some_iff.mp hRest with ⟨b, -, hEq⟩
  cases b with
  | integerLiteral num =>
      obtain rfl := Option.some.inj hEq
      refine ⟨0, a, ha, ?_⟩
      simpa [Expression.variables, allVariables] using hv
  | _ => cases hEq

/- The variables of an operation are those of its arguments. -/
theorem mem_variables_fragmentRhs
    {op : FragmentOp}
    (hRhs : fragmentRhs op arg = some e)
    (hv : v ∈ e.variables) :
    ∃ n a, arg n = some a ∧ v ∈ a.variables := by
  cases op with
  | COS | EX2 | LG2 | RSQ | SIN | FLR | FRC | NRM | UPB
  | RCP =>
      exact mem_variables_unary (fun _ => by
        simp [scalarInvocation, adaptToSingleScalar, splat,
          Expression.variables, allVariables]) hRhs hv
  | ADD | MUL | DP2 | DP3 | DP4 | DIV | DIVSQ | MAX | MIN | SEQ
  | SGE | SGT | SLE | SLT | SNE =>
      exact mem_variables_binary (fun _ _ => by
        simp [maskedDot, scalarInvocation, adaptToSingleScalar,
          comparison, Expression.variables, allVariables])
        hRhs hv
  | MAD =>
      rcases Option.bind_eq_some_iff.mp hRhs with
        ⟨a, ha, hRest⟩
      rcases Option.bind_eq_some_iff.mp hRest with
        ⟨b, hb, hLast⟩
      rcases Option.map_eq_some_iff.mp hLast with ⟨c, hc, rfl⟩
      simp only [Expression.variables, List.mem_append] at hv
      rcases hv with (hFirst | hSecond) | hThird
      · exact ⟨0, a, ha, hFirst⟩
      · exact ⟨1, b, hb, hSecond⟩
      · exact ⟨2, c, hc, hThird⟩
  | MOV => exact ⟨0, e, hRhs, hv⟩
  | STR | SFL =>
      obtain rfl := Option.some.inj hRhs
      simp [vec4Of, Expression.variables, allVariables] at hv
  | TEX | TXP => exact mem_variables_texture hRhs hv
  | _ => cases hRhs

theorem variables_makeCondition
    {cond : Condition}
    (hCond : makeCondition cond = some e)
    (hv : v ∈ e.variables) :
    v.1 = "c" := by
  rcases Option.map_eq_some_iff.mp hCond with ⟨func, -, rfl⟩
  simp only [Expression.variables, allVariables, cRegister,
    splat, List.append_nil, List.mem_singleton] at hv
  rw [hv]

theorem variables_appendCondition
    {cond : Condition}
    {expr lhs : Expression}
    (hv : v ∈ (appendCondition cond expr lhs).variables) :
    v ∈ expr.variables ∨ v ∈ lhs.variables ∨ v.1 = "c" := by
  rw [appendCondition] at hv
  split at hv
  case h_1 => exact .inl hv
  case h_2 relation hCond =>
    simp only [Expression.variables, allVariables,
      List.append_nil, List.mem_append] at hv
    rcases hv with hLhs | hExpr | hRelation
    · exact .inr (.inl hLhs)
    · exact .inl hExpr
    · exact
        .inr (.inr (variables_makeCondition hCond hRelation))

theorem variables_clamped
    (i : FragmentInstr)
    (rhs : Expression) :
    (clamped i rhs).variables = rhs.variables := by
  rw [clamped]
  split
  · simp [clamp, Expression.variables, allVariables]
  · split
    · simp [clamp, Expression.variables, allVariables]
    · split
      · simp [clamp, Expression.variables, allVariables]
      · rfl

theorem variables_scaled
    (scale : ScaleMod)
    (rhs : Expression) :
    (scaled scale rhs).variables = rhs.variables := by
  rw [scaled]
  split
  · rfl
  · simp [Expression.variables]

theorem variables_destination
    (hv : v ∈ (destination i).variables) :
    v.1 ≠ "fconst.c" := by
  rw [destination] at hv
  split at hv
  · rw [cRegister, Expression.variables,
      List.mem_singleton] at hv
    rw [hv]
    exact c_ne
  · rw [Expression.variables, List.mem_singleton] at hv
    rw [hv]
    exact registerName_ne i.reg

/- An assignment reads no constant but those of its value. -/
theorem variables_assignments
    {rhs : Expression}
    {address : Nat}
    {x : Nat × Var}
    (hx :
      x ∈
        variablesOf
          ((assignments i rhs).map (Statement.setAddress address)))
    (hName : x.2.1 = "fconst.c") :
    x.1 = address ∧ x.2 ∈ rhs.variables := by
  have hDest : x.2 ∉ (destination i).variables :=
    fun hMem => variables_destination hMem hName
  have hC : x.2.1 ≠ "c" := by
    rw [hName]
    exact c_ne.symm
  rw [assignments, List.map_cons, variablesOf,
    List.mem_append] at hx
  rcases hx with hAssign | hUpdate
  · simp only [Statement.setAddress, Statement.variables,
      Expression.variables, List.mem_map,
      List.mem_append] at hAssign
    rcases hAssign with ⟨v, hv, rfl⟩
    refine ⟨rfl, ?_⟩
    rcases hv with hLeft | hRight
    · exact absurd hLeft hDest
    · have hValue :
          v ∈
            (appendCondition i.condition
              (clamped i (scaled i.scale rhs))
              (destination i)).variables := by
        split at hRight
        · exact hRight
        · exact hRight
      rcases variables_appendCondition hValue with
        hRhs | hLhs | hCond
      · rwa [variables_clamped, variables_scaled] at hRhs
      · exact absurd hLhs hDest
      · exact absurd hCond hC
  · rw [makeCAssignment] at hUpdate
    split at hUpdate
    case isFalse => simp [variablesOf] at hUpdate
    case isTrue =>
      simp only [Option.toList_some, List.map_cons,
        List.map_nil, variablesOf, Statement.setAddress,
        Statement.variables, Expression.variables, cRegister,
        List.append_nil, List.mem_map, List.mem_append,
        List.mem_singleton] at hUpdate
      rcases hUpdate with ⟨v, hCreg | hDestRead, rfl⟩
      · rw [hCreg] at hC
        exact absurd rfl hC
      · exact absurd hDestRead hDest

/- The statements that an instruction can become. -/
inductive Made
    (i : FragmentInstr)
    (constIndex : Nat) : List Statement → Prop where
  | nop :
      Made i constIndex
        [.whileStatement Statement.noAddress
          (.variable "false" none) []]
  | ife
      {relation : Expression}
      (hRelation : makeCondition i.condition = some relation) :
      Made i constIndex
        [.ifStub Statement.noAddress (anyOf relation)
          i.elseLabel i.endifLabel [] []]
  | kil :
      Made i constIndex
        [.discardStatement Statement.noAddress]
  | kilIf
      {relation : Expression}
      (hRelation : makeCondition i.condition = some relation) :
      Made i constIndex
        [.ifStatement Statement.noAddress (anyOf relation)
          [.discardStatement Statement.noAddress] []]
  | assigns
      {rhs : Expression}
      (hRhs :
        fragmentRhs i.opcode.instr
            (convertArgument i constIndex) =
          some rhs) :
      Made i constIndex (assignments i rhs)

theorem made_of_makeFragmentStatement
    {sts : List Statement}
    (hSts : makeFragmentStatement i constIndex = some sts) :
    Made i constIndex sts := by
  rw [makeFragmentStatement] at hSts
  split at hSts
  case h_1 | h_2 | h_3 =>
    obtain rfl := Option.some.inj hSts
    exact .nop
  case h_4 =>
    split at hSts
    case isTrue => cases hSts
    case isFalse =>
      split at hSts
      case h_1 =>
        rcases Option.map_eq_some_iff.mp hSts with
          ⟨relation, hRelation, rfl⟩
        exact .ife hRelation
      case h_2 =>
        split at hSts
        case h_1 =>
          obtain rfl := Option.some.inj hSts
          exact .kil
        case h_2 relation hRelation =>
          obtain rfl := Option.some.inj hSts
          exact .kilIf hRelation
      case h_3 =>
        rcases Option.map_eq_some_iff.mp hSts with
          ⟨rhs, hRhs, rfl⟩
        exact .assigns hRhs

/-
  The statements of an instruction read a constant only if an
  argument of the instruction is one, and they read the one
  with the given index.
-/
theorem variables_makeFragmentStatement
    {sts : List Statement}
    {address : Nat}
    {x : Nat × Var}
    (hSts : makeFragmentStatement i constIndex = some sts)
    (hx :
      x ∈ variablesOf (sts.map (Statement.setAddress address)))
    (hName : x.2.1 = "fconst.c") :
    x =
        (address, "fconst.c",
          some (.integerLiteral constIndex)) ∧
      ∃ (n : Nat) (a : FragmentArgument),
        i.arguments[n]? = some a ∧ a.type = .Const := by
  have hCondition :
      ∀ {relation : Expression},
        makeCondition i.condition = some relation →
        x.2 ∉ relation.variables := by
    intro relation hRelation hMem
    have hC := variables_makeCondition hRelation hMem
    rw [hName] at hC
    exact c_ne hC.symm
  cases made_of_makeFragmentStatement hSts with
  | nop =>
      simp [variablesOf, Statement.setAddress,
        Statement.variables, Expression.variables] at hx
      rw [hx] at hName
      simp at hName
  | ife hRelation =>
      simp [variablesOf, Statement.setAddress, anyOf,
        Statement.variables, Expression.variables,
        allVariables] at hx
      grind
  | kil =>
      simp [variablesOf, Statement.setAddress,
        Statement.variables] at hx
  | kilIf hRelation =>
      simp [variablesOf, Statement.setAddress, anyOf,
        Statement.variables, Expression.variables,
        allVariables] at hx
      grind
  | assigns hRhs =>
      rcases variables_assignments hx hName with
        ⟨hAddress, hRead⟩
      rcases mem_variables_fragmentRhs hRhs hRead with
        ⟨n, e, hArg, hMem⟩
      rcases variables_convertArgument hArg hMem hName with
        ⟨hVar, a, hGet, hType, -⟩
      exact ⟨Prod.ext hAddress hVar, n, a, hGet, hType⟩

------------------------------------------------------------
-- Embedded Values
------------------------------------------------------------

/- An instruction without the values of its constants. -/
def FragmentInstr.erased (i : FragmentInstr) : FragmentInstr :=
  { i with
    arguments :=
      i.arguments.map (fun a =>
        { a with immVal := Slot.zero }) }

theorem FragmentInstr.isLast_erased (i : FragmentInstr) :
    i.erased.isLast = i.isLast :=
  rfl

theorem convertArgument_erased
    (i : FragmentInstr)
    (constIndex n : Nat) :
    convertArgument i.erased constIndex n =
      convertArgument i constIndex n := by
  simp only [convertArgument, FragmentInstr.erased,
    List.getElem?_map, Option.bind_map]
  rfl

/- The statements do not contain the values of constants. -/
theorem makeFragmentStatement_erased
    (i : FragmentInstr)
    (constIndex : Nat) :
    makeFragmentStatement i.erased constIndex =
      makeFragmentStatement i constIndex := by
  have hArgs :
      convertArgument i.erased constIndex =
        convertArgument i constIndex := by
    funext n
    exact convertArgument_erased i constIndex n
  simp only [makeFragmentStatement, hArgs]
  rfl

theorem exists_mapM_congr
    {A B C : Type}
    {f f' : A → Option B}
    (g : B → C)
    {l : List A}
    {bs : List B}
    (hRun : l.mapM f = some bs)
    (hSame : ∀ a ∈ l, (f' a).map g = (f a).map g) :
    ∃ bs', l.mapM f' = some bs' ∧ bs'.map g = bs.map g := by
  induction l generalizing bs with
  | nil => exact ⟨bs, hRun, rfl⟩
  | cons a rest ih =>
      simp only [List.mapM_cons, Option.bind_eq_bind,
        Option.bind_eq_some_iff, Option.pure_def,
        Option.some.injEq] at hRun
      rcases hRun with ⟨b, hb, tail, hTail, rfl⟩
      rcases ih hTail (fun x hx => hSame x (by simp [hx])) with
        ⟨tail', hTail', hEq⟩
      have hHead := hSame a (by simp)
      rw [hb, Option.map_some] at hHead
      rcases Option.map_eq_some_iff.mp hHead with
        ⟨b', hb', hg⟩
      exact
        ⟨b' :: tail', by simp [List.mapM_cons, hb', hTail'],
          by simp [hg, hEq]⟩

/- Another constant changes only the values of arguments. -/
theorem exists_dasm_erased
    {instr : Slot}
    {next next' : Option Slot}
    {fi : FragmentInstr}
    {size : Nat}
    (hDasm : fragmentDasmInstr instr next = some (fi, size))
    (hNext : next'.isSome = next.isSome) :
    ∃ fi',
      fragmentDasmInstr instr next' = some (fi', size) ∧
        fi'.erased = fi.erased := by
  rcases Option.bind_eq_some_iff.mp hDasm with
    ⟨opcode, hOpcode, hRest⟩
  rcases Option.map_eq_some_iff.mp hRest with
    ⟨arguments, hArguments, hPair⟩
  obtain ⟨rfl, rfl⟩ := Prod.mk.inj hPair
  have hSame :
      ∀ n ∈ List.range opcode.opCount,
        (fragmentArgument (FragmentWords.ofSlot instr) next'
            n).map (fun a => { a with immVal := Slot.zero }) =
          (fragmentArgument (FragmentWords.ofSlot instr) next
            n).map (fun a =>
              { a with immVal := Slot.zero }) := by
    intro n _
    simp only [fragmentArgument]
    split
    case isFalse => rfl
    case isTrue =>
      cases next with
      | none =>
          cases next' with
          | none => rfl
          | some _ => cases hNext
      | some _ =>
          cases next' with
          | none => cases hNext
          | some _ => rfl
  rcases exists_mapM_congr _ hArguments hSame with
    ⟨arguments', hArguments', hErased⟩
  simp only [fragmentDasmInstr, hOpcode, Option.bind_some,
    hArguments', Option.map_some]
  refine ⟨_, rfl, ?_⟩
  simp only [FragmentInstr.erased, hErased]

end Shaders

end Ps3emu
