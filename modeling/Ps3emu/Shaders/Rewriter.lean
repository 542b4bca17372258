import Mathlib.Tactic.Common
import Ps3emu.Shaders.FragmentInstr

/-
  The parts that the statements of vertex and of fragment
  instructions share, and the visitor that meets the variables
  of a statement.

  Key definitions include:
    * `relationToFunction`, `makeCondition`, `appendCondition`
    * `makeCAssignment`
    * `modified`
    * `Expression.variables`, `Statement.variables`

  Key theorems include:
    * `variablesOf_append`
    * `variables_modified`
-/

------------------------------------------------------------
-- Variables and Shared Operations
------------------------------------------------------------

namespace Ps3emu

namespace Shaders

/- A variable is its name and its index. -/
abbrev Var := String × Option Expression

/-
  The variables that `DefaultVisitor` meets.  It does not
  enter the index of a variable.
-/
mutual

def Expression.variables : Expression → List Var
  | .variable name index => [(name, index)]
  | .floatLiteral _ => []
  | .integerLiteral _ => []
  | .swizzle expr _ => expr.variables
  | .componentMask expr _ => expr.variables
  | .invocation _ args => allVariables args
  | .unaryOperator _ arg => arg.variables
  | .binaryOperator _ left right =>
      left.variables ++ right.variables
  | .ternaryOperator condition trueExpr falseExpr =>
      condition.variables ++ trueExpr.variables ++
        falseExpr.variables

def allVariables : List Expression → List Var
  | [] => []
  | e :: rest => e.variables ++ allVariables rest

end

/-
  The variables of a statement, each with the address of the
  innermost statement that it stands in.
-/
mutual

def Statement.variables : Statement → List (Nat × Var)
  | .assignment address dest expr =>
      (dest.variables ++ expr.variables).map (address, ·)
  | .ifStatement address condition trueBlock falseBlock =>
      condition.variables.map (address, ·) ++
        variablesOf trueBlock ++ variablesOf falseBlock
  | .ifStub address condition _ _ trueBlock falseBlock =>
      condition.variables.map (address, ·) ++
        variablesOf trueBlock ++ variablesOf falseBlock
  | .switchStatement address switchOn cases =>
      switchOn.variables.map (address, ·) ++
        variablesOfCases cases
  | .breakStatement _ => []
  | .discardStatement _ => []
  | .whileStatement address condition body =>
      condition.variables.map (address, ·) ++ variablesOf body

def variablesOf : List Statement → List (Nat × Var)
  | [] => []
  | st :: rest => st.variables ++ variablesOf rest

def variablesOfCases :
    List (Nat × List Statement) → List (Nat × Var)
  | [] => []
  | (_, body) :: rest => variablesOf body ++ variablesOfCases rest

end

theorem variablesOf_append
    (first second : List Statement) :
    variablesOf (first ++ second) =
      variablesOf first ++ variablesOf second := by
  induction first with
  | nil => simp [variablesOf]
  | cons st rest ih => simp [variablesOf, ih]

/- No function belongs to the relation that always holds. -/
def relationToFunction : Cond → Option FunctionName
  | .EQ => some .equal
  | .FL => some .equal
  | .GE => some .greaterThanEqual
  | .GT => some .greaterThan
  | .LE => some .lessThanEqual
  | .LT => some .lessThan
  | .NE => some .notEqual
  | .TR => none

def adaptToSingleScalar (expr : Expression) : Expression :=
  .swizzle expr ⟨.X, .X, .X, .X⟩

/- `vec4(value)`. -/
def splat (value : Rat) : Expression :=
  .invocation .vec4 [.floatLiteral value]

/- The condition register of a number. -/
def cRegister (num : Nat) : Expression :=
  .variable "c" (some (.integerLiteral num))

/- A null pointer where the relation always holds. -/
def makeCondition (cond : Condition) : Option Expression :=
  (relationToFunction cond.relation).map (fun func =>
    .invocation func
      [.swizzle (cRegister (if cond.isC1 then 1 else 0))
          cond.swizzle,
        splat 0])

def appendCondition
    (cond : Condition)
    (expr lhs : Expression) : Expression :=
  match makeCondition cond with
  | none => expr
  | some relation => .invocation .mix [lhs, expr, relation]

def makeCAssignment
    (mod : ControlMod)
    (isRegC : Bool)
    (lhs : Expression) : Option Statement :=
  if mod ≠ .None ∧ isRegC = false then
    let creg := cRegister (if mod = .C0 then 0 else 1)
    let clhs :=
      match lhs with
      | .componentMask _ mask => .componentMask creg mask
      | _ => creg
    some (.assignment Statement.noAddress clhs lhs)
  else none

def clamp (expr : Expression) (min max : Rat) : Expression :=
  .invocation .clamp
    [expr, .floatLiteral min, .floatLiteral max]

/- The modifiers of an argument, from the innermost. -/
def modified
    (isAbs isNeg : Bool)
    (swizzle : Swizzle)
    (expr : Expression) : Expression :=
  let absolute :=
    if isAbs then .invocation .abs [expr] else expr
  let negated :=
    if isNeg then .unaryOperator .neg absolute else absolute
  if swizzle ≠ Swizzle.xyzw then .swizzle negated swizzle
  else negated

/- A comparison of two vectors, as a vector of numbers. -/
def comparison
    (func : FunctionName)
    (left right : Expression) : Expression :=
  .invocation .vec4 [.invocation func [left, right]]

def vec4Of (value : Rat) : Expression :=
  .invocation .vec4
    [.floatLiteral value, .floatLiteral value,
      .floatLiteral value, .floatLiteral value]

/- A function of one scalar. -/
def scalarInvocation
    (func : FunctionName)
    (arg : Expression) : Expression :=
  .invocation func [adaptToSingleScalar arg]

/- The dot product of the components of a mask. -/
def maskedDot
    (mask : DestMask)
    (left right : Expression) : Expression :=
  .invocation .dot
    [.componentMask left mask, .componentMask right mask]

/- `any(relation)`. -/
def anyOf (relation : Expression) : Expression :=
  .invocation .any [relation]

@[simp]
theorem variables_modified
    (isAbs isNeg : Bool)
    (swizzle : Swizzle)
    (expr : Expression) :
    (modified isAbs isNeg swizzle expr).variables =
      expr.variables := by
  simp only [modified]
  cases isAbs <;> cases isNeg <;> split <;>
    simp [Expression.variables, allVariables]

end Shaders

end Ps3emu
