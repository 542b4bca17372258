import Ps3emu.Shaders.Execution
import Ps3emu.Shaders.Rewriter
import Ps3emu.Shaders.VertexInstr

/-
  The statements that are made from a slot of an instruction
  of a vertex program.

  Key definitions include:
    * `convertVertexArg`
    * `vertexRhs`, `makeMaskedAssignment`
    * `makeVertexStatement`
-/

------------------------------------------------------------
-- Arguments and Operations
------------------------------------------------------------

namespace Ps3emu

namespace Shaders

/- The mask of one component. -/
def componentOf (component : Nat) : DestMask :=
  ⟨component = 0, component = 1, component = 2, component = 3⟩

/- `VertexRefVisitor`. -/
def convertRef : VertexRef → Expression
  | .address reg component displ =>
      .binaryOperator .add
        (.componentMask
          (.variable "a" (some (.integerLiteral reg)))
          (componentOf component))
        (.integerLiteral displ)
  | .num n => .integerLiteral n

/- `VertexArgVisitor`. -/
def convertVertexArg : VertexArg → Expression
  | .output ref => .variable "v_out" (some (convertRef ref))
  | .input ref isNeg isAbs swizzle =>
      modified isAbs isNeg swizzle
        (.variable "v_in" (some (convertRef ref)))
  | .const ref isNeg isAbs swizzle =>
      modified isAbs isNeg swizzle
        (.variable "constants.c" (some (convertRef ref)))
  | .temp ref isNeg isAbs swizzle =>
      modified isAbs isNeg swizzle
        (.variable "r" (some (convertRef ref)))
  | .addressReg a =>
      .variable "a" (some (.integerLiteral a))
  | .condReg c => cRegister c
  | .label l => .integerLiteral l
  | .tex num => .integerLiteral num

def maskXYZ : DestMask :=
  ⟨true, true, true, false⟩

/- `dot(vec4(a.xyz, 1), b)`. -/
def homogeneousDot (a b : Expression) : Expression :=
  .invocation .dot
    [.invocation .vec4
        [.componentMask a maskXYZ, .floatLiteral 1],
      b]

/- `vec4(1, a.y * b.y, a.z, b.w)`. -/
def distance (a b : Expression) : Expression :=
  .invocation .vec4
    [.floatLiteral 1,
      .binaryOperator .mul (.componentMask a (componentOf 1))
        (.componentMask b (componentOf 1)),
      .componentMask a (componentOf 2),
      .componentMask b (componentOf 3)]

/- `vec4(1, a.x, a.x > 0 ? exp2(a.w * log2(a.y)) : 0, 1)`. -/
def lighting (a : Expression) : Expression :=
  let mul : Expression :=
    .binaryOperator .mul (.componentMask a (componentOf 3))
      (.invocation .lg2 [.componentMask a (componentOf 1)])
  .invocation .vec4
    [.floatLiteral 1, .componentMask a (componentOf 0),
      .ternaryOperator
        (.binaryOperator .gt
          (.componentMask a (componentOf 0)) (.floatLiteral 0))
        (.invocation .exp2 [mul]) (.floatLiteral 0),
      .floatLiteral 1]

/- A swizzle of two components reads `x` for the others. -/
def addressSum (a : Expression) : Expression :=
  .invocation .clamp4i
    [.swizzle
      (.binaryOperator .add (.swizzle a ⟨.X, .Y, .X, .X⟩)
        (.swizzle a ⟨.Z, .W, .X, .X⟩))
      ⟨.X, .Y, .X, .Y⟩]

/- `assert(txl)`: the sampler is a literal. -/
def lookup (coordinate : Expression) :
    Expression → Option Expression
  | .integerLiteral num =>
      let func : FunctionName :=
        if num = 0 then .txl0
        else if num = 1 then .txl1
        else if num = 2 then .txl2
        else .txl3
      some (.invocation func [coordinate])
  | _ => none

/-
  The right-hand side of an operation on its arguments.  `MOV`
  has one of its own, and so have the operations that are not
  assignments; those left out fail an assertion.
-/
def vertexRhs (op : VertexOp) (arg : Fin 4 → Expression) :
    Option Expression :=
  match op with
  | .ADD => some (.binaryOperator .add (arg 1) (arg 2))
  | .MAD =>
      some
        (.binaryOperator .add
          (.binaryOperator .mul (arg 1) (arg 2)) (arg 3))
  | .ARL =>
      some (.invocation .ivec4 [.invocation .floor [arg 1]])
  | .ARR =>
      some (.invocation .ivec4 [.invocation .ceil [arg 1]])
  | .CLI | .CLB => some (.invocation .call [arg 0])
  | .COS => some (scalarInvocation .cos (arg 1))
  | .DP3 => some (maskedDot maskXYZ (arg 1) (arg 2))
  | .DP4 => some (.invocation .dot [arg 1, arg 2])
  | .DPH => some (homogeneousDot (arg 1) (arg 2))
  | .DST => some (distance (arg 1) (arg 2))
  | .EXP | .EX2 => some (scalarInvocation .exp2 (arg 1))
  | .FLR => some (.invocation .floor [arg 1])
  | .FRC => some (.invocation .fract [arg 1])
  | .LG2 | .LOG => some (scalarInvocation .lg2 (arg 1))
  | .LIT => some (lighting (arg 1))
  | .MIN => some (.invocation .min [arg 1, arg 2])
  | .MAX => some (.invocation .max [arg 1, arg 2])
  | .MUL => some (.binaryOperator .mul (arg 1) (arg 2))
  | .MVA => some (addressSum (arg 1))
  | .RCP =>
      some
        (.invocation .pow
          [adaptToSingleScalar (arg 1), splat (-1)])
  | .RSQ => some (scalarInvocation .inversesqrt (arg 1))
  | .SEQ => some (comparison .equal (arg 1) (arg 2))
  | .SFL => some (vec4Of 0)
  | .SGE => some (comparison .greaterThanEqual (arg 1) (arg 2))
  | .SGT => some (comparison .greaterThan (arg 1) (arg 2))
  | .SIN => some (scalarInvocation .sin (arg 1))
  | .SLE => some (comparison .lessThanEqual (arg 1) (arg 2))
  | .SLT => some (comparison .lessThan (arg 1) (arg 2))
  | .SNE => some (comparison .notEqual (arg 1) (arg 2))
  | .SSG => some (.invocation .sign [arg 1])
  | .STR => some (vec4Of 1)
  | .TXL => lookup (arg 1) (arg 2)
  | _ => none

/- The operations whose right-hand side is a scalar. -/
def VertexOp.isScalarRhs (op : VertexOp) : Bool :=
  op == .DP3 || op == .DP4 || op == .DPH

------------------------------------------------------------
-- Statements
------------------------------------------------------------

def makeMaskedAssignment
    (isScalarRhs : Bool)
    (mask : DestMask)
    (lhs rhs : Expression) : Statement :=
  .assignment Statement.noAddress
    (if mask.arity ≠ 4 then .componentMask lhs mask else lhs)
    (if isScalarRhs then
      if mask.arity ≠ 1 then
        .componentMask (.invocation .vec4 [rhs]) mask
      else rhs
    else if mask.arity ≠ 4 then .componentMask rhs mask
    else rhs)

/- Whether the first argument is a condition register. -/
def VertexInstr.isRegC (i : VertexInstr) : Bool :=
  match i.args 0 with
  | .condReg _ => decide (1 < i.opCount)
  | _ => false

/- The statements of a branch. -/
def branchStatements (i : VertexInstr) : List Statement :=
  let assign : Statement :=
    .assignment Statement.noAddress nip
      (convertVertexArg (i.args 0))
  let leave : Statement :=
    .breakStatement Statement.noAddress
  match makeCondition i.condition with
  | some relation =>
      [.ifStatement Statement.noAddress (anyOf relation)
        [assign, leave] []]
  | none => [assign, leave]

/-
  What is assigned: nothing is left of a `MOV` for the update
  of a condition register, which gets a null pointer.
-/
def moveStatements (i : VertexInstr) :
    Option (List Statement) :=
  let arg := fun n => convertVertexArg (i.args n)
  if i.control ≠ .None ∧ i.isRegC = false then none
  else if i.opCount = 2 then
    some
      [makeMaskedAssignment false i.mask (arg 0)
        (appendCondition i.condition (arg 1) (arg 0))]
  else if i.opCount = 3 then
    let rhs := appendCondition i.condition (arg 2) (arg 0)
    some
      [makeMaskedAssignment false i.mask (arg 0) rhs,
        makeMaskedAssignment false i.mask (arg 1) rhs]
  else none

/-
  `MakeStatement` of a vertex instruction, or nothing where it
  fails an assertion or makes what cannot be printed.
-/
def makeVertexStatement
    (i : VertexInstr)
    (address : Nat) : Option (List Statement) :=
  let arg := fun n => convertVertexArg (i.args n)
  let update := fun lhs =>
    (makeCAssignment i.control i.isRegC lhs).toList
  let sts : Option (List Statement) :=
    match i.operation with
    | .MOV => moveStatements i
    | .NOP =>
        if i.control ≠ .None then none
        else
          some
            [.whileStatement Statement.noAddress
              (.variable "false" none) []]
    | .BRI | .BRB =>
        some (branchStatements i ++ update nip)
    | op =>
        (vertexRhs op arg).map (fun rhs =>
          let lhs : Expression :=
            if op = .CLI ∨ op = .CLB then
              .variable "void_var" none
            else arg 0
          makeMaskedAssignment op.isScalarRhs i.mask lhs
              (appendCondition i.condition rhs lhs) ::
            update lhs)
  sts.map (List.map (Statement.setAddress address))

end Shaders

end Ps3emu
