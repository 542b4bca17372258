import Mathlib.Data.Rat.Init

/-
  The syntax tree of shaders: what the decoded instructions of
  a vertex or fragment program are turned into before they are
  printed as GLSL.

  Key definitions include:
    * `FunctionName`, `Swizzle`, `DestMask`
    * `Expression`
    * `Statement`, `Statement.address`
-/

------------------------------------------------------------
-- Expressions and Statements
------------------------------------------------------------

namespace Ps3emu

namespace Shaders

inductive Swizzle2bit where
  | X | Y | Z | W
  deriving DecidableEq, Repr

/- The component that each of the four components reads. -/
structure Swizzle where
  x : Swizzle2bit
  y : Swizzle2bit
  z : Swizzle2bit
  w : Swizzle2bit
  deriving DecidableEq, Repr

/- The swizzle that reads each component in its place. -/
def Swizzle.xyzw : Swizzle :=
  ⟨.X, .Y, .Z, .W⟩

/- The components that an assignment writes. -/
structure DestMask where
  x : Bool
  y : Bool
  z : Bool
  w : Bool
  deriving DecidableEq, Repr

/- How many components a mask has. -/
def DestMask.arity (mask : DestMask) : Nat :=
  mask.x.toNat + mask.y.toNat + mask.z.toNat + mask.w.toNat

inductive FunctionName where
  | vec4 | vec3 | vec2 | ivec4
  | equal | greaterThan | greaterThanEqual
  | lessThanEqual | notEqual
  | mul | div | add | abs | neg | exp2 | lg2 | min | max
  | pow | inversesqrt
  | fract | floor | ceil | dot | lessThan | cos | sin
  | castFloat | castInt | clamp4i | clamp | sign | normalize
  | gt | ge | eq | ne | lt | le | mix | any
  | reverse4f | reverse3f | reverse2f
  | call | ret
  | txl0 | txl1 | txl2 | txl3
  | ftex | ftxp | ftxb | ftxd | ftxl
  | floatBitsToUint | unpackUnorm4x8
  | none
  deriving DecidableEq, Repr

/-
  A variable has an index or none; the literals of the
  generator are dyadic, so that a rational is exact.
-/
inductive Expression where
  | variable (name : String) (index : Option Expression)
  | floatLiteral (val : Rat)
  | integerLiteral (val : Int)
  | swizzle (expr : Expression) (sw : Swizzle)
  | componentMask (expr : Expression) (mask : DestMask)
  | invocation
      (name : FunctionName) (args : List Expression)
  | unaryOperator (name : FunctionName) (arg : Expression)
  | binaryOperator
      (name : FunctionName) (left right : Expression)
  | ternaryOperator
      (condition trueExpr falseExpr : Expression)

/-
  Every statement carries the address of the instruction that
  it was made from.  The cases of a switch are the address
  and the body of each.
-/
inductive Statement where
  | assignment (address : Nat) (dest expr : Expression)
  | ifStatement
      (address : Nat)
      (condition : Expression)
      (trueBlock falseBlock : List Statement)
  | ifStub
      (address : Nat)
      (condition : Expression)
      (elseLabel endifLabel : Nat)
      (trueBlock falseBlock : List Statement)
  | switchStatement
      (address : Nat)
      (switchOn : Expression)
      (cases : List (Nat × List Statement))
  | breakStatement (address : Nat)
  | discardStatement (address : Nat)
  | whileStatement
      (address : Nat)
      (condition : Expression)
      (body : List Statement)

namespace Statement

/- `Statement::Statement` sets the address to `-1`. -/
def noAddress : Nat :=
  0xffffffff

def address : Statement → Nat
  | assignment address _ _ => address
  | ifStatement address _ _ _ => address
  | ifStub address _ _ _ _ _ => address
  | switchStatement address _ _ => address
  | breakStatement address => address
  | discardStatement address => address
  | whileStatement address _ _ => address

/- `Statement::address(uint32_t)`. -/
def setAddress (value : Nat) : Statement → Statement
  | assignment _ dest expr => assignment value dest expr
  | ifStatement _ condition trueBlock falseBlock =>
      ifStatement value condition trueBlock falseBlock
  | ifStub _ condition elseLabel endifLabel
        trueBlock falseBlock =>
      ifStub value condition elseLabel endifLabel
        trueBlock falseBlock
  | switchStatement _ switchOn cases =>
      switchStatement value switchOn cases
  | breakStatement _ => breakStatement value
  | discardStatement _ => discardStatement value
  | whileStatement _ condition body =>
      whileStatement value condition body

@[simp]
theorem address_setAddress (value : Nat) (st : Statement) :
    (st.setAddress value).address = value := by
  cases st <;> rfl

end Statement

end Shaders

end Ps3emu
