import Ps3emu.Shaders.Evaluation
import Ps3emu.Shaders.VertexStatement

/-
  What the expressions of a vertex instruction compute: each
  operation makes a vector from its operands, and the vector
  is assigned under a mask.

  Key definitions include:
    * `argValue`, `opValue`, `needs`

  Key theorems include:
    * `writes_makeMaskedAssignment`
    * `eval_convertVertexArg`
    * `opValue_congr`
    * `eval_vectorRhs`, `eval_scalarRhs`
-/

------------------------------------------------------------
-- Assignments and Arguments
------------------------------------------------------------

namespace Ps3emu

namespace Shaders

variable {V : Type} {A : Arithmetic V} {s : Location → V}
variable {name : String}
variable {index rhs : Expression} {f : Swizzle2bit → V}
variable {mask : DestMask}

/- An assignment under a mask writes the masked components. -/
theorem writes_makeMaskedAssignment
    {isScalarRhs : Bool}
    (hEval : broadcast (rhs.eval A s) = vec f)
    (hVector :
      isScalarRhs = false → rhs.eval A s = vec f) :
    (makeMaskedAssignment isScalarRhs mask
        (.variable name (some index)) rhs).writes A s =
      maskedWrites mask
        (fun c => ⟨name, indexOf A index (index.eval A s), c⟩)
        f := by
  have hFull :
      mask.arity = 4 →
        ∀ {B : Type} (h : Swizzle2bit → B),
          vec h = mask.comps.map h := by
    intro hArity B h
    rw [comps_of_arity hArity, map_vec]
    rfl
  have hTargets :
      targets A s
          (if mask.arity ≠ 4 then
            .componentMask (.variable name (some index)) mask
          else .variable name (some index)) =
        mask.comps.map (fun c =>
          ⟨name, indexOf A index (index.eval A s), c⟩) := by
    split
    case isTrue => rw [targets]
    case isFalse hArity =>
      rw [targets, hFull (not_not.mp hArity)]
  rw [makeMaskedAssignment, Statement.writes, maskedWrites,
    hTargets, ← assigned_map]
  split
  case isFalse hScalar =>
    have hVec := hVector (by simpa using hScalar)
    split
    case isTrue => rw [eval_componentMask hVec]
    case isFalse hArity =>
      rw [hVec, hFull (not_not.mp hArity)]
  case isTrue =>
    split
    case isTrue =>
      have hVec4 :
          (Expression.invocation .vec4 [rhs]).eval A s =
            vec f := by
        rw [Expression.eval]
        exact hEval
      rw [eval_componentMask hVec4]
    case isFalse hArity =>
      have hOne : mask.comps.length = 1 := by
        rw [length_comps, not_not.mp hArity]
      rcases List.length_eq_one_iff.mp hOne with ⟨c, hc⟩
      rcases broadcast_cases hEval with hVec | ⟨v, hv, rfl⟩
      · rw [hVec, hc, assigned_map, List.map_singleton,
          assigned_component, List.map_singleton]
      · rw [hv, hc]
        rfl

/- The index of an argument, displaced by an address register. -/
def refIndex
    (A : Arithmetic V)
    (s : Location → V)
    (ref : VertexRef) : Int :=
  indexOf A (convertRef ref) ((convertRef ref).eval A s)

/- The value of a component of an argument that is a vector. -/
def argValue
    (A : Arithmetic V)
    (s : Location → V)
    (arg : VertexArg)
    (c : Swizzle2bit) : V :=
  match arg with
  | .output ref => s ⟨"v_out", refIndex A s ref, c⟩
  | .input ref isNeg isAbs sw =>
      modify A isAbs isNeg
        (s ⟨"v_in", refIndex A s ref, sw.get c⟩)
  | .const ref isNeg isAbs sw =>
      modify A isAbs isNeg
        (s ⟨"constants.c", refIndex A s ref, sw.get c⟩)
  | .temp ref isNeg isAbs sw =>
      modify A isAbs isNeg
        (s ⟨"r", refIndex A s ref, sw.get c⟩)
  | .addressReg a => s ⟨"a", a, c⟩
  | .condReg n => s ⟨"c", n, c⟩
  | .label n | .tex n => A.integer n

/- A label and a texture are not vectors. -/
def VertexArg.IsVector : VertexArg → Prop
  | .label _ | .tex _ => False
  | _ => True

theorem eval_convertVertexArg
    {arg : VertexArg}
    (hVector : arg.IsVector) :
    (convertVertexArg arg).eval A s =
      vec (argValue A s arg) := by
  cases arg with
  | output ref => exact eval_variable "v_out" _
  | input ref isNeg isAbs sw =>
      exact eval_modified (eval_variable "v_in" _) _ _ _
  | const ref isNeg isAbs sw =>
      exact eval_modified (eval_variable "constants.c" _) _ _ _
  | temp ref isNeg isAbs sw =>
      exact eval_modified (eval_variable "r" _) _ _ _
  | addressReg a => exact eval_variable "a" _
  | condReg n => exact eval_cRegister n
  | label l => cases hVector
  | tex num => cases hVector

------------------------------------------------------------
-- Operations
------------------------------------------------------------

/- The sampler of a texture argument. -/
def VertexArg.sampler : VertexArg → Nat
  | .tex num => num
  | _ => 0

def samplerFunction (num : Nat) : FunctionName :=
  if num = 0 then .txl0
  else if num = 1 then .txl1
  else if num = 2 then .txl2
  else .txl3

/- The components of both vectors, the first ones first. -/
def dotOf (A : Arithmetic V) (vs ws : List V) : V :=
  A.apply .dot (vs ++ ws)

/-
  A component of the result of an operation on vectors.  The
  source of `MOV` is taken to be the first one.
-/
def opValue
    (A : Arithmetic V)
    (op : VertexOp)
    (sampler : Nat)
    (x : Fin 4 → Swizzle2bit → V)
    (k : Swizzle2bit) : V :=
  let one := A.literal 1
  let xyz := fun n => [x n .X, x n .Y, x n .Z]
  match op with
  | .MOV => x 1 k
  | .ADD => A.apply .add [x 1 k, x 2 k]
  | .MAD => A.apply .add [A.apply .mul [x 1 k, x 2 k], x 3 k]
  | .ARL => A.apply .ivec4 [A.apply .floor [x 1 k]]
  | .ARR => A.apply .ivec4 [A.apply .ceil [x 1 k]]
  | .COS => A.apply .cos [x 1 .X]
  | .DP3 => dotOf A (xyz 1) (xyz 2)
  | .DP4 => dotOf A (vec (x 1)) (vec (x 2))
  | .DPH => dotOf A (xyz 1 ++ [one]) (vec (x 2))
  | .DST =>
      match k with
      | .X => one
      | .Y => A.apply .mul [x 1 .Y, x 2 .Y]
      | .Z => x 1 .Z
      | .W => x 2 .W
  | .EXP | .EX2 => A.apply .exp2 [x 1 .X]
  | .FLR => A.apply .floor [x 1 k]
  | .FRC => A.apply .fract [x 1 k]
  | .LG2 | .LOG => A.apply .lg2 [x 1 .X]
  | .LIT =>
      match k with
      | .X | .W => one
      | .Y => x 1 .X
      | .Z =>
          if A.test (A.apply .gt [x 1 .X, A.literal 0]) then
            A.apply .exp2
              [A.apply .mul [x 1 .W, A.apply .lg2 [x 1 .Y]]]
          else A.literal 0
  | .MIN => A.apply .min [x 1 k, x 2 k]
  | .MAX => A.apply .max [x 1 k, x 2 k]
  | .MUL => A.apply .mul [x 1 k, x 2 k]
  | .RCP => A.apply .pow [x 1 .X, A.literal (-1)]
  | .RSQ => A.apply .inversesqrt [x 1 .X]
  | .SEQ => A.apply .equal [x 1 k, x 2 k]
  | .SFL => A.literal 0
  | .SGE => A.apply .greaterThanEqual [x 1 k, x 2 k]
  | .SGT => A.apply .greaterThan [x 1 k, x 2 k]
  | .SIN => A.apply .sin [x 1 .X]
  | .SLE => A.apply .lessThanEqual [x 1 k, x 2 k]
  | .SLT => A.apply .lessThan [x 1 k, x 2 k]
  | .SNE => A.apply .notEqual [x 1 k, x 2 k]
  | .SSG => A.apply .sign [x 1 k]
  | .STR => one
  | .TXL => A.texture (samplerFunction sampler) (vec (x 1)) k
  | _ => A.literal 0

/- The components of the operands that a component needs. -/
def needs (op : VertexOp) (k : Swizzle2bit) :
    List (Fin 4 × Swizzle2bit) :=
  match op with
  | .MOV | .ARL | .ARR | .FLR | .FRC | .SSG => [(1, k)]
  | .ADD | .MIN | .MAX | .MUL | .SEQ | .SGE | .SGT | .SLE
  | .SLT | .SNE => [(1, k), (2, k)]
  | .MAD => [(1, k), (2, k), (3, k)]
  | .COS | .EXP | .EX2 | .LG2 | .LOG | .RCP | .RSQ | .SIN =>
      [(1, .X)]
  | .DP3 =>
      [(1, .X), (1, .Y), (1, .Z), (2, .X), (2, .Y), (2, .Z)]
  | .DP4 => (vec id).map (1, ·) ++ (vec id).map (2, ·)
  | .DPH =>
      [(1, .X), (1, .Y), (1, .Z)] ++ (vec id).map (2, ·)
  | .DST =>
      match k with
      | .X => []
      | .Y => [(1, .Y), (2, .Y)]
      | .Z => [(1, .Z)]
      | .W => [(2, .W)]
  | .LIT =>
      match k with
      | .X | .W => []
      | .Y => [(1, .X)]
      | .Z => [(1, .X), (1, .Y), (1, .W)]
  | .TXL => (vec id).map (1, ·)
  | _ => []

/- Nothing else of the operands matters to a component. -/
theorem opValue_congr
    {op : VertexOp}
    {sampler : Nat}
    {x y : Fin 4 → Swizzle2bit → V}
    {k : Swizzle2bit}
    (hSame : ∀ p ∈ needs op k, x p.1 p.2 = y p.1 p.2) :
    opValue A op sampler x k = opValue A op sampler y k := by
  cases op with
  | DST | LIT =>
      cases k <;> simp_all [opValue, needs]
  | _ => simp_all [opValue, needs, vec]


/- The operations of a branch, and one that is not decoded. -/
def VertexOp.IsOperation (op : VertexOp) : Prop :=
  op ≠ .CLI ∧ op ≠ .CLB ∧ op ≠ .MVA

section

variable {op : VertexOp} {arg : Fin 4 → Expression}
variable {x : Fin 4 → Swizzle2bit → V}

theorem eval_comparison
    {func : FunctionName}
    {e e' : Expression}
    {g : Swizzle2bit → V}
    (hEval : e.eval A s = vec f)
    (hEval' : e'.eval A s = vec g)
    (hFunc :
      invoke A func [vec f, vec g] =
        vec (fun c => A.apply func [f c, g c])) :
    (comparison func e e').eval A s =
      vec (fun c => A.apply func [f c, g c]) := by
  simp only [comparison, Expression.eval, evalAll, hEval,
    hEval', hFunc]
  rfl

/- A function of the first component, for each component. -/
theorem eval_scalarInvocation
    {func : FunctionName}
    {e : Expression}
    (hEval : e.eval A s = vec f)
    (hFunc :
      invoke A func [vec (fun _ => f .X)] =
        vec (fun _ => A.apply func [f .X])) :
    (scalarInvocation func e).eval A s =
      vec (fun _ => A.apply func [f .X]) := by
  have hX :
      (adaptToSingleScalar e).eval A s =
        vec (fun _ => f .X) :=
    eval_swizzle hEval _
  simp only [scalarInvocation, Expression.eval, evalAll, hX,
    hFunc]

theorem eval_lookup
    {coordinate rhs : Expression}
    {num : Nat}
    (hEval : coordinate.eval A s = vec f)
    (hRhs :
      lookup coordinate (.integerLiteral num) = some rhs) :
    rhs.eval A s =
      vec (A.texture (samplerFunction num) (vec f)) := by
  have hFunc :
      (if (num : Int) = 0 then .txl0
        else if (num : Int) = 1 then .txl1
        else if (num : Int) = 2 then .txl2
        else .txl3) =
        samplerFunction num := by
    simp only [samplerFunction]
    norm_cast
  cases hRhs
  rw [hFunc, Expression.eval]
  simp only [evalAll, hEval, samplerFunction]
  split_ifs <;> rfl

theorem eval_vectorRhs
    {rhs : Expression}
    {sampler : Nat}
    (hOp : op.IsOperation)
    (hScalar : op.isScalarRhs = false)
    (hArg :
      ∀ k, ∀ p ∈ needs op k, (arg p.1).eval A s = vec (x p.1))
    (hSampler :
      op = .TXL → arg 2 = .integerLiteral sampler)
    (hRhs : vertexRhs op arg = some rhs) :
    rhs.eval A s = vec (opValue A op sampler x) := by
  cases op with
  | ADD | MIN | MAX | MUL =>
    have h1 := hArg .X (1, .X) (by simp [needs])
    have h2 := hArg .X (2, .X) (by simp [needs])
    cases hRhs
    simp only [Expression.eval, evalAll, h1, h2]
    rfl
  | SEQ | SGE | SGT | SLE | SLT | SNE =>
    have h1 := hArg .X (1, .X) (by simp [needs])
    have h2 := hArg .X (2, .X) (by simp [needs])
    cases hRhs
    exact eval_comparison h1 h2 rfl
  | MAD =>
    have h1 := hArg .X (1, .X) (by simp [needs])
    have h2 := hArg .X (2, .X) (by simp [needs])
    have h3 := hArg .X (3, .X) (by simp [needs])
    cases hRhs
    simp only [Expression.eval, h1, h2, h3]
    rfl
  | ARL | ARR | FLR | FRC | SSG =>
    have h1 := hArg .X (1, .X) (by simp [needs])
    cases hRhs
    simp only [Expression.eval, evalAll, h1]
    rfl
  | COS | EXP | EX2 | LG2 | LOG | RSQ | SIN =>
    have h1 := hArg .X (1, .X) (by simp [needs])
    cases hRhs
    exact eval_scalarInvocation h1 rfl
  | RCP =>
    have h1 := hArg .X (1, .X) (by simp [needs])
    have hX :
      (adaptToSingleScalar (arg 1)).eval A s =
        vec (fun _ => x 1 .X) :=
      eval_swizzle h1 _
    cases hRhs
    simp only [Expression.eval, evalAll, splat, hX]
    rfl
  | SFL | STR =>
    cases hRhs
    rfl
  | DST =>
    have h1 := hArg .Y (1, .Y) (by simp [needs])
    have h2 := hArg .Y (2, .Y) (by simp [needs])
    cases hRhs
    simp only [distance, Expression.eval, evalAll, h1, h2]
    rfl
  | LIT =>
    have h1 := hArg .Y (1, .X) (by simp [needs])
    cases hRhs
    simp only [lighting, Expression.eval, evalAll, h1]
    split
    case isTrue hAny =>
      have hTest :
          A.test (A.apply .gt [x 1 .X, A.literal 0]) = true :=
        (Bool.or_false _).symm.trans hAny
      have hZ :
          opValue A .LIT sampler x .Z =
            A.apply .exp2
              [A.apply .mul
                [x 1 .W, A.apply .lg2 [x 1 .Y]]] :=
        if_pos hTest
      exact
        congrArg
          (fun z => [A.literal 1, x 1 .X, z, A.literal 1])
          hZ.symm
    case isFalse hAny =>
      have hTest :
          ¬ A.test (A.apply .gt [x 1 .X, A.literal 0]) = true :=
        fun h => hAny ((Bool.or_false _).trans h)
      have hZ :
          opValue A .LIT sampler x .Z = A.literal 0 :=
        if_neg hTest
      exact
        congrArg
          (fun z => [A.literal 1, x 1 .X, z, A.literal 1])
          hZ.symm
  | TXL =>
    have h1 := hArg .X (1, .X) (by simp [needs, vec])
    rw [vertexRhs, hSampler rfl] at hRhs
    exact eval_lookup h1 hRhs
  | DP3 | DP4 | DPH => cases hScalar
  | CLI => exact absurd rfl hOp.1
  | CLB => exact absurd rfl hOp.2.1
  | MVA => exact absurd rfl hOp.2.2
  | _ => cases hRhs

/- The operations whose result is one number. -/
theorem eval_scalarRhs
    {rhs : Expression}
    {sampler : Nat}
    (hScalar : op.isScalarRhs = true)
    (hArg :
      ∀ k, ∀ p ∈ needs op k, (arg p.1).eval A s = vec (x p.1))
    (hRhs : vertexRhs op arg = some rhs) :
    broadcast (rhs.eval A s) = vec (opValue A op sampler x) := by
  cases op with
  | DP3 =>
    have h1 := hArg .X (1, .X) (by simp [needs])
    have h2 := hArg .X (2, .X) (by simp [needs])
    cases hRhs
    simp only [maskedDot, Expression.eval, evalAll, h1, h2]
    rfl
  | DP4 =>
    have h1 := hArg .X (1, .X) (by simp [needs, vec])
    have h2 := hArg .X (2, .X) (by simp [needs, vec])
    cases hRhs
    simp only [Expression.eval, evalAll, h1, h2]
    rfl
  | DPH =>
    have h1 := hArg .X (1, .X) (by simp [needs])
    have h2 := hArg .X (2, .X) (by simp [needs, vec])
    cases hRhs
    simp only [homogeneousDot, Expression.eval, evalAll, h1, h2]
    rfl
  | _ => cases hScalar

end

end Shaders

end Ps3emu
