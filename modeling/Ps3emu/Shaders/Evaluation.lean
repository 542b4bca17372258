import Ps3emu.Library.Parallel
import Ps3emu.Shaders.Rewriter

/-
  What the expressions of a shader mean.  The arithmetic is a
  parameter; components, masks, swizzles, selections and
  assignments are those of GLSL.

  Key definitions include:
    * `Arithmetic`
    * `Location`, `vec`
    * `Expression.eval`
    * `Statement.writes`, `block`

  Key theorems include:
    * `eval_swizzle`, `eval_componentMask`
    * `eval_modified`, `eval_appendCondition`
    * `block_append`
-/

------------------------------------------------------------
-- Components and Expressions
------------------------------------------------------------

namespace Ps3emu

namespace Shaders

def Swizzle2bit.toNat : Swizzle2bit → Nat
  | .X => 0
  | .Y => 1
  | .Z => 2
  | .W => 3

/- The component that a component of the result reads. -/
def Swizzle.get (sw : Swizzle) : Swizzle2bit → Swizzle2bit
  | .X => sw.x
  | .Y => sw.y
  | .Z => sw.z
  | .W => sw.w

def DestMask.has (mask : DestMask) : Swizzle2bit → Bool
  | .X => mask.x
  | .Y => mask.y
  | .Z => mask.z
  | .W => mask.w

/- The vector of a value for each component. -/
def vec {V : Type} (f : Swizzle2bit → V) : List V :=
  [f .X, f .Y, f .Z, f .W]

/- The components of a mask, in their order. -/
def DestMask.comps (mask : DestMask) : List Swizzle2bit :=
  (vec id).filter mask.has

/- A component of a vector, if the vector has it. -/
def pick {V : Type} (vs : List V) (c : Swizzle2bit) :
    Option V :=
  vs[c.toNat]?

/- A scalar stands for the vector of it. -/
def broadcast {V : Type} : List V → List V
  | [v] => vec (fun _ => v)
  | vs => vs

/-
  The operations on numbers.  A comparison gives the number
  that its result converts to.
-/
structure Arithmetic (V : Type) where
  literal : Rat → V
  integer : Int → V
  apply : FunctionName → List V → V
  texture : FunctionName → List V → Swizzle2bit → V
  test : V → Bool
  index : List V → Int

/- A component of an element of an array. -/
structure Location where
  name : String
  index : Int
  comp : Swizzle2bit
  deriving DecidableEq, Repr

section

variable {V : Type} (A : Arithmetic V)

/- `mix` with a boolean vector selects each component. -/
def select (x y m : List V) : List V :=
  List.zipWith (fun xy m => if A.test m then xy.2 else xy.1)
    ((broadcast x).zip (broadcast y)) m

/-
  What a function does to vectors.  Where a component of the
  result depends on whole vectors, it is left to `texture`.
-/
def invoke (func : FunctionName) (args : List (List V)) :
    List V :=
  match func, args with
  | .vec4, [vs] => broadcast vs
  | .vec4, args => args.flatten
  | .mix, [x, y, m] => select A x y m
  | .dot, args => [A.apply .dot args.flatten]
  | .any, args => [A.apply .any args.flatten]
  | .call, args => args.flatten
  | .txl0, [vs] | .txl1, [vs] | .txl2, [vs] | .txl3, [vs] =>
      vec (A.texture func vs)
  | .ftex, [ns, vs] | .ftxp, [ns, vs] =>
      vec (A.texture func (ns ++ vs))
  | .normalize, [vs] | .unpackUnorm4x8, [vs] =>
      vec (A.texture func vs)
  | .clamp, [vs, [lo], [hi]] =>
      vs.map (fun v => A.apply .clamp [v, lo, hi])
  | .mul, [[v], ws] => ws.map (fun w => A.apply .mul [v, w])
  | _, [vs] => vs.map (fun v => A.apply func [v])
  | _, [vs, ws] =>
      List.zipWith (fun v w => A.apply func [v, w]) vs ws
  | _, args => [A.apply func args.flatten]

/- The index of a variable, given the value of its expression. -/
def indexOf : Expression → List V → Int
  | .integerLiteral n, _ => n
  | _, vs => A.index vs

mutual

def Expression.eval (s : Location → V) : Expression → List V
  | .variable name none => vec (fun c => s ⟨name, 0, c⟩)
  | .variable name (some index) =>
      vec (fun c =>
        s ⟨name, indexOf A index (index.eval s), c⟩)
  | .floatLiteral val => [A.literal val]
  | .integerLiteral val => [A.integer val]
  | .swizzle expr sw =>
      (vec sw.get).filterMap (pick (expr.eval s))
  | .componentMask expr mask =>
      mask.comps.filterMap (pick (expr.eval s))
  | .invocation name args => invoke A name (evalAll s args)
  | .unaryOperator name arg => invoke A name [arg.eval s]
  | .binaryOperator name left right =>
      invoke A name [left.eval s, right.eval s]
  | .ternaryOperator condition trueExpr falseExpr =>
      if (condition.eval s).any A.test then trueExpr.eval s
      else falseExpr.eval s

def evalAll (s : Location → V) : List Expression → List (List V)
  | [] => []
  | e :: rest => e.eval s :: evalAll s rest

end

end

------------------------------------------------------------
-- Evaluation of Vectors
------------------------------------------------------------

variable {V : Type} {A : Arithmetic V} {s : Location → V}
variable {e lhs : Expression}
variable {f g : Swizzle2bit → V}

@[simp]
theorem pick_vec (f : Swizzle2bit → V) (c : Swizzle2bit) :
    pick (vec f) c = some (f c) := by
  cases c <;> rfl

@[simp]
theorem filterMap_pick_vec
    (cs : List Swizzle2bit)
    (f : Swizzle2bit → V) :
    cs.filterMap (pick (vec f)) = cs.map f := by
  have hPick : pick (vec f) = some ∘ f := by
    funext c
    exact pick_vec f c
  rw [hPick, List.filterMap_eq_map]

@[simp]
theorem map_vec {W : Type} (h : V → W) :
    (vec f).map h = vec (fun c => h (f c)) :=
  rfl

@[simp]
theorem zipWith_vec {W : Type} (h : V → V → W) :
    List.zipWith h (vec f) (vec g) =
      vec (fun c => h (f c) (g c)) :=
  rfl

@[simp]
theorem broadcast_vec : broadcast (vec f) = vec f :=
  rfl

@[simp]
theorem broadcast_singleton (v : V) :
    broadcast [v] = vec (fun _ => v) :=
  rfl

theorem Swizzle.get_xyzw (c : Swizzle2bit) :
    Swizzle.xyzw.get c = c := by
  cases c <;> rfl

theorem eval_variable (name : String) (index : Expression) :
    (Expression.variable name (some index)).eval A s =
      vec (fun c =>
        s ⟨name, indexOf A index (index.eval A s), c⟩) :=
  rfl

theorem eval_cRegister (num : Nat) :
    (cRegister num).eval A s =
      vec (fun c => s ⟨"c", num, c⟩) := by
  rw [cRegister, eval_variable]
  rfl

theorem eval_swizzle
    (hEval : e.eval A s = vec f)
    (sw : Swizzle) :
    (Expression.swizzle e sw).eval A s =
      vec (fun c => f (sw.get c)) := by
  change (vec sw.get).filterMap (pick (e.eval A s)) = _
  rw [hEval, filterMap_pick_vec]
  rfl

theorem eval_componentMask
    (hEval : e.eval A s = vec f)
    (mask : DestMask) :
    (Expression.componentMask e mask).eval A s =
      mask.comps.map f := by
  change mask.comps.filterMap (pick (e.eval A s)) = _
  rw [hEval, filterMap_pick_vec]

/- What the modifiers of an argument do to a number. -/
def modify (A : Arithmetic V) (isAbs isNeg : Bool) (v : V) :
    V :=
  let absolute := if isAbs then A.apply .abs [v] else v
  if isNeg then A.apply .neg [absolute] else absolute

theorem eval_modified
    (hEval : e.eval A s = vec f)
    (isAbs isNeg : Bool)
    (sw : Swizzle) :
    (modified isAbs isNeg sw e).eval A s =
      vec (fun c => modify A isAbs isNeg (f (sw.get c))) := by
  have hInner :
      (if isNeg then
          Expression.unaryOperator .neg
            (if isAbs then .invocation .abs [e] else e)
        else if isAbs then .invocation .abs [e]
        else e).eval A s =
        vec (fun c => modify A isAbs isNeg (f c)) := by
    cases isAbs <;> cases isNeg <;>
      simp [Expression.eval, evalAll, invoke, modify, hEval]
  rw [modified]
  split
  case isTrue => exact eval_swizzle hInner sw
  case isFalse hSame =>
    rw [not_not.mp hSame]
    simpa only [Swizzle.get_xyzw] using hInner

/- Whether the condition of an instruction holds. -/
def holdsAt
    (A : Arithmetic V)
    (s : Location → V)
    (cond : Condition)
    (c : Swizzle2bit) : Bool :=
  match relationToFunction cond.relation with
  | none => true
  | some func =>
      A.test
        (A.apply func
          [s ⟨"c", if cond.isC1 then 1 else 0,
              cond.swizzle.get c⟩,
            A.literal 0])

variable {cond : Condition}

theorem eval_makeCondition
    {relation : Expression}
    (hCond : makeCondition cond = some relation) :
    ∃ m,
      relation.eval A s = vec m ∧
        ∀ c, A.test (m c) = holdsAt A s cond c := by
  rcases Option.map_eq_some_iff.mp hCond with
    ⟨func, hFunc, rfl⟩
  have hC :
      ((if cond.isC1 then 1 else 0 : Nat) : Int) =
        if cond.isC1 then 1 else 0 := by
    cases cond.isC1 <;> rfl
  have hSw :=
    eval_swizzle
      (eval_cRegister (A := A) (s := s)
        (if cond.isC1 then 1 else 0))
      cond.swizzle
  have hZero :
      (splat 0).eval A s = vec (fun _ => A.literal 0) := by
    simp [splat, Expression.eval, evalAll, invoke]
  refine
    ⟨fun c =>
      A.apply func
        [s ⟨"c", if cond.isC1 then 1 else 0,
            cond.swizzle.get c⟩,
          A.literal 0], ?_, ?_⟩
  · rw [Expression.eval]
    simp only [evalAll, hSw, hZero, hC]
    cases hRel : cond.relation <;>
      rw [hRel] at hFunc <;> cases hFunc <;> rfl
  · intro c
    rw [holdsAt, hFunc]

/- The selection that a condition with a test becomes. -/
theorem eval_mix
    {relation : Expression}
    (hCond : makeCondition cond = some relation)
    (hEval : broadcast (e.eval A s) = vec f)
    (hLhs : lhs.eval A s = vec g) :
    (Expression.invocation .mix [lhs, e, relation]).eval A s =
      vec (fun c =>
        if holdsAt A s cond c then f c else g c) := by
  rcases eval_makeCondition (A := A) (s := s) hCond with
    ⟨m, hRelation, hTest⟩
  rw [Expression.eval]
  simp only [evalAll, hLhs, hRelation, invoke, select, hEval,
    broadcast_vec]
  simp [vec, hTest]

theorem holdsAt_of_none
    (hCond : makeCondition cond = none)
    (c : Swizzle2bit) :
    holdsAt A s cond c = true := by
  rw [holdsAt, Option.map_eq_none_iff.mp hCond]

/- A component whose condition fails keeps the old value. -/
theorem eval_appendCondition
    (cond : Condition)
    (hEval : e.eval A s = vec f)
    (hLhs : lhs.eval A s = vec g) :
    (appendCondition cond e lhs).eval A s =
      vec (fun c =>
        if holdsAt A s cond c then f c else g c) := by
  rw [appendCondition]
  split
  case h_1 hNone =>
    simpa only [holdsAt_of_none hNone, if_true] using hEval
  case h_2 relation hCond =>
    apply eval_mix hCond _ hLhs
    rw [hEval, broadcast_vec]

theorem broadcast_eval_appendCondition
    (cond : Condition)
    (hEval : broadcast (e.eval A s) = vec f)
    (hLhs : lhs.eval A s = vec g) :
    broadcast ((appendCondition cond e lhs).eval A s) =
      vec (fun c =>
        if holdsAt A s cond c then f c else g c) := by
  rw [appendCondition]
  split
  case h_1 hNone =>
    simpa only [holdsAt_of_none hNone, if_true] using hEval
  case h_2 relation hCond =>
    rw [eval_mix hCond hEval hLhs, broadcast_vec]

------------------------------------------------------------
-- Assignments and Masked Assignments
------------------------------------------------------------

variable {V : Type} (A : Arithmetic V)

/- The locations that an assignment to an expression writes. -/
def targets (s : Location → V) : Expression → List Location
  | .variable name (some index) =>
      vec (fun c =>
        ⟨name, indexOf A index (index.eval A s), c⟩)
  | .componentMask (.variable name (some index)) mask =>
      mask.comps.map (fun c =>
        ⟨name, indexOf A index (index.eval A s), c⟩)
  | _ => []

/-
  A component that is assigned a whole vector gets its own
  component of it.
-/
def assigned (ts : List Location) (vs : List V) :
    List (Location × V) :=
  if ts.length = vs.length then ts.zip vs
  else
    ts.filterMap (fun t =>
      (pick vs t.comp).map (fun v => (t, v)))

/- The writes of a statement; only assignments make some. -/
def Statement.writes (st : Statement) :
    Parallel.Block Location V :=
  fun s =>
    match st with
    | .assignment _ dest expr =>
        assigned (targets A s dest) (expr.eval A s)
    | _ => []

/- Statements that are carried out one after another. -/
def block : List Statement → Parallel.Block Location V
  | [] => fun _ => []
  | st :: rest => Parallel.inOrder (st.writes A) (block rest)

variable {A} {s : Location → V} {f : Swizzle2bit → V} {mask : DestMask}
variable {c : Swizzle2bit}

theorem length_comps (mask : DestMask) :
    mask.comps.length = mask.arity := by
  rcases mask with ⟨x, y, z, w⟩
  revert x y z w
  decide

theorem comps_of_arity (hArity : mask.arity = 4) :
    mask.comps = vec id := by
  rcases mask with ⟨x, y, z, w⟩
  revert x y z w
  decide

theorem broadcast_cases
    {vs : List V}
    (hVec : broadcast vs = vec f) :
    vs = vec f ∨ ∃ v, vs = [v] ∧ f = fun _ => v := by
  rcases vs with _ | ⟨v, _ | ⟨w, rest⟩⟩
  · exact .inl hVec
  · refine .inr ⟨v, rfl, ?_⟩
    simp only [broadcast, vec, List.cons.injEq] at hVec
    funext c
    cases c with
    | X => exact hVec.1.symm
    | Y => exact hVec.2.1.symm
    | Z => exact hVec.2.2.1.symm
    | W => exact hVec.2.2.2.1.symm
  · exact .inl hVec

/- A value for each component of a mask. -/
def maskedWrites
    (mask : DestMask)
    (key : Swizzle2bit → Location)
    (f : Swizzle2bit → V) : List (Location × V) :=
  mask.comps.map (fun c => (key c, f c))

theorem assigned_map
    (cs : List Swizzle2bit)
    (key : Swizzle2bit → Location) :
    assigned (cs.map key) (cs.map f) =
      cs.map (fun c => (key c, f c)) := by
  rw [assigned, if_pos (by simp), List.zip_map']

theorem assigned_component (t : Location) :
    assigned [t] (vec f) = [(t, f t.comp)] := by
  have hLength : ¬ [t].length = (vec f).length := by
    simp [vec]
  rw [assigned, if_neg hLength]
  simp only [List.filterMap_cons, List.filterMap_nil,
    pick_vec, Option.map_some]

end Shaders

end Ps3emu
