import Ps3emu.Shaders.FragmentStatement
import Ps3emu.Shaders.Guards

/-
  Conditional writes of fragment instructions.  What is
  assigned is selected component by component, but the update
  of a condition register is a plain copy, and the relation
  that never holds is taken for the one of equality.

  Key definitions include:
    * `fragmentOpValue`, `destLocation`
    * `GuardedWrites`
    * `Keeps`

  Key theorems include:
    * `eval_fragmentRhs`
    * `after_assignments`
    * `guardedWrites_iff`
-/

------------------------------------------------------------
-- Values of Operations
------------------------------------------------------------

namespace Ps3emu

namespace Shaders

variable {V : Type} {A : Arithmetic V} {s : Location → V}
variable {i : FragmentInstr}
variable {constIndex n : Nat}

/- Where the operand of an argument is. -/
def argumentLocation
    (i : FragmentInstr)
    (constIndex : Nat)
    (arg : FragmentArgument)
    (c : Swizzle2bit) : Location :=
  match arg.type with
  | .Const => ⟨"fconst.c", constIndex, c⟩
  | .Attr => ⟨"f_" ++ printAttr i.inputAttr, 0, c⟩
  | _ => ⟨registerName arg.regType, arg.regNum, c⟩

/- A component of an argument that is not a texture. -/
def argumentValue
    (A : Arithmetic V)
    (s : Location → V)
    (i : FragmentInstr)
    (constIndex n : Nat)
    (k : Swizzle2bit) : V :=
  match i.arguments[n]? with
  | none => A.literal 0
  | some arg =>
      modify A arg.isAbs arg.isNeg
        (s (argumentLocation i constIndex arg
          (arg.swizzle.get k)))

theorem eval_argumentOperand
    {arg : FragmentArgument}
    {e : Expression}
    (hOperand : argumentOperand i constIndex arg = some e) :
    e.eval A s =
      vec (fun c => s (argumentLocation i constIndex arg c)) := by
  rw [argumentOperand] at hOperand
  simp only [argumentLocation]
  cases hType : arg.type with
  | Const =>
      rw [hType] at hOperand
      obtain rfl := Option.some.inj hOperand
      exact eval_variable "fconst.c" _
  | Attr =>
      rw [hType] at hOperand
      obtain rfl := Option.some.inj hOperand
      rw [Expression.eval]
  | Temp =>
      rw [hType] at hOperand
      obtain rfl := Option.some.inj hOperand
      exact eval_variable (registerName arg.regType) _
  | Illegal =>
      rw [hType] at hOperand
      cases hOperand

theorem eval_convertArgument
    {e : Expression}
    (hArg : convertArgument i constIndex n = some e)
    (hTexture : ¬ isTexture i n) :
    e.eval A s = vec (argumentValue A s i constIndex n) := by
  rcases Option.bind_eq_some_iff.mp hArg with
    ⟨arg, hGet, hRest⟩
  rw [if_neg hTexture] at hRest
  rcases Option.map_eq_some_iff.mp hRest with
    ⟨operand, hOperand, rfl⟩
  have hValue :
      argumentValue A s i constIndex n =
        fun k =>
          modify A arg.isAbs arg.isNeg
            (s (argumentLocation i constIndex arg
              (arg.swizzle.get k))) := by
    funext k
    rw [argumentValue, hGet]
  rw [hValue]
  exact
    eval_modified (eval_argumentOperand hOperand) arg.isAbs
      arg.isNeg arg.swizzle

/-
  A component of the result of an operation, for the number
  of its texture and the components of its arguments.
-/
def fragmentOpValue
    (A : Arithmetic V)
    (op : FragmentOp)
    (texNum : Int)
    (x : Nat → Swizzle2bit → V)
    (k : Swizzle2bit) : V :=
  match op with
  | .ADD => A.apply .add [x 0 k, x 1 k]
  | .COS => A.apply .cos [x 0 .X]
  | .DP2 => A.apply .dot [x 0 .X, x 0 .Y, x 1 .X, x 1 .Y]
  | .DP3 =>
      A.apply .dot
        [x 0 .X, x 0 .Y, x 0 .Z, x 1 .X, x 1 .Y, x 1 .Z]
  | .DP4 => A.apply .dot (vec (x 0) ++ vec (x 1))
  | .DIV => A.apply .div [x 0 k, x 1 .X]
  | .DIVSQ =>
      A.apply .mul [x 0 k, A.apply .inversesqrt [x 1 .X]]
  | .EX2 => A.apply .exp2 [x 0 .X]
  | .FLR => A.apply .floor [x 0 k]
  | .FRC => A.apply .fract [x 0 k]
  | .LG2 => A.apply .lg2 [x 0 .X]
  | .MAD => A.apply .add [A.apply .mul [x 0 k, x 1 k], x 2 k]
  | .MAX => A.apply .max [x 0 k, x 1 k]
  | .MIN => A.apply .min [x 0 k, x 1 k]
  | .MOV => x 0 k
  | .MUL => A.apply .mul [x 0 k, x 1 k]
  | .RCP => A.apply .pow [x 0 .X, A.literal (-1)]
  | .RSQ => A.apply .inversesqrt [x 0 .X]
  | .SEQ => A.apply .equal [x 0 k, x 1 k]
  | .SFL => A.literal 0
  | .SGE => A.apply .greaterThanEqual [x 0 k, x 1 k]
  | .SGT => A.apply .greaterThan [x 0 k, x 1 k]
  | .SIN => A.apply .sin [x 0 .X]
  | .SLE => A.apply .lessThanEqual [x 0 k, x 1 k]
  | .SLT => A.apply .lessThan [x 0 k, x 1 k]
  | .SNE => A.apply .notEqual [x 0 k, x 1 k]
  | .STR => A.literal 1
  | .TEX => A.texture .ftex (A.integer texNum :: vec (x 0)) k
  | .TXP => A.texture .ftxp (A.integer texNum :: vec (x 0)) k
  | .NRM => A.texture .normalize (vec (x 0)) k
  | .UPB =>
      A.texture .unpackUnorm4x8
        (vec fun c => A.apply .floatBitsToUint [x 0 c]) k
  | _ => A.literal 0

variable {k : Swizzle2bit}

/- Every operation but `MOV` makes a new term. -/
theorem op_eq_of_symbolic
    {outcome : Bool}
    {op : FragmentOp}
    {texNum : Int}
    {x : Nat → Swizzle2bit → Sym}
    {l : Location}
    (hOld :
      fragmentOpValue (symbolic outcome) op texNum x k =
        .old l) :
    op = .MOV := by
  cases op <;> first | rfl | cases hOld

section

variable {op : FragmentOp} {texNum : Int}
variable {arg : Nat → Option Expression}
variable {x : Nat → Swizzle2bit → V} {e : Expression}

theorem exists_of_unary
    {f : Expression → Expression}
    (hRhs : unary arg f = some e) :
    ∃ a, arg 0 = some a ∧ f a = e :=
  Option.map_eq_some_iff.mp hRhs

theorem exists_of_binary
    {f : Expression → Expression → Expression}
    (hRhs : binary arg f = some e) :
    ∃ a b, arg 0 = some a ∧ arg 1 = some b ∧ f a b = e := by
  rcases Option.bind_eq_some_iff.mp hRhs with ⟨a, ha, hRest⟩
  rcases Option.map_eq_some_iff.mp hRest with ⟨b, hb, hEq⟩
  exact ⟨a, b, ha, hb, hEq⟩

theorem exists_of_ternary
    {f : Expression → Expression → Expression → Expression}
    (hRhs : ternary arg f = some e) :
    ∃ a b c,
      arg 0 = some a ∧ arg 1 = some b ∧ arg 2 = some c ∧
        f a b c = e := by
  rcases Option.bind_eq_some_iff.mp hRhs with ⟨a, ha, hRest⟩
  rcases Option.bind_eq_some_iff.mp hRest with ⟨b, hb, hLast⟩
  rcases Option.map_eq_some_iff.mp hLast with ⟨c, hc, hEq⟩
  exact ⟨a, b, c, ha, hb, hc, hEq⟩

theorem exists_of_texture
    {func : FunctionName}
    (hRhs :
      ((arg 0).bind fun a =>
          (arg 1).bind (textureInvocation func a)) =
        some e) :
    ∃ a num,
      arg 0 = some a ∧ arg 1 = some (.integerLiteral num) ∧
        e = .invocation func [.integerLiteral num, a] := by
  rcases Option.bind_eq_some_iff.mp hRhs with ⟨a, ha, hRest⟩
  rcases Option.bind_eq_some_iff.mp hRest with ⟨b, hb, hEq⟩
  cases b with
  | integerLiteral num =>
      exact ⟨a, num, ha, hb, (Option.some.inj hEq).symm⟩
  | _ => cases hEq

/- The operations that are not scalar make a vector. -/
theorem eval_fragmentRhs
    (hArg :
      ∀ n e, (n = 1 → op ≠ .TEX ∧ op ≠ .TXP) →
        arg n = some e → e.eval A s = vec (x n))
    (hTexture :
      ∀ num, arg 1 = some (.integerLiteral num) →
        op = .TEX ∨ op = .TXP → num = texNum)
    (hScalar : isScalarRhs op = false)
    (hRhs : fragmentRhs op arg = some e) :
    e.eval A s = vec (fragmentOpValue A op texNum x) := by
  cases op with
  | DP2 | DP3 | DP4 => cases hScalar
  | ADD | MUL | MAX | MIN =>
      rcases exists_of_binary hRhs with ⟨a, b, ha, hb, rfl⟩
      have h0 := hArg 0 a (by simp) ha
      have h1 := hArg 1 b (by simp) hb
      simp only [Expression.eval, evalAll, h0, h1]
      rfl
  | SEQ | SGE | SGT | SLE | SLT | SNE =>
      rcases exists_of_binary hRhs with ⟨a, b, ha, hb, rfl⟩
      have h0 := hArg 0 a (by simp) ha
      have h1 := hArg 1 b (by simp) hb
      simp only [comparison, Expression.eval, evalAll, h0, h1]
      rfl
  | DIV | DIVSQ =>
      rcases exists_of_binary hRhs with ⟨a, b, ha, hb, rfl⟩
      have h0 := hArg 0 a (by simp) ha
      have hX :
          (adaptToSingleScalar b).eval A s =
            vec (fun _ => x 1 .X) :=
        eval_swizzle (hArg 1 b (by simp) hb) _
      simp only [scalarInvocation, Expression.eval, evalAll,
        h0, hX]
      rfl
  | COS | EX2 | LG2 | RSQ | SIN | RCP =>
      rcases exists_of_unary hRhs with ⟨a, ha, rfl⟩
      have hX :
          (adaptToSingleScalar a).eval A s =
            vec (fun _ => x 0 .X) :=
        eval_swizzle (hArg 0 a (by simp) ha) _
      simp only [scalarInvocation, splat, Expression.eval,
        evalAll, hX]
      rfl
  | FLR | FRC | NRM | UPB =>
      rcases exists_of_unary hRhs with ⟨a, ha, rfl⟩
      have h0 := hArg 0 a (by simp) ha
      simp only [Expression.eval, evalAll, h0]
      rfl
  | MAD =>
      rcases exists_of_ternary hRhs with
        ⟨a, b, c, ha, hb, hc, rfl⟩
      have h0 := hArg 0 a (by simp) ha
      have h1 := hArg 1 b (by simp) hb
      have h2 := hArg 2 c (by simp) hc
      simp only [Expression.eval, h0, h1, h2]
      rfl
  | MOV => exact hArg 0 e (by simp) hRhs
  | SFL | STR =>
      obtain rfl := Option.some.inj hRhs
      simp only [vec4Of, Expression.eval, evalAll]
      rfl
  | TEX | TXP =>
      rcases exists_of_texture hRhs with
        ⟨a, num, ha, hb, rfl⟩
      have h0 := hArg 0 a (by simp) ha
      obtain rfl := hTexture num hb (by simp)
      simp only [Expression.eval, evalAll, h0]
      rfl
  | _ => cases hRhs

/- The dot products make one number. -/
theorem eval_fragmentRhs_scalar
    (texNum : Int)
    (hArg :
      ∀ n e, (n = 1 → op ≠ .TEX ∧ op ≠ .TXP) →
        arg n = some e → e.eval A s = vec (x n))
    (hScalar : isScalarRhs op = true)
    (hRhs : fragmentRhs op arg = some e) :
    ∃ v,
      e.eval A s = [v] ∧
        fragmentOpValue A op texNum x = fun _ => v := by
  cases op with
  | DP2 | DP3 | DP4 =>
      rcases exists_of_binary hRhs with ⟨a, b, ha, hb, rfl⟩
      have h0 := hArg 0 a (by simp) ha
      have h1 := hArg 1 b (by simp) hb
      simp only [maskedDot, Expression.eval, evalAll, h0, h1]
      exact ⟨_, rfl, rfl⟩
  | _ => cases hScalar

end

------------------------------------------------------------
-- Scaled and Clamped Values
------------------------------------------------------------

variable {constIndex : Nat}

def scaleValue (A : Arithmetic V) (scale : ScaleMod) (v : V) :
    V :=
  match scaleFactor scale with
  | none => v
  | some factor => A.apply .mul [A.literal factor, v]

def clampValue
    (A : Arithmetic V)
    (i : FragmentInstr)
    (v : V) : V :=
  if i.isSat then A.apply .clamp [v, A.literal 0, A.literal 1]
  else if i.clamp = .X then
    A.apply .clamp [v, A.literal (-2), A.literal 2]
  else if i.clamp = .B then
    A.apply .clamp [v, A.literal (-1), A.literal 1]
  else v

theorem eval_scaled (scale : ScaleMod) (e : Expression) :
    (scaled scale e).eval A s =
      (e.eval A s).map (scaleValue A scale) := by
  rw [scaled]
  cases hFactor : scaleFactor scale with
  | none =>
      have hSame : scaleValue A scale = id := by
        funext v
        rw [scaleValue, hFactor]
        rfl
      rw [hSame, List.map_id]
  | some factor =>
      have hScale :
          scaleValue A scale =
            fun v => A.apply .mul [A.literal factor, v] := by
        funext v
        rw [scaleValue, hFactor]
      rw [hScale, Expression.eval, Expression.eval]
      rfl

theorem eval_clamp (e : Expression) (lo hi : Rat) :
    (clamp e lo hi).eval A s =
      (e.eval A s).map (fun v =>
        A.apply .clamp [v, A.literal lo, A.literal hi]) := by
  simp only [clamp, Expression.eval, evalAll]
  rfl

theorem eval_clamped (e : Expression) :
    (clamped i e).eval A s =
      (e.eval A s).map (clampValue A i) := by
  rw [clamped]
  split
  case isTrue hSat =>
    rw [eval_clamp]
    exact List.map_congr_left (fun v _ => (if_pos hSat).symm)
  case isFalse hSat =>
    split
    case isTrue hX =>
      rw [eval_clamp]
      apply List.map_congr_left
      intro v _
      rw [clampValue, if_neg hSat, if_pos hX]
    case isFalse hX =>
      split
      case isTrue hB =>
        rw [eval_clamp]
        apply List.map_congr_left
        intro v _
        rw [clampValue, if_neg hSat, if_neg hX, if_pos hB]
      case isFalse hB =>
        have hSame : clampValue A i = id := by
          funext v
          rw [clampValue, if_neg hSat, if_neg hX, if_neg hB]
          rfl
        rw [hSame, List.map_id]

/- What an instruction assigns to a component. -/
def fragmentValue
    (A : Arithmetic V)
    (s : Location → V)
    (i : FragmentInstr)
    (constIndex : Nat)
    (k : Swizzle2bit) : V :=
  clampValue A i
    (scaleValue A i.scale
      (fragmentOpValue A i.opcode.instr i.texNum
        (argumentValue A s i constIndex) k))

/- The opcodes of textures are fetches, or not implemented. -/
theorem tex_of_mem :
    ∀ opcode ∈ fragmentOpcodes, opcode.tex = true →
      (opcode.instr = .TEX ∨ opcode.instr = .TXP) ∧
          opcode.opCount = 2 ∨
        opcode.instr ∈
          [FragmentOp.TXD, .TXL, .TXB, .TEXBEM, .TXPBEM,
            .TIMESWTEX] := by
  decide

theorem opcode_mem_of_dasm
    {instr : Slot}
    {next : Option Slot}
    {size : Nat}
    (hDasm : fragmentDasmInstr instr next = some (i, size)) :
    i.opcode ∈ fragmentOpcodes := by
  rcases Option.bind_eq_some_iff.mp hDasm with
    ⟨opcode, hOpcode, hRest⟩
  rcases Option.map_eq_some_iff.mp hRest with
    ⟨arguments, -, hPair⟩
  obtain ⟨rfl, -⟩ := Prod.mk.inj hPair
  exact List.mem_of_getElem? hOpcode

/- Of an implemented operation only a fetch has a texture. -/
theorem not_isTexture
    {n : Nat}
    {e : Expression}
    {arg : Nat → Option Expression}
    (hOpcode : i.opcode ∈ fragmentOpcodes)
    (hRhs : fragmentRhs i.opcode.instr arg = some e)
    (hFetch :
      n = 1 → i.opcode.instr ≠ .TEX ∧ i.opcode.instr ≠ .TXP) :
    ¬ isTexture i n := by
  rintro ⟨hTex, hLast⟩
  rcases tex_of_mem i.opcode hOpcode hTex with
    ⟨hInstr, hCount⟩ | hOther
  · have hn : n = 1 := by omega
    rcases hInstr with hInstr | hInstr
    · exact (hFetch hn).1 hInstr
    · exact (hFetch hn).2 hInstr
  · simp only [List.mem_cons, List.not_mem_nil, or_false]
      at hOther
    rcases hOther with h | h | h | h | h | h <;>
      rw [h] at hRhs <;> cases hRhs

/- A texture that is modified is not a literal any more. -/
theorem texNum_of_convertArgument
    {n : Nat}
    {num : Int}
    (hArg :
      convertArgument i constIndex n =
        some (.integerLiteral num)) :
    num = i.texNum := by
  rcases Option.bind_eq_some_iff.mp hArg with
    ⟨arg, -, hRest⟩
  rcases Option.map_eq_some_iff.mp hRest with
    ⟨operand, hOperand, hEq⟩
  split at hOperand
  case isTrue =>
    obtain rfl := Option.some.inj hOperand
    revert hEq
    simp only [modified]
    split_ifs <;> intro hEq <;> cases hEq
    rfl
  case isFalse =>
    exfalso
    rw [argumentOperand] at hOperand
    cases hType : arg.type <;> rw [hType] at hOperand <;>
      cases hOperand <;> revert hEq <;>
      simp only [modified, fconst] <;> split_ifs <;>
      intro hEq <;> cases hEq

/- The value before it is selected by the condition. -/
theorem eval_value
    {e : Expression}
    (hOpcode : i.opcode ∈ fragmentOpcodes)
    (hRhs :
      fragmentRhs i.opcode.instr
          (convertArgument i constIndex) =
        some e) :
    (isScalarRhs i.opcode.instr = false →
      (clamped i (scaled i.scale e)).eval A s =
        vec (fragmentValue A s i constIndex)) ∧
    (isScalarRhs i.opcode.instr = true →
      ∃ v,
        (clamped i (scaled i.scale e)).eval A s = [v] ∧
          fragmentValue A s i constIndex = fun _ => v) := by
  have hArg :
      ∀ n e,
        (n = 1 →
          i.opcode.instr ≠ .TEX ∧ i.opcode.instr ≠ .TXP) →
        convertArgument i constIndex n = some e →
        e.eval A s = vec (argumentValue A s i constIndex n) :=
    fun n e hFetch hArg =>
      eval_convertArgument hArg
        (not_isTexture hOpcode hRhs hFetch)
  rw [eval_clamped, eval_scaled]
  constructor
  · intro hScalar
    rw [eval_fragmentRhs hArg
      (fun num hNum _ => texNum_of_convertArgument hNum)
      hScalar hRhs]
    rfl
  · intro hScalar
    rcases eval_fragmentRhs_scalar i.texNum hArg hScalar
        hRhs with ⟨v, hv, hSame⟩
    refine ⟨clampValue A i (scaleValue A i.scale v), ?_, ?_⟩
    · rw [hv]
      rfl
    · funext k
      rw [fragmentValue, hSame]

------------------------------------------------------------
-- Assignments of an Instruction
------------------------------------------------------------

variable {rhs : Expression}

/- The condition register that an instruction names. -/
def condLocation (i : FragmentInstr) (k : Swizzle2bit) :
    Location :=
  ⟨"c", if i.control = .C0 then 0 else 1, k⟩

/- A component of the register that an instruction writes. -/
def destLocation (i : FragmentInstr) (k : Swizzle2bit) :
    Location :=
  if i.isRegC then condLocation i k
  else ⟨registerName i.reg, i.regNum, k⟩

theorem exists_destination (i : FragmentInstr) :
    ∃ name : String, ∃ index : Int,
      destination i =
          .variable name (some (.integerLiteral index)) ∧
        destLocation i = fun k => ⟨name, index, k⟩ := by
  cases hRegC : i.isRegC with
  | false =>
      refine ⟨registerName i.reg, i.regNum, ?_, ?_⟩
      · simp [destination, hRegC]
      · funext k
        simp [destLocation, hRegC]
  | true =>
      refine ⟨"c", if i.control = .C0 then 0 else 1, ?_, ?_⟩
      · simp only [destination, hRegC, if_true, cRegister]
        split <;> rfl
      · funext k
        simp [destLocation, hRegC, condLocation]

/- The components that a single number is assigned to. -/
theorem exists_mask_assigned
    (mask : DestMask)
    (name : String)
    (index : Int)
    (v : V) :
    ∃ mask' : DestMask,
      assigned
          (mask.comps.map
            (fun c => Location.mk name index c)) [v] =
        maskedWrites mask'
          (fun c => ⟨name, index, c⟩) (fun _ => v) ∧
        ∀ k, mask'.has k = true → mask.has k = true := by
  by_cases hOne : mask.comps.length = 1
  · refine ⟨mask, ?_, fun _ => id⟩
    rcases List.length_eq_one_iff.mp hOne with ⟨c, hc⟩
    rw [maskedWrites, hc]
    rfl
  · refine ⟨⟨mask.x, false, false, false⟩, ?_, ?_⟩
    · rcases mask with ⟨x, y, z, w⟩
      cases x <;> cases y <;> cases z <;> cases w <;>
        first | rfl | exact absurd rfl hOne
    · intro k hk
      cases k with
      | X => exact hk
      | _ => cases hk

/- A whole vector is assigned to some components. -/
theorem assigned_vec
    (mask : DestMask)
    (name : String)
    (index : Int)
    (f : Swizzle2bit → V) :
    assigned
        (mask.comps.map (fun c => Location.mk name index c))
        (vec f) =
      maskedWrites mask (fun c => ⟨name, index, c⟩) f := by
  by_cases hFull : mask.arity = 4
  · have hVec : vec f = mask.comps.map f := by
      rw [comps_of_arity hFull, map_vec]
      rfl
    rw [hVec, assigned_map, maskedWrites]
  · have hLength :
        ¬ (mask.comps.map
              (fun c => Location.mk name index c)).length =
            (vec f).length := by
      rw [List.length_map, length_comps]
      exact hFull
    rw [assigned, if_neg hLength, List.filterMap_map,
      maskedWrites, ← List.filterMap_eq_map]
    apply List.filterMap_congr
    intro c _
    simp only [Function.comp_apply, pick_vec, Option.map_some]

/- The first statement selects what it assigns. -/
theorem writes_value
    (hOpcode : i.opcode ∈ fragmentOpcodes)
    (hRhs :
      fragmentRhs i.opcode.instr
          (convertArgument i constIndex) =
        some rhs) :
    ∃ mask : DestMask,
      (Statement.assignment Statement.noAddress
          (.componentMask (destination i) i.destMask)
          (if isScalarRhs i.opcode.instr then
            appendCondition i.condition
              (clamped i (scaled i.scale rhs)) (destination i)
          else
            .componentMask
              (appendCondition i.condition
                (clamped i (scaled i.scale rhs))
                (destination i)) i.destMask)).writes A s =
        maskedWrites mask (destLocation i) (fun k =>
          if holdsAt A s i.condition k then
            fragmentValue A s i constIndex k
          else s (destLocation i k)) ∧
        (∀ k, mask.has k = true → i.destMask.has k = true) ∧
          (i.condition.relation ≠ .TR → mask = i.destMask) := by
  rcases exists_destination i with ⟨name, index, hDest, hLoc⟩
  rcases eval_value (A := A) (s := s) hOpcode hRhs with
    ⟨hVector, hScalar⟩
  have hOld :
      (destination i).eval A s =
        vec (fun k => s (destLocation i k)) := by
    rw [hDest, eval_variable, hLoc]
    rfl
  have hTargets :
      targets A s (.componentMask (destination i) i.destMask) =
        i.destMask.comps.map
          (fun c => Location.mk name index c) := by
    rw [hDest, targets]
    rfl
  rw [Statement.writes, hTargets]
  cases hKind : isScalarRhs i.opcode.instr with
  | false =>
      have hSelect :=
        eval_appendCondition i.condition (hVector hKind) hOld
      refine ⟨i.destMask, ?_, fun _ => id, fun _ => rfl⟩
      rw [if_neg Bool.false_ne_true,
        eval_componentMask hSelect, assigned_map, hLoc,
        maskedWrites]
  | true =>
      rcases hScalar hKind with ⟨v, hv, hSame⟩
      rw [if_pos rfl]
      by_cases hRel : i.condition.relation = .TR
      · have hNone : makeCondition i.condition = none := by
          rw [makeCondition, hRel]
          rfl
        rcases exists_mask_assigned i.destMask name index v
          with ⟨mask, hMask, hSub⟩
        refine ⟨mask, ?_, hSub, fun hNe => absurd hRel hNe⟩
        have hHolds := fun k =>
          holdsAt_of_TR (A := A) (s := s) (k := k) hRel
        simp only [appendCondition, hNone, hv, hHolds, if_true,
          hSame, hLoc]
        exact hMask
      · refine ⟨i.destMask, ?_, fun _ => id, fun _ => rfl⟩
        have hBroadcast :
            broadcast
                ((clamped i (scaled i.scale rhs)).eval A s) =
              vec (fragmentValue A s i constIndex) := by
          rw [hv, hSame]
          rfl
        have hSome : makeCondition i.condition ≠ none := by
          rw [makeCondition]
          cases hCond : i.condition.relation with
          | TR => exact absurd hCond hRel
          | _ => simp [relationToFunction]
        rcases Option.ne_none_iff_exists'.mp hSome with
          ⟨relation, hRelation⟩
        simp only [appendCondition, hRelation]
        rw [eval_mix hRelation hBroadcast hOld, hLoc]
        exact assigned_vec i.destMask name index _

/- The update copies what the destination holds now. -/
theorem writes_update
    {st : Statement}
    (hUpdate :
      makeCAssignment i.control i.isRegC
          (.componentMask (destination i) i.destMask) =
        some st) :
    i.isRegC = false ∧ i.control ≠ .None ∧
      ∀ s : Location → V,
        st.writes A s =
          maskedWrites i.destMask (condLocation i)
            (fun k => s (destLocation i k)) := by
  rw [makeCAssignment, Option.ite_none_right_eq_some] at hUpdate
  rcases hUpdate with ⟨⟨hControl, hRegC⟩, hSt⟩
  obtain rfl := Option.some.inj hSt
  refine ⟨hRegC, hControl, fun s => ?_⟩
  rcases exists_destination i with ⟨name, index, hDest, hLoc⟩
  have hValue :
      (destination i).eval A s =
        vec (fun k => s (destLocation i k)) := by
    rw [hDest, eval_variable, hLoc]
    rfl
  rw [Statement.writes, eval_componentMask hValue, cRegister,
    targets, assigned_map, maskedWrites]
  have hIndex :
      ((if i.control = .C0 then 0 else 1 : Nat) : Int) =
        if i.control = .C0 then 0 else 1 := by
    split <;> rfl
  simp only [indexOf, hIndex, condLocation]

theorem apply_destWrites
    (s : Location → V)
    (mask : DestMask)
    (f : Swizzle2bit → V)
    (k : Swizzle2bit) :
    Writes.apply s (maskedWrites mask (destLocation i) f)
        (destLocation i k) =
      if mask.has k = true then f k
      else s (destLocation i k) := by
  rcases exists_destination i with ⟨name, index, -, hLoc⟩
  rw [hLoc, apply_maskedWrites]
  simp

theorem apply_condWrites
    (s : Location → V)
    (mask : DestMask)
    (f : Swizzle2bit → V)
    (l : Location) :
    Writes.apply s (maskedWrites mask (condLocation i) f) l =
      if l.name = "c" ∧
          l.index = (if i.control = .C0 then 0 else 1) ∧
            mask.has l.comp = true then f l.comp
      else s l :=
  apply_maskedWrites s mask "c" _ f l

theorem registerName_ne_c (t : RegType) :
    registerName t ≠ "c" := by
  cases t <;> decide

theorem name_destLocation
    (hRegC : i.isRegC = false)
    (k : Swizzle2bit) :
    (destLocation i k).name ≠ "c" := by
  simp only [destLocation, hRegC, Bool.false_eq_true, if_false]
  exact registerName_ne_c i.reg

/- The state after an instruction that assigns. -/
theorem after_assignments
    (hOpcode : i.opcode ∈ fragmentOpcodes)
    (hRhs :
      fragmentRhs i.opcode.instr
          (convertArgument i constIndex) =
        some rhs) :
    ∃ mask : DestMask,
      (∀ k, mask.has k = true → i.destMask.has k = true) ∧
      (i.condition.relation ≠ .TR → mask = i.destMask) ∧
      (∀ k,
        Parallel.after (block A (assignments i rhs)) s
            (destLocation i k) =
          if mask.has k = true ∧
              holdsAt A s i.condition k = true then
            fragmentValue A s i constIndex k
          else s (destLocation i k)) ∧
      (i.isRegC = false → i.control ≠ .None →
        ∀ k,
          Parallel.after (block A (assignments i rhs)) s
              (condLocation i k) =
            if i.destMask.has k = true then
              Parallel.after (block A (assignments i rhs)) s
                (destLocation i k)
            else s (condLocation i k)) := by
  rcases writes_value (A := A) (s := s) hOpcode hRhs with
    ⟨mask, hWrites, hSub, hMask⟩
  refine ⟨mask, hSub, hMask, ?_⟩
  have hFirst :
      ∀ k,
        Writes.apply s
            (maskedWrites mask (destLocation i) (fun k =>
              if holdsAt A s i.condition k then
                fragmentValue A s i constIndex k
              else s (destLocation i k)))
            (destLocation i k) =
          if mask.has k = true ∧
              holdsAt A s i.condition k = true then
            fragmentValue A s i constIndex k
          else s (destLocation i k) := by
    intro k
    rw [apply_destWrites]
    by_cases hk : mask.has k <;> simp [hk]
  rw [assignments, block, Parallel.after_inOrder]
  simp only [Parallel.after, hWrites]
  cases hUpdate :
      makeCAssignment i.control i.isRegC
        (.componentMask (destination i) i.destMask) with
  | none =>
      refine ⟨hFirst, fun hRegC hControl => ?_⟩
      rw [makeCAssignment, if_pos ⟨hControl, hRegC⟩] at hUpdate
      cases hUpdate
  | some st =>
      rcases writes_update (A := A) hUpdate with
        ⟨hRegC, hControl, hCopy⟩
      have hOne :
          ∀ t : Location → V,
            block A (some st).toList t =
              maskedWrites i.destMask (condLocation i)
                (fun k => t (destLocation i k)) := by
        intro t
        rw [Option.toList_some, block, ← hCopy t]
        exact List.append_nil _
      have hDest :
          ∀ (t : Location → V) k,
            Writes.apply t
                (maskedWrites i.destMask (condLocation i)
                  (fun k => t (destLocation i k)))
                (destLocation i k) =
              t (destLocation i k) := by
        intro t k
        rw [apply_condWrites, if_neg]
        exact fun hc => name_destLocation hRegC k hc.1
      constructor
      · intro k
        rw [hOne, hDest, hFirst]
      · intro _ _ k
        rw [hOne, hDest, hFirst, apply_condWrites]
        simp only [condLocation, true_and, hFirst]
        split
        case isTrue => rfl
        case isFalse =>
          rcases exists_destination i with
            ⟨name, index, -, hLoc⟩
          have hName := name_destLocation hRegC .X
          rw [hLoc] at hName
          rw [hLoc, apply_maskedWrites, if_neg]
          exact fun hc => hName hc.1.symm

------------------------------------------------------------
-- Guards of an Instruction
------------------------------------------------------------

variable {sts : List Statement}

/- The operations that assign to a register. -/
def FragmentInstr.Assigns (i : FragmentInstr) : Prop :=
  i.opcode.instr ∉
    [FragmentOp.NOP, .FENCB, .FENCT, .IFE, .KIL]

instance (i : FragmentInstr) : Decidable i.Assigns :=
  inferInstanceAs (Decidable (_ ∉ _))

/-
  A component of the destination changes only where the mask
  has it and the condition holds, and there a condition
  register that is updated gets the value written.
-/
def GuardedWrites
    (i : FragmentInstr)
    (sts : List Statement) : Prop :=
  ∀ (V : Type) (A : Arithmetic V) (s : Location → V) k,
    let t := Parallel.after (block A sts) s
    let guarded :=
      i.destMask.has k && guardHolds A s i.condition k
    (guarded = false →
      t (destLocation i k) = s (destLocation i k)) ∧
    (i.Assigns → i.control ≠ .None → i.isRegC = false →
      t (condLocation i k) =
        if guarded then t (destLocation i k)
        else s (condLocation i k))

/- A move of a component of a register to itself. -/
def KeepsComponent
    (i : FragmentInstr)
    (k : Swizzle2bit) : Prop :=
  i.opcode.instr = .MOV ∧
    scaleFactor i.scale = none ∧
      i.isSat = false ∧ i.clamp ≠ .X ∧ i.clamp ≠ .B ∧
        i.isRegC = false ∧
          ∃ arg,
            i.arguments[0]? = some arg ∧ arg.type = .Temp ∧
              arg.isNeg = false ∧ arg.isAbs = false ∧
                arg.regType = i.reg ∧
                  arg.regNum = i.regNum ∧
                    arg.swizzle.get k = k

/-
  The relation that never holds leaves nothing to be written,
  and a condition register is updated unconditionally.
-/
def WritesAreGuarded (i : FragmentInstr) : Prop :=
  (i.condition.relation = .FL →
    ∀ k, i.destMask.has k = true → KeepsComponent i k) ∧
  (i.control ≠ .None → i.isRegC = false →
    i.condition.relation = .TR ∨
      ∀ k, i.destMask.has k = false)

theorem fragmentValue_of_keeps
    {V : Type}
    {A : Arithmetic V}
    {s : Location → V}
    (hKeeps : KeepsComponent i k) :
    fragmentValue A s i constIndex k =
      s (destLocation i k) := by
  rcases hKeeps with
    ⟨hOp, hScale, hSat, hX, hB, hRegC, arg, hArg, hType, hNeg,
      hAbs, hReg, hNum, hSwizzle⟩
  simp [fragmentValue, clampValue, scaleValue, hOp, hScale,
    hSat, hX, hB, fragmentOpValue, argumentValue, hArg,
    modify, hNeg, hAbs, argumentLocation, hType, hReg, hNum,
    hSwizzle, destLocation, hRegC]

theorem registerName_injective :
    Function.Injective registerName := by
  intro t u
  cases t <;> cases u <;> decide

theorem fconstName_ne : "fconst.c" ≠ "c" := by
  decide

theorem attrName_ne_c (attr : InputAttr) :
    "f_" ++ printAttr attr ≠ "c" := by
  cases attr <;> decide

theorem attrName_ne_registerName
    (attr : InputAttr)
    (t : RegType) :
    "f_" ++ printAttr attr ≠ registerName t := by
  cases attr <;> cases t <;> decide

theorem name_argumentLocation
    (arg : FragmentArgument)
    (c : Swizzle2bit) :
    (argumentLocation i constIndex arg c).name ≠ "c" := by
  simp only [argumentLocation]
  cases arg.type with
  | Const => exact fconstName_ne
  | Attr => exact attrName_ne_c i.inputAttr
  | Temp | Illegal => exact registerName_ne_c arg.regType

/- An operand that is a component of the destination. -/
theorem operand_of_location
    {arg : FragmentArgument}
    {c k : Swizzle2bit}
    (hType : arg.type ≠ .Illegal)
    (hLoc :
      argumentLocation i constIndex arg c = destLocation i k) :
    i.isRegC = false ∧ arg.type = .Temp ∧
      arg.regType = i.reg ∧ arg.regNum = i.regNum ∧ c = k := by
  cases hRegC : i.isRegC with
  | true =>
      have hName := congrArg Location.name hLoc
      simp only [destLocation, hRegC, if_true, condLocation]
        at hName
      exact absurd hName (name_argumentLocation arg c)
  | false =>
      simp only [destLocation, hRegC, Bool.false_eq_true,
        if_false, argumentLocation] at hLoc
      refine ⟨rfl, ?_⟩
      cases hArg : arg.type with
      | Illegal => exact absurd hArg hType
      | Temp =>
          rw [hArg] at hLoc
          obtain ⟨hName, hNum, rfl⟩ := Location.mk.inj hLoc
          exact
            ⟨rfl, registerName_injective hName,
              Int.ofNat.inj hNum, rfl⟩
      | Const =>
          rw [hArg] at hLoc
          have hName := congrArg Location.name hLoc
          exact absurd hName.symm (registerName_ne i.reg)
      | Attr =>
          rw [hArg] at hLoc
          have hName := congrArg Location.name hLoc
          exact
            absurd hName
              (attrName_ne_registerName i.inputAttr i.reg)

/- What leaves every term alone is a move to itself. -/
theorem keeps_of_fragmentValue
    {outcome : Bool}
    (hOpcode : i.opcode ∈ fragmentOpcodes)
    (hRhs :
      fragmentRhs i.opcode.instr
          (convertArgument i constIndex) =
        some rhs)
    (hOld :
      fragmentValue (symbolic outcome) Sym.old i constIndex k =
        .old (destLocation i k)) :
    KeepsComponent i k := by
  rw [fragmentValue, clampValue] at hOld
  split_ifs at hOld with hSat hX hB
  · cases hOld
  · cases hOld
  · cases hOld
  rw [scaleValue] at hOld
  cases hScale : scaleFactor i.scale with
  | some factor =>
      rw [hScale] at hOld
      cases hOld
  | none =>
      simp only [hScale] at hOld
      have hOp := op_eq_of_symbolic hOld
      have hTexture : ¬ isTexture i 0 :=
        not_isTexture hOpcode hRhs (by simp)
      rw [hOp] at hOld hRhs
      rcases Option.bind_eq_some_iff.mp hRhs with
        ⟨arg, hArg, hRest⟩
      have hType : arg.type ≠ .Illegal := by
        intro hIllegal
        have hNone :
            convertArgument i constIndex 0 = none := by
          rw [convertArgument, hArg, Option.bind_some,
            if_neg hTexture, argumentOperand, hIllegal]
          rfl
        rw [fragmentRhs, hNone] at hRhs
        cases hRhs
      simp only [fragmentOpValue, argumentValue, hArg] at hOld
      rcases eq_old_of_modify hOld with ⟨hNeg, hAbs, hLoc⟩
      rcases operand_of_location hType hLoc with
        ⟨hRegC, hTemp, hReg, hNum, hSwizzle⟩
      exact
        ⟨hOp, hScale, Bool.not_eq_true _ ▸ hSat, hX, hB, hRegC,
          arg, hArg, hTemp, hNeg, hAbs, hReg, hNum, hSwizzle⟩

theorem make_of_assigns
    (hAssigns : i.Assigns)
    (hSts : makeFragmentStatement i constIndex = some sts) :
    ∃ rhs,
      fragmentRhs i.opcode.instr
          (convertArgument i constIndex) =
        some rhs ∧
        sts = assignments i rhs := by
  simp only [FragmentInstr.Assigns, List.mem_cons,
    List.not_mem_nil, or_false, not_or] at hAssigns
  rcases hAssigns with ⟨hNop, hFencb, hFenct, hIfe, hKil⟩
  cases made_of_makeFragmentStatement hSts with
  | assigns hRhs => exact ⟨_, hRhs, rfl⟩
  | _ =>
      rw [makeFragmentStatement] at hSts
      split at hSts
      case h_1 hOp => exact absurd hOp hNop
      case h_2 hOp => exact absurd hOp hFencb
      case h_3 hOp => exact absurd hOp hFenct
      case h_4 =>
        split at hSts
        case isTrue => cases hSts
        case isFalse =>
          split at hSts
          case h_1 hOp => exact absurd hOp hIfe
          case h_2 hOp => exact absurd hOp hKil
          case h_3 =>
            rcases Option.map_eq_some_iff.mp hSts with
              ⟨rhs, hRhs, hEq⟩
            exact ⟨rhs, hRhs, hEq.symm⟩

/- The other operations assign nothing. -/
theorem block_of_not_assigns
    {V : Type}
    {A : Arithmetic V}
    {s : Location → V}
    (hAssigns : ¬ i.Assigns)
    (hSts : makeFragmentStatement i constIndex = some sts) :
    block A sts s = [] := by
  cases made_of_makeFragmentStatement hSts with
  | assigns hRhs =>
      simp only [FragmentInstr.Assigns, not_not, List.mem_cons,
        List.not_mem_nil, or_false] at hAssigns
      rcases hAssigns with h | h | h | h | h <;>
        rw [h] at hRhs <;> cases hRhs
  | _ => rfl

/- Nothing but a move to itself is hidden by a false relation. -/
theorem keeps_of_guardedWrites
    (hOpcode : i.opcode ∈ fragmentOpcodes)
    (hRhs :
      fragmentRhs i.opcode.instr
          (convertArgument i constIndex) =
        some rhs)
    (hGuarded : GuardedWrites i (assignments i rhs))
    (hRel : i.condition.relation = .FL)
    (hk : i.destMask.has k = true) :
    KeepsComponent i k := by
  rcases after_assignments (A := symbolic true) (s := Sym.old)
      hOpcode hRhs with ⟨mask, -, hMask, hDest, -⟩
  have hNever :
      (i.destMask.has k &&
          guardHolds (symbolic true) Sym.old i.condition k) =
        false := by
    rw [guardHolds_of_FL hRel, Bool.and_false]
  have hSame :=
    (hGuarded Sym (symbolic true) Sym.old k).1 hNever
  have hNe : i.condition.relation ≠ .TR := by
    rw [hRel]
    decide
  rw [hDest k, hMask hNe,
    if_pos ⟨hk, holdsAt_symbolic_true⟩] at hSame
  exact keeps_of_fragmentValue hOpcode hRhs hSame

/- A copy is not guarded, unless the condition is trivial. -/
theorem trivial_of_guardedWrites
    (hOpcode : i.opcode ∈ fragmentOpcodes)
    (hRhs :
      fragmentRhs i.opcode.instr
          (convertArgument i constIndex) =
        some rhs)
    (hGuarded : GuardedWrites i (assignments i rhs))
    (hAssigns : i.Assigns)
    (hControl : i.control ≠ .None)
    (hRegC : i.isRegC = false)
    (hRel : i.condition.relation ≠ .TR) :
    i.destMask.has k = false := by
  rw [← Bool.not_eq_true]
  intro hk
  rcases after_assignments (A := symbolic false) (s := Sym.old)
      hOpcode hRhs with ⟨mask, -, -, hDest, hCond⟩
  have hOld :=
    (hGuarded Sym (symbolic false) Sym.old k).2 hAssigns
      hControl hRegC
  simp only [hCond hRegC hControl k, hDest k, hk,
    guardHolds_symbolic_false hRel, holdsAt_symbolic hRel,
    if_true, Bool.and_false, Bool.false_eq_true, and_false,
    if_false] at hOld
  have hName := congrArg Location.name (Sym.old.inj hOld)
  exact name_destLocation hRegC k hName

theorem guardedWrites_of_assigns
    (hOpcode : i.opcode ∈ fragmentOpcodes)
    (hRhs :
      fragmentRhs i.opcode.instr
          (convertArgument i constIndex) =
        some rhs)
    (hRight : WritesAreGuarded i) :
    GuardedWrites i (assignments i rhs) := by
  rcases hRight with ⟨hNever, hUpdate⟩
  intro V A s k
  rcases after_assignments (A := A) (s := s) hOpcode hRhs with
    ⟨mask, hSub, -, hDest, hCond⟩
  constructor
  · intro hFails
    rw [hDest k]
    split
    case isFalse => rfl
    case isTrue hWritten =>
      have hk := hSub k hWritten.1
      rw [hk, Bool.true_and] at hFails
      by_cases hRel : i.condition.relation = .FL
      · exact fragmentValue_of_keeps (hNever hRel k hk)
      · rw [← holdsAt_eq_guardHolds hRel, hWritten.2] at hFails
        cases hFails
  · intro _ hControl hRegC
    rw [hCond hRegC hControl k]
    rcases hUpdate hControl hRegC with hRel | hEmpty
    · simp only [guardHolds_of_TR hRel, Bool.and_true]
    · simp only [hEmpty k, Bool.false_and, Bool.false_eq_true,
        if_false]

/-
  The writes of an instruction are guarded if and only if it
  does not rely on the relation that never holds, nor on the
  guard of a condition register.
-/
theorem guardedWrites_iff
    {instr : Slot}
    {next : Option Slot}
    {size : Nat}
    (hDasm : fragmentDasmInstr instr next = some (i, size))
    (hSts : makeFragmentStatement i constIndex = some sts) :
    GuardedWrites i sts ↔ (i.Assigns → WritesAreGuarded i) := by
  have hOpcode := opcode_mem_of_dasm hDasm
  by_cases hAssigns : i.Assigns
  · rw [imp_iff_right hAssigns]
    rcases make_of_assigns hAssigns hSts with
      ⟨rhs, hRhs, rfl⟩
    constructor
    · intro hGuarded
      refine ⟨?_, ?_⟩
      · intro hRel k hk
        exact
          keeps_of_guardedWrites hOpcode hRhs hGuarded hRel hk
      · intro hControl hRegC
        rw [or_iff_not_imp_left]
        intro hRel k
        exact
          trivial_of_guardedWrites hOpcode hRhs hGuarded
            hAssigns hControl hRegC hRel
    · exact guardedWrites_of_assigns hOpcode hRhs
  · refine iff_of_true ?_ (fun h => absurd h hAssigns)
    intro V A s k
    have hSame : Parallel.after (block A sts) s = s := by
      rw [Parallel.after, block_of_not_assigns hAssigns hSts]
      rfl
    rw [hSame]
    exact ⟨fun _ => rfl, fun h => absurd h hAssigns⟩

/- `MIN R0.w, R0.x, {1, 0, 0, 0}.x` with these flags. -/
def minInstr (flags relation : Byte) : Slot :=
  ![flags, 0, 8, 0, 0, 0, 0x1c, relation, 0, 2, 0, 0, 0xc8, 0,
    0, 1]

def minConst : Slot :=
  ![0, 0, 0x3f, 0x80, 0, 0, 0, 0, 0, 0, 0, 0, 0, 0, 0, 0]

/- What is decoded, and that statements are made from it. -/
theorem exists_minInstr
    (flags relation : Byte)
    (rel : Cond)
    (control : ControlMod)
    (hFacts :
      (fragmentDasmInstr (minInstr flags relation)
            (some minConst)).map
          (fun r =>
            (r.1.opcode.instr, r.1.condition.relation,
              r.1.control, r.1.isRegC, r.1.destMask.has .W)) =
        some (.MIN, rel, control, false, true))
    (hMade :
      ((fragmentDasmInstr (minInstr flags relation)
            (some minConst)).bind
          (fun r => makeFragmentStatement r.1 0)).isSome =
        true) :
    ∃ i size sts,
      fragmentDasmInstr (minInstr flags relation)
            (some minConst) =
          some (i, size) ∧
        makeFragmentStatement i 0 = some sts ∧
          i.opcode.instr = .MIN ∧
            i.condition.relation = rel ∧
              i.control = control ∧ i.isRegC = false ∧
                i.destMask.has .W = true := by
  rcases Option.map_eq_some_iff.mp hFacts with
    ⟨⟨i, size⟩, hDasm, hEq⟩
  rw [hDasm, Option.bind_some] at hMade
  rcases Option.isSome_iff_exists.mp hMade with ⟨sts, hSts⟩
  simp only [Prod.mk.injEq] at hEq
  exact ⟨i, size, sts, hDasm, hSts, hEq⟩

/- An unconditional instruction updates `C0` as it should. -/
theorem guardedWrites_minrc :
    ∃ i size sts,
      fragmentDasmInstr (minInstr 0x11 0x9c)
            (some minConst) =
          some (i, size) ∧
        makeFragmentStatement i 0 = some sts ∧
          GuardedWrites i sts := by
  rcases exists_minInstr 0x11 0x9c .TR .C0 (by decide)
      (by decide) with
    ⟨i, size, sts, hDasm, hSts, hOp, hRel, -⟩
  refine ⟨i, size, sts, hDasm, hSts, ?_⟩
  rw [guardedWrites_iff hDasm hSts]
  refine fun _ => ⟨fun hFalse => ?_, fun _ _ => .inl hRel⟩
  rw [hRel] at hFalse
  cases hFalse

/-
  With the relation `LT` the update of `C0` is not guarded,
  and with `FL` the destination is written.
-/
theorem guardedWrites_fails :
    ∃ i size sts j size' sts',
      fragmentDasmInstr (minInstr 0x11 0x84)
            (some minConst) =
          some (i, size) ∧
        makeFragmentStatement i 0 = some sts ∧
          ¬ GuardedWrites i sts ∧
      fragmentDasmInstr (minInstr 0x10 0x80)
            (some minConst) =
          some (j, size') ∧
        makeFragmentStatement j 0 = some sts' ∧
          ¬ GuardedWrites j sts' := by
  rcases exists_minInstr 0x11 0x84 .LT .C0 (by decide)
      (by decide) with
    ⟨i, size, sts, hDasm, hSts, hOp, hRel, hControl, hRegC, hk⟩
  rcases exists_minInstr 0x10 0x80 .FL .None (by decide)
      (by decide) with
    ⟨j, size', sts', hDasm', hSts', hOp', hRel', -, -, hk'⟩
  refine
    ⟨i, size, sts, j, size', sts', hDasm, hSts, ?_, hDasm',
      hSts', ?_⟩
  · intro hGuarded
    have hAssigns : i.Assigns := by
      rw [FragmentInstr.Assigns, hOp]
      decide
    rcases make_of_assigns hAssigns hSts with
      ⟨rhs, hRhs, rfl⟩
    have hNone :=
      trivial_of_guardedWrites (k := .W)
        (opcode_mem_of_dasm hDasm) hRhs hGuarded hAssigns
        (by rw [hControl]; decide) hRegC (by rw [hRel]; decide)
    rw [hk] at hNone
    cases hNone
  · intro hGuarded
    have hAssigns : j.Assigns := by
      rw [FragmentInstr.Assigns, hOp']
      decide
    rcases make_of_assigns hAssigns hSts' with
      ⟨rhs, hRhs, rfl⟩
    have hKeeps :=
      keeps_of_guardedWrites (opcode_mem_of_dasm hDasm') hRhs
        hGuarded hRel' hk'
    have hMov := hKeeps.1
    rw [hOp'] at hMov
    cases hMov

end Shaders

end Ps3emu
