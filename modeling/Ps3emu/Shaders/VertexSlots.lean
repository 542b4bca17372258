import Ps3emu.Shaders.Guards
import Ps3emu.Shaders.VertexEvaluation

/-
  The slots of a vertex instruction.  A slot may have one
  destination or two, and its sources stand after them in the
  list of arguments.

  Key definitions include:
    * `registerLocation`
    * `ownDestinations`, `operand`
    * `valueOf`

  Key theorems include:
    * `destinations_cases`
    * `after_assign`
    * `assigned_single`
-/

------------------------------------------------------------
-- Registers
------------------------------------------------------------

namespace Ps3emu

namespace Shaders

variable {V : Type} {A : Arithmetic V} {s t : Location → V}

/- The arguments that can be destinations. -/
inductive VertexArg.IsRegister : VertexArg → Prop where
  | output (ref : VertexRef) : IsRegister (.output ref)
  | temp (num : Nat) : IsRegister (tempReg num)
  | address (a : Nat) : IsRegister (.addressReg a)
  | cond (c : Nat) : IsRegister (.condReg c)

/- Where a component of a destination is. -/
def registerLocation
    (A : Arithmetic V)
    (s : Location → V)
    (dest : VertexArg)
    (k : Swizzle2bit) : Location :=
  match dest with
  | .output ref => ⟨"v_out", refIndex A s ref, k⟩
  | .temp ref _ _ _ => ⟨"r", refIndex A s ref, k⟩
  | .addressReg a => ⟨"a", a, k⟩
  | .condReg c => ⟨"c", c, k⟩
  | _ => ⟨"", 0, k⟩

section

variable {dest : VertexArg} (hDest : dest.IsRegister)

include hDest

theorem argValue_register
    (k : Swizzle2bit) :
    argValue A s dest k = s (registerLocation A s dest k) := by
  cases hDest with
  | temp num =>
      simp only [tempReg, argValue, registerLocation, modify,
        Swizzle.get_xyzw]
      rfl
  | _ => rfl

theorem isVector_register :
    dest.IsVector := by
  cases hDest <;> exact True.intro

/- A destination is a variable with an index. -/
theorem exists_variable :
    ∃ (name : String) (index : Expression),
      convertVertexArg dest = .variable name (some index) ∧
        ∀ (V : Type) (A : Arithmetic V) (s : Location → V),
          registerLocation A s dest = fun k =>
            ⟨name, indexOf A index (index.eval A s), k⟩ := by
  cases hDest with
  | output ref => exact ⟨"v_out", _, rfl, fun _ _ _ => rfl⟩
  | temp num => exact ⟨"r", _, rfl, fun _ _ _ => rfl⟩
  | address a => exact ⟨"a", _, rfl, fun _ _ _ => rfl⟩
  | cond c => exact ⟨"c", _, rfl, fun _ _ _ => rfl⟩

theorem name_registerLocation
    (k : Swizzle2bit) :
    (registerLocation A s dest k).name ∈
      ["v_out", "r", "a", "c"] := by
  cases hDest <;> simp [registerLocation, tempReg]

theorem eval_register :
    (convertVertexArg dest).eval A s =
      vec (fun k => s (registerLocation A s dest k)) := by
  rw [eval_convertVertexArg (isVector_register hDest)]
  congr 1
  funext k
  exact argValue_register hDest k

/- The state after a register is written under a mask. -/
theorem apply_registerWrites
    (u : Location → V)
    (mask : DestMask)
    (f : Swizzle2bit → V)
    (k : Swizzle2bit) :
    Writes.apply u
        (maskedWrites mask (registerLocation A s dest) f)
        (registerLocation A s dest k) =
      if mask.has k = true then f k
      else u (registerLocation A s dest k) := by
  rcases exists_variable hDest with ⟨name, index, -, hLoc⟩
  rw [hLoc, apply_maskedWrites]
  simp

theorem apply_registerWrites_of_ne
    (u : Location → V)
    (mask : DestMask)
    (f : Swizzle2bit → V)
    {l : Location}
    (hName : (registerLocation A s dest l.comp).name ≠ l.name) :
    Writes.apply u
        (maskedWrites mask (registerLocation A s dest) f) l =
      u l := by
  rcases exists_variable hDest with ⟨name, index, -, hLoc⟩
  rw [hLoc] at hName ⊢
  rw [apply_maskedWrites, if_neg]
  exact fun h => hName h.1.symm

end

------------------------------------------------------------
-- Values That Outputs Do Not Affect
------------------------------------------------------------

/- Only outputs differ. -/
def SameInputs (s t : Location → V) : Prop :=
  ∀ l : Location, l.name ≠ "v_out" → t l = s l

theorem refIndex_congr
    (hSame : SameInputs s t)
    (ref : VertexRef) :
    refIndex A t ref = refIndex A s ref := by
  cases ref with
  | num n => rfl
  | address reg component displ =>
      have hName : "a" ≠ "v_out" := by decide
      have hA :
          (fun c => t ⟨"a", reg, c⟩) =
            fun c => s ⟨"a", reg, c⟩ :=
        funext (fun c => hSame ⟨"a", reg, c⟩ hName)
      simp only [refIndex, convertRef, Expression.eval,
        indexOf, hA]

theorem registerLocation_congr
    (hSame : SameInputs s t)
    (dest : VertexArg)
    (k : Swizzle2bit) :
    registerLocation A t dest k =
      registerLocation A s dest k := by
  cases dest <;> simp only [registerLocation, refIndex_congr hSame]

variable {arg : VertexArg}

/- The arguments that are read as vectors, but for outputs. -/
theorem argValue_congr
    (hSame : SameInputs s t)
    (hNot : ∀ ref, arg ≠ .output ref)
    (k : Swizzle2bit) :
    argValue A t arg k = argValue A s arg k := by
  have hv : "v_in" ≠ "v_out" := by decide
  have hc : "constants.c" ≠ "v_out" := by decide
  have hr : "r" ≠ "v_out" := by decide
  have ha : "a" ≠ "v_out" := by decide
  have hcond : "c" ≠ "v_out" := by decide
  cases arg with
  | output ref => exact absurd rfl (hNot ref)
  | input ref isNeg isAbs sw =>
      simp only [argValue, refIndex_congr hSame]
      rw [hSame ⟨"v_in", _, _⟩ hv]
  | const ref isNeg isAbs sw =>
      simp only [argValue, refIndex_congr hSame]
      rw [hSame ⟨"constants.c", _, _⟩ hc]
  | temp ref isNeg isAbs sw =>
      simp only [argValue, refIndex_congr hSame]
      rw [hSame ⟨"r", _, _⟩ hr]
  | addressReg a => exact hSame ⟨"a", _, _⟩ ha
  | condReg c => exact hSame ⟨"c", _, _⟩ hcond
  | label | tex => rfl

theorem holdsAt_congr
    (hSame : SameInputs s t)
    (cond : Condition)
    (k : Swizzle2bit) :
    holdsAt A t cond k = holdsAt A s cond k := by
  have hC : "c" ≠ "v_out" := by decide
  simp only [holdsAt, hSame ⟨"c", _, _⟩ hC]

------------------------------------------------------------
-- Decoded Slots
------------------------------------------------------------

variable {decoded : VertexDecoded} {slot : Bool} {opcode : VertexOpcode}
variable {res i : VertexInstr}

/- The field of the masks that belongs to a slot. -/
def slotMask (decoded : VertexDecoded) (slot : Bool) :
    DestMask :=
  .fromInt16 (if slot then decoded.mask1 else decoded.mask2)

/-
  The destinations, each with its mask: an address register
  has it in the argument.
-/
def ownDestinations
    (decoded : VertexDecoded)
    (slot : Bool)
    (opcode : VertexOpcode) : List (VertexArg × DestMask) :=
  (destinations decoded slot opcode).map (fun dest =>
    (dest.1, dest.2.getD (slotMask decoded slot)))

/- The sources of an operation, counted from one. -/
def operand
    (decoded : VertexDecoded)
    (slot : Bool)
    (opcode : VertexOpcode) : Fin 4 → VertexArg :=
  Fin.cons (sourceArg decoded slot opcode 0)
    (sourceArg decoded slot opcode)

/- An operation with a result to be written. -/
def VertexOpcode.Computes (opcode : VertexOpcode) : Prop :=
  opcode.hasOutput = true ∧
    opcode.instr ∉ [VertexOp.CLI, .BRB, .CLB]

instance (opcode : VertexOpcode) : Decidable opcode.Computes :=
  inferInstanceAs (Decidable (_ ∧ _))

/- All destinations of a slot have the same mask. -/
theorem outputDest_eq
    {dest : VertexDest}
    (hDest : outputDest decoded slot = some dest) :
    ∃ ref, dest = (.output ref, some (slotMask decoded slot)) := by
  rw [outputDest, Option.ite_none_right_eq_some] at hDest
  rcases hDest with ⟨⟨-, hSlot⟩, hEq⟩
  obtain rfl := Option.some.inj hEq
  rw [slotMask, hSlot]
  exact ⟨_, rfl⟩

/- What is known of the other destination. -/
structure OtherDest
    (decoded : VertexDecoded)
    (slot : Bool)
    (opcode : VertexOpcode)
    (dest : VertexDest) : Prop where
  register : dest.1.IsRegister
  notOutput : ∀ ref, dest.1 ≠ .output ref
  mask :
    dest.2 = some (slotMask decoded slot) ∨
      (dest.2 = none ∧ opcode.addrReg = true)
  cond :
    ∀ c, dest.1 = .condReg c →
      c = 0 ∧ (slot = false ∨ outputDest decoded slot = none)

theorem otherDest_of_registerDest
    {dest : VertexDest}
    (hControl : opcode.control = false)
    (hPsh : opcode.instr ≠ .PSH)
    (hDest : registerDest decoded slot opcode = some dest) :
    OtherDest decoded slot opcode dest := by
  have hTemp :
      ∀ n,
        OtherDest decoded slot opcode
          (tempReg n, some (slotMask decoded slot)) := fun n =>
    ⟨.temp n, nofun, .inl rfl, nofun⟩
  have hAddress :
      ∀ n, opcode.addrReg = true →
        OtherDest decoded slot opcode
          (.addressReg n, none) := fun n hAddr =>
    ⟨.address n, nofun, .inr ⟨rfl, hAddr⟩, nofun⟩
  cases slot with
  | false =>
      simp only [registerDest, hControl, hPsh, ne_eq,
        not_false_eq_true, and_self, if_true] at hDest
      rw [Option.ite_none_right_eq_some] at hDest
      rcases hDest with ⟨-, hDest⟩
      split_ifs at hDest with hCond hAddr
      · obtain rfl := Option.some.inj hDest
        refine ⟨.cond 0, nofun, .inl rfl, fun c hc => ?_⟩
        exact ⟨(VertexArg.condReg.inj hc).symm, .inl rfl⟩
      · obtain rfl := Option.some.inj hDest
        exact hAddress _ hAddr
      · obtain rfl := Option.some.inj hDest
        exact hTemp _
  | true =>
      simp only [registerDest, hControl, Bool.true_eq_false,
        false_and, and_false, if_false, hPsh, and_true]
        at hDest
      split_ifs at hDest with hReg hAddr hOutput
      · obtain rfl := Option.some.inj hDest
        exact hAddress _ hAddr
      · obtain rfl := Option.some.inj hDest
        exact hTemp _
      · obtain rfl := Option.some.inj hDest
        refine ⟨.cond 0, nofun, .inl rfl, fun c hc => ?_⟩
        refine ⟨(VertexArg.condReg.inj hc).symm, .inr ?_⟩
        rw [outputDest, if_neg]
        rintro ⟨hNum, hSelector⟩
        rcases hOutput with hFalse | hEnd
        · rw [← hSelector] at hFalse
          cases hFalse
        · exact hNum hEnd

/- There is always a destination. -/
theorem outputDest_of_registerDest_none
    (hControl : opcode.control = false)
    (hPsh : opcode.instr ≠ .PSH)
    (hNone : registerDest decoded slot opcode = none) :
    ∃ dest, outputDest decoded slot = some dest := by
  rw [← Option.isSome_iff_exists, outputDest]
  cases slot with
  | false =>
      simp only [registerDest, hControl, hPsh, ne_eq,
        not_false_eq_true, and_self, if_true] at hNone
      split_ifs at hNone with hAny
      simp only [not_or] at hAny
      rw [if_pos ⟨hAny.2.2, (Bool.not_eq_true _ ▸ hAny.2.1).symm⟩]
      rfl
  | true =>
      simp only [registerDest, hControl, Bool.true_eq_false,
        false_and, and_false, if_false, hPsh, and_true]
        at hNone
      split_ifs at hNone with hReg hAddr hOutput
      simp only [not_or, Bool.not_eq_false] at hOutput
      rw [if_pos ⟨hOutput.2, hOutput.1.symm⟩]
      rfl

theorem plain_of_computes :
    ∀ opcode ∈ vertexOpcodes1 ++ vertexOpcodes0,
      opcode.Computes →
        opcode.control = false ∧ opcode.instr ≠ .PSH := by
  decide

section

variable (hOpcode : decoded.opcode slot = some opcode)

include hOpcode

theorem opcode_mem :
    opcode ∈ vertexOpcodes1 ++ vertexOpcodes0 := by
  rw [VertexDecoded.opcode] at hOpcode
  rw [List.mem_append]
  split at hOpcode
  case isTrue => exact .inl (List.mem_of_getElem? hOpcode)
  case isFalse => exact .inr (List.mem_of_getElem? hOpcode)

/- One destination of any kind, or an output and another. -/
theorem destinations_cases
    (hComputes : opcode.Computes) :
    (∃ dest : VertexDest,
      destinations decoded slot opcode = [dest] ∧
        dest.1.IsRegister ∧
          (dest.2 = some (slotMask decoded slot) ∨
            (dest.2 = none ∧ opcode.addrReg = true))) ∨
      ∃ (ref : VertexRef) (dest : VertexDest),
        destinations decoded slot opcode =
            [(.output ref, some (slotMask decoded slot)),
              dest] ∧
          OtherDest decoded slot opcode dest ∧
            ∀ c, dest.1 = .condReg c → c = 0 ∧ slot = false := by
  rcases plain_of_computes opcode (opcode_mem hOpcode)
      hComputes with ⟨hControl, hPsh⟩
  rw [destinations, if_pos hComputes.1]
  cases hReg : registerDest decoded slot opcode with
  | none =>
      rcases outputDest_of_registerDest_none hControl hPsh
          hReg with ⟨dest, hOutput⟩
      rcases outputDest_eq hOutput with ⟨ref, rfl⟩
      rw [hOutput]
      exact .inl ⟨_, rfl, .output ref, .inl rfl⟩
  | some dest =>
      have hOther := otherDest_of_registerDest hControl hPsh hReg
      cases hOutput : outputDest decoded slot with
      | none =>
          exact .inl ⟨dest, rfl, hOther.register, hOther.mask⟩
      | some out =>
          rcases outputDest_eq hOutput with ⟨ref, rfl⟩
          refine .inr ⟨ref, dest, rfl, hOther, fun c hc => ?_⟩
          rcases hOther.cond c hc with ⟨hZero, hSlot | hNone⟩
          · exact ⟨hZero, hSlot⟩
          · rw [hOutput] at hNone
            cases hNone

variable (hSlot : vertexDasmSlot decoded slot res = some i)

include hSlot

/- What decoding a slot leaves in the instruction. -/
theorem vertexDasmSlot_eq :
    i.operation = opcode.instr ∧
      i.mask =
        lastMask (destinations decoded slot opcode) res.mask ∧
      i.opCount =
        (destinations decoded slot opcode).length +
          min opcode.opCount 3 ∧
      i.opCount ≤ 4 ∧
      ∀ n : Fin 4,
        i.args n =
          ((destinations decoded slot opcode).map Prod.fst ++
              ((List.finRange 3).take opcode.opCount).map
                (sourceArg decoded slot opcode)).getD n
            (res.args n) := by
  rw [vertexDasmSlot, hOpcode, Option.bind_some] at hSlot
  simp only [Option.ite_none_right_eq_some,
    Option.some.injEq] at hSlot
  obtain ⟨hFits, rfl⟩ := hSlot
  refine ⟨rfl, rfl, ?_, hFits, fun _ => rfl⟩
  simp

theorem args_dest
    {n : Fin 4}
    {dest : VertexDest}
    (hDest :
      (destinations decoded slot opcode)[n.val]? = some dest) :
    i.args n = dest.1 := by
  rcases vertexDasmSlot_eq hOpcode hSlot with
    ⟨-, -, -, -, hArgs⟩
  have hLess := (List.getElem?_eq_some_iff.mp hDest).1
  rw [hArgs, List.getD_eq_getElem?_getD,
    List.getElem?_append_left (by simpa using hLess),
    List.getElem?_map, hDest]
  rfl

/- The sources stand after the destinations. -/
theorem args_source
    {n : Fin 4}
    {k : Fin 3}
    (hk : k.val < opcode.opCount)
    (hn :
      n.val = (destinations decoded slot opcode).length + k) :
    i.args n = sourceArg decoded slot opcode k := by
  rcases vertexDasmSlot_eq hOpcode hSlot with
    ⟨-, -, -, -, hArgs⟩
  have hAfter :
      ((destinations decoded slot opcode).map Prod.fst).length ≤
        n.val := by
    rw [List.length_map]
    omega
  have hSource :
      (((List.finRange 3).take opcode.opCount).map
            (sourceArg decoded slot opcode))[k.val]? =
        some (sourceArg decoded slot opcode k) := by
    rw [List.getElem?_map, List.getElem?_take_of_lt hk]
    simp
  rw [hArgs, List.getD_eq_getElem?_getD,
    List.getElem?_append_right hAfter, List.length_map, hn,
    Nat.add_sub_cancel_left, hSource]
  rfl

end

/- What an operation needs are sources that are vectors. -/
theorem needs_of_computes :
    ∀ opcode ∈ vertexOpcodes1 ++ vertexOpcodes0,
      opcode.Computes →
        ∀ k ∈ vec id, ∀ p ∈ needs opcode.instr k,
          1 ≤ p.1.val ∧ p.1.val ≤ opcode.opCount ∧
            (opcode.tex = true → p.1.val = 1) := by
  decide

theorem isVector_sourceArg
    (hControl : opcode.control = false)
    {n : Fin 3}
    (hTex : opcode.tex = true → n.val = 0) :
    (sourceArg decoded slot opcode n).IsVector := by
  have hNot : ¬ (n = 1 ∧ opcode.tex = true) := by
    rintro ⟨rfl, hTrue⟩
    exact absurd (hTex hTrue) (by decide)
  simp only [sourceArg, hControl, Bool.false_eq_true, if_false,
    hNot]
  split_ifs <;> exact True.intro

section

variable (hOpcode : decoded.opcode slot = some opcode)
variable (hComputes : opcode.Computes)
variable (hSlot : vertexDasmSlot decoded slot res = some i)
variable {k : Swizzle2bit}
variable {p : Fin 4 × Swizzle2bit} (hp : p ∈ needs opcode.instr k)

include hOpcode hComputes hSlot hp

/- An operation reads sources, or the second destination. -/
theorem args_needed :
    (∃ n : Fin 3,
      (opcode.tex = true → n.val = 0) ∧
        i.args p.1 = sourceArg decoded slot opcode n) ∨
      ∃ dest, OtherDest decoded slot opcode dest ∧
        i.args p.1 = dest.1 := by
  have hMem := opcode_mem hOpcode
  have hk : k ∈ vec id := by
    cases k <;> decide
  rcases needs_of_computes opcode hMem hComputes k hk p hp with
    ⟨hLow, hHigh, hTex⟩
  rcases destinations_cases hOpcode hComputes with
    ⟨dest, hDests, -⟩ | ⟨ref, dest, hDests, hOther, -⟩
  · -- the sources stand in their places
    have hIndex : p.1.val - 1 < 3 := by omega
    refine .inl ⟨⟨p.1.val - 1, hIndex⟩, ?_, ?_⟩
    · intro hTrue
      simp only [hTex hTrue]
    · exact args_source hOpcode hSlot (by simp only; omega)
        (by rw [hDests]; simp only [List.length_singleton]; omega)
  · -- the first source is the second destination
    by_cases hOne : p.1.val = 1
    · refine .inr ⟨dest, hOther, args_dest hOpcode hSlot ?_⟩
      rw [hDests, hOne]
      rfl
    · have hIndex : p.1.val - 2 < 3 := by omega
      refine .inl ⟨⟨p.1.val - 2, hIndex⟩, ?_, ?_⟩
      · intro hTrue
        exact absurd (hTex hTrue) hOne
      · exact args_source hOpcode hSlot (by simp only; omega)
          (by rw [hDests]; simp only [List.length_cons,
                List.length_nil]; omega)

/- The arguments that an operation reads are vectors. -/
theorem isVector_args : (i.args p.1).IsVector := by
  have hControl :=
    (plain_of_computes opcode (opcode_mem hOpcode) hComputes).1
  rcases args_needed hOpcode hComputes hSlot hp with
    ⟨n, hTex, hArg⟩ | ⟨dest, hOther, hArg⟩
  · rw [hArg]
    exact isVector_sourceArg hControl hTex
  · rw [hArg]
    exact isVector_register hOther.register

end

------------------------------------------------------------
-- Statements of a Slot
------------------------------------------------------------

variable {s : Location → V} {dest : VertexArg} {cond : Condition}
variable {mask : DestMask}
variable {f : Swizzle2bit → V}

@[simp]
theorem writes_setAddress (address : Nat) (st : Statement) :
    (st.setAddress address).writes A = st.writes A := by
  cases st <;> rfl

theorem block_setAddress
    (address : Nat)
    (sts : List Statement) :
    block A (sts.map (Statement.setAddress address)) =
      block A sts := by
  induction sts with
  | nil => rfl
  | cons st rest ih =>
      rw [List.map_cons, block, block, ih, writes_setAddress]

/- What a register holds after it is assigned. -/
def selected
    (A : Arithmetic V)
    (s : Location → V)
    (cond : Condition)
    (f g : Swizzle2bit → V)
    (k : Swizzle2bit) : V :=
  if holdsAt A s cond k then f k else g k

variable {rhs : Expression}

theorem writes_selected
    (cond : Condition)
    (mask : DestMask)
    {other : VertexArg}
    {isScalarRhs : Bool}
    (hDest : dest.IsRegister)
    (hOther : other.IsRegister)
    (hEval : broadcast (rhs.eval A s) = vec f)
    (hVector : isScalarRhs = false → rhs.eval A s = vec f) :
    (makeMaskedAssignment isScalarRhs mask
        (convertVertexArg dest)
        (appendCondition cond rhs
          (convertVertexArg other))).writes A s =
      maskedWrites mask (registerLocation A s dest)
        (selected A s cond f
          (fun k => s (registerLocation A s other k))) := by
  rcases exists_variable hDest with ⟨name, index, hVar, hLoc⟩
  have hOld := eval_register (A := A) (s := s) hOther
  rw [hVar, hLoc]
  apply writes_makeMaskedAssignment
  · exact broadcast_eval_appendCondition cond hEval hOld
  · intro hScalar
    exact eval_appendCondition cond (hVector hScalar) hOld

/- The update copies a whole register. -/
theorem writes_vertexUpdate
    {control : ControlMod}
    {isRegC : Bool}
    {st : Statement}
    (hDest : dest.IsRegister)
    (hUpdate :
      makeCAssignment control isRegC (convertVertexArg dest) =
        some st) :
    control ≠ .None ∧ isRegC = false ∧
      ∀ u : Location → V,
        st.writes A u =
          maskedWrites ⟨true, true, true, true⟩
            (fun k => ⟨"c", if control = .C0 then 0 else 1, k⟩)
            (fun k => u (registerLocation A u dest k)) := by
  rw [makeCAssignment, Option.ite_none_right_eq_some] at hUpdate
  rcases hUpdate with ⟨⟨hControl, hRegC⟩, hSt⟩
  refine ⟨hControl, hRegC, fun u => ?_⟩
  obtain rfl := Option.some.inj hSt
  have hValue := eval_register (A := A) (s := u) hDest
  rcases exists_variable hDest with ⟨name, index, hVar, -⟩
  have hIndex :
      ((if control = .C0 then 0 else 1 : Nat) : Int) =
        if control = .C0 then 0 else 1 := by
    split <;> rfl
  rw [Statement.writes, hValue, hVar]
  simp only [cRegister, targets, indexOf, hIndex]
  rfl

/- Where a register is does not depend on what it holds. -/
theorem registerLocation_after
    (hDest : dest.IsRegister)
    (f : Swizzle2bit → V)
    (k : Swizzle2bit) :
    registerLocation A
        (Writes.apply s
          (maskedWrites mask (registerLocation A s dest) f))
        dest k =
      registerLocation A s dest k := by
  cases hDest with
  | output ref =>
      apply registerLocation_congr
      intro l hName
      apply apply_registerWrites_of_ne (.output ref)
      exact hName.symm
  | _ => rfl

/- The condition register that an update writes. -/
def IsUpdated
    (control : ControlMod)
    (isRegC : Bool)
    (l : Location) : Prop :=
  control ≠ .None ∧ isRegC = false ∧ l.name = "c" ∧
    l.index = if control = .C0 then 0 else 1

instance (control : ControlMod) (isRegC : Bool) (l : Location) :
    Decidable (IsUpdated control isRegC l) :=
  inferInstanceAs (Decidable (_ ∧ _ ∧ _ ∧ _))

/- An assignment, and the update of a condition register. -/
def assignment
    (isScalarRhs isRegC : Bool)
    (control : ControlMod)
    (mask : DestMask)
    (cond : Condition)
    (dest : VertexArg)
    (rhs : Expression)
    (address : Nat) : List Statement :=
  let lhs := convertVertexArg dest
  (makeMaskedAssignment isScalarRhs mask lhs
      (appendCondition cond rhs lhs) ::
    (makeCAssignment control isRegC lhs).toList).map
      (Statement.setAddress address)

section

variable {isScalarRhs isRegC : Bool} {control : ControlMod}
variable (address : Nat)
variable (hDest : dest.IsRegister)
variable (hEval : broadcast (rhs.eval A s) = vec f)
variable (hVector : isScalarRhs = false → rhs.eval A s = vec f)

include hDest hEval hVector

/- A destination is written, and then perhaps copied. -/
theorem block_assignment :
    block A
        (assignment isScalarRhs isRegC control mask cond dest rhs
          address) s =
      maskedWrites mask (registerLocation A s dest)
          (selected A s cond f
            (fun k => s (registerLocation A s dest k))) ++
        if control ≠ .None ∧ isRegC = false then
          maskedWrites ⟨true, true, true, true⟩
            (fun k => ⟨"c", if control = .C0 then 0 else 1, k⟩)
            (fun k =>
              if mask.has k then
                selected A s cond f
                  (fun k => s (registerLocation A s dest k)) k
              else s (registerLocation A s dest k))
        else [] := by
  have hFirst :=
    writes_selected cond mask hDest hDest hEval hVector
  rw [assignment, block_setAddress, block, Parallel.inOrder,
    Parallel.after, hFirst]
  congr 1
  cases hUpdate :
      makeCAssignment control isRegC (convertVertexArg dest) with
  | none =>
      rw [if_neg]
      · rfl
      · intro hBoth
        rw [makeCAssignment, if_pos hBoth] at hUpdate
        cases hUpdate
  | some st =>
      rcases writes_vertexUpdate (A := A) hDest hUpdate with
        ⟨hControl, hRegC, hCopy⟩
      rw [if_pos ⟨hControl, hRegC⟩]
      simp only [Option.toList_some, block, Parallel.inOrder,
        List.append_nil, hCopy, registerLocation_after hDest,
        apply_registerWrites hDest]

theorem after_assign (l : Location) :
    Parallel.after
        (block A
          (assignment isScalarRhs isRegC control mask cond dest
            rhs address)) s l =
      Writes.apply s
        (maskedWrites mask (registerLocation A s dest)
          (selected A s cond f
            (fun k => s (registerLocation A s dest k))))
        (if IsUpdated control isRegC l then
          registerLocation A s dest l.comp
        else l) := by
  have hFull :
      (DestMask.mk true true true true).has l.comp = true := by
    cases l.comp <;> rfl
  rw [Parallel.after,
    block_assignment address hDest hEval hVector,
    Parallel.apply_append]
  by_cases hBoth : control ≠ .None ∧ isRegC = false
  · rw [if_pos hBoth, apply_maskedWrites]
    by_cases hHere :
        l.name = "c" ∧ l.index = if control = .C0 then 0 else 1
    · have hUpdated : IsUpdated control isRegC l :=
        ⟨hBoth.1, hBoth.2, hHere⟩
      rw [if_pos ⟨hHere.1, hHere.2, hFull⟩, if_pos hUpdated,
        apply_registerWrites hDest]
    · have hNot : ¬ IsUpdated control isRegC l :=
        fun h => hHere h.2.2
      rw [if_neg (fun h => hHere ⟨h.1, h.2.1⟩), if_neg hNot]
  · rw [if_neg hBoth, if_neg (fun h => hBoth ⟨h.1, h.2.1⟩)]
    rfl

/- The destination itself, whether or not it is copied. -/
theorem after_assign_dest (k : Swizzle2bit) :
    Parallel.after
        (block A
          (assignment isScalarRhs isRegC control mask cond dest
            rhs address)) s
        (registerLocation A s dest k) =
      if mask.has k = true then
        selected A s cond f
          (fun k => s (registerLocation A s dest k)) k
      else s (registerLocation A s dest k) := by
  have hComp : (registerLocation A s dest k).comp = k := by
    rcases exists_variable hDest with ⟨name, index, -, hLoc⟩
    rw [hLoc]
  rw [after_assign address hDest hEval hVector, hComp, ite_self,
    apply_registerWrites hDest]

/- A register other than the one that is assigned. -/
theorem after_assign_other
    {l : Location}
    (hName : (registerLocation A s dest l.comp).name ≠ l.name) :
    Parallel.after
        (block A
          (assignment isScalarRhs isRegC control mask cond dest
            rhs address)) s l =
      if IsUpdated control isRegC l then
        if mask.has l.comp = true then
          selected A s cond f
            (fun k => s (registerLocation A s dest k)) l.comp
        else s (registerLocation A s dest l.comp)
      else s l := by
  rw [after_assign address hDest hEval hVector]
  split
  case isTrue => rw [apply_registerWrites hDest]
  case isFalse => rw [apply_registerWrites_of_ne hDest _ _ _ hName]

end

------------------------------------------------------------
-- Operations of a Slot
------------------------------------------------------------

variable {address : Nat}

/- Only a lookup has a sampler. -/
theorem opValue_sampler
    {op : VertexOp}
    {sampler sampler' : Nat}
    {x : Fin 4 → Swizzle2bit → V}
    {k : Swizzle2bit}
    (hTxl : op ≠ .TXL) :
    opValue A op sampler x k = opValue A op sampler' x k := by
  cases op with
  | TXL => exact absurd rfl hTxl
  | _ => rfl

/- What an operation makes of arguments, counted from one. -/
def valueOf
    (A : Arithmetic V)
    (s : Location → V)
    (op : VertexOp)
    (args : Fin 4 → VertexArg) : Swizzle2bit → V :=
  opValue A op (args 2).sampler (fun n => argValue A s (args n))

theorem ops_of_computes :
    ∀ opcode ∈ vertexOpcodes1 ++ vertexOpcodes0,
      opcode.Computes →
        opcode.instr ∉
            [VertexOp.NOP, .BRI, .BRB, .CLI, .CLB, .MVA] ∧
          (opcode.instr = .TXL →
            opcode.tex = true ∧ opcode.opCount = 2) ∧
          (opcode.instr = .MOV →
            opcode.opCount = 1 ∧ opcode.addrReg = false) := by
  decide

theorem convertVertexArg_ne_literal
    (hVector : arg.IsVector)
    (num : Int) :
    convertVertexArg arg ≠ .integerLiteral num := by
  cases arg with
  | label | tex => cases hVector
  | output | addressReg | condReg =>
      exact Expression.noConfusion
  | input ref isNeg isAbs sw | const ref isNeg isAbs sw
  | temp ref isNeg isAbs sw =>
      intro hEq
      simp only [convertVertexArg, modified] at hEq
      split_ifs at hEq

theorem lookup_of_vector
    (hVector : arg.IsVector)
    (coordinate : Expression) :
    lookup coordinate (convertVertexArg arg) = none := by
  have hNe := convertVertexArg_ne_literal hVector
  cases hArg : convertVertexArg arg with
  | integerLiteral num => exact absurd hArg (hNe num)
  | _ => rfl

/- The operations without a right-hand side. -/
def withoutRhs : List VertexOp :=
  [.MOV, .ARA, .NOP, .POP, .RCC, .BRA, .BRI, .CAL, .RET, .BRB,
    .PSH]

theorem rhs_of_computes :
    ∀ opcode ∈ vertexOpcodes1 ++ vertexOpcodes0,
      opcode.Computes →
        opcode.instr = .MOV ∨ opcode.instr = .ARA ∨
          opcode.instr ∉ withoutRhs := by
  decide

theorem isSome_vertexRhs
    {op : VertexOp}
    {arg : Fin 4 → Expression}
    (hOp : op ∉ withoutRhs)
    (hTxl : op ≠ .TXL) :
    (vertexRhs op arg).isSome = true := by
  cases op with
  | TXL => exact absurd rfl hTxl
  | MOV | ARA | NOP | POP | RCC | BRA | BRI | CAL | RET | BRB
  | PSH => exact absurd (by decide) hOp
  | _ => rfl

section

variable (hOpcode : decoded.opcode slot = some opcode)
variable (hComputes : opcode.Computes)
variable (hSlot : vertexDasmSlot decoded slot res = some i)

include hOpcode hComputes hSlot

/- The sampler of a lookup with one destination. -/
theorem sampler_single
    {dest : VertexDest}
    (hDests : destinations decoded slot opcode = [dest])
    (hTxl : opcode.instr = .TXL) :
    convertVertexArg (i.args 2) =
      .integerLiteral (i.args 2).sampler := by
  have hMem := opcode_mem hOpcode
  rcases (ops_of_computes opcode hMem hComputes).2.1 hTxl with
    ⟨hTex, hCount⟩
  have hControl := (plain_of_computes opcode hMem hComputes).1
  have hArg : i.args 2 = sourceArg decoded slot opcode 1 :=
    args_source hOpcode hSlot (by rw [hCount]; decide)
      (by rw [hDests]; rfl)
  have hNot :
      ¬ (opcode.instr = .ARA ∨ opcode.instr = .PSH) := by
    rw [hTxl]
    decide
  rw [hArg]
  simp only [sourceArg, hControl, hTex, hNot, if_false,
    Bool.false_eq_true, and_self, if_true]
  rfl

/- A lookup with two destinations misses its sampler. -/
theorem lookup_pair
    {dest dest' : VertexDest}
    (hDests : destinations decoded slot opcode = [dest, dest'])
    (hTxl : opcode.instr = .TXL)
    (coordinate : Expression) :
    lookup coordinate (convertVertexArg (i.args 2)) = none := by
  have hMem := opcode_mem hOpcode
  rcases (ops_of_computes opcode hMem hComputes).2.1 hTxl with
    ⟨-, hCount⟩
  have hControl := (plain_of_computes opcode hMem hComputes).1
  have hArg : i.args 2 = sourceArg decoded slot opcode 0 :=
    args_source hOpcode hSlot (by rw [hCount]; decide)
      (by rw [hDests]; rfl)
  apply lookup_of_vector
  rw [hArg]
  exact isVector_sourceArg hControl (fun _ => rfl)

theorem exists_sampler
    (hTxl : opcode.instr = .TXL)
    (hRhs :
      vertexRhs .TXL (fun n => convertVertexArg (i.args n)) =
        some rhs) :
    convertVertexArg (i.args 2) =
      .integerLiteral (i.args 2).sampler := by
  rcases destinations_cases hOpcode hComputes with
    ⟨dest, hDests, -⟩ | ⟨ref, dest, hDests, -, -⟩
  · exact sampler_single hOpcode hComputes hSlot hDests hTxl
  · rw [vertexRhs,
      lookup_pair hOpcode hComputes hSlot hDests hTxl] at hRhs
    cases hRhs

theorem eval_rhs
    (hRhs :
      vertexRhs opcode.instr
          (fun n => convertVertexArg (i.args n)) =
        some rhs) :
    broadcast (rhs.eval A s) =
        vec (valueOf A s opcode.instr i.args) ∧
      (opcode.instr.isScalarRhs = false →
        rhs.eval A s =
          vec (valueOf A s opcode.instr i.args)) := by
  have hArg :
      ∀ k, ∀ p ∈ needs opcode.instr k,
        (convertVertexArg (i.args p.1)).eval A s =
          vec (argValue A s (i.args p.1)) :=
    fun k p hp =>
      eval_convertVertexArg
        (isVector_args hOpcode hComputes hSlot hp)
  have hOps :=
    (ops_of_computes opcode (opcode_mem hOpcode) hComputes).1
  simp only [List.mem_cons, List.not_mem_nil, or_false,
    not_or] at hOps
  have hOperation : opcode.instr.IsOperation :=
    ⟨hOps.2.2.2.1, hOps.2.2.2.2.1, hOps.2.2.2.2.2⟩
  have hSampler :
      opcode.instr = .TXL →
        convertVertexArg (i.args 2) =
          .integerLiteral (i.args 2).sampler := by
    intro hTxl
    rw [hTxl] at hRhs
    exact exists_sampler hOpcode hComputes hSlot hTxl hRhs
  cases hScalar : opcode.instr.isScalarRhs with
  | false =>
      have hEval :
          rhs.eval A s =
            vec (valueOf A s opcode.instr i.args) :=
        eval_vectorRhs hOperation hScalar hArg hSampler hRhs
      exact ⟨by rw [hEval, broadcast_vec], fun _ => hEval⟩
  | true =>
      exact
        ⟨eval_scalarRhs hScalar hArg hRhs, fun h => by cases h⟩

/- The statements of an operation that is not a move. -/
theorem makeVertexStatement_of_computes
    (hMov : opcode.instr ≠ .MOV) :
    makeVertexStatement i address =
      (vertexRhs opcode.instr
          (fun n => convertVertexArg (i.args n))).map
        (fun rhs =>
          assignment opcode.instr.isScalarRhs i.isRegC i.control
            i.mask i.condition (i.args 0) rhs address) := by
  have hOps :=
    (ops_of_computes opcode (opcode_mem hOpcode) hComputes).1
  simp only [List.mem_cons, List.not_mem_nil, or_false,
    not_or] at hOps
  have hLhs :
      ¬ (opcode.instr = .CLI ∨ opcode.instr = .CLB) := by
    rintro (hCli | hClb)
    · exact hOps.2.2.2.1 hCli
    · exact hOps.2.2.2.2.1 hClb
  simp only [makeVertexStatement,
    (vertexDasmSlot_eq hOpcode hSlot).1]
  split
  case h_1 hOp => exact absurd hOp hMov
  case h_2 hOp => exact absurd hOp hOps.1
  case h_3 hOp => exact absurd hOp hOps.2.1
  case h_4 hOp => exact absurd hOp hOps.2.2.1
  case h_5 =>
    simp only [Option.map_map, if_neg hLhs]
    rfl

/- The sources in their places give the value that is meant. -/
theorem valueOf_operand
    {dest : VertexDest}
    (hDests : destinations decoded slot opcode = [dest]) :
    valueOf A s opcode.instr i.args =
      valueOf A s opcode.instr (operand decoded slot opcode) := by
  have hMem := opcode_mem hOpcode
  have hArgs :
      ∀ n : Fin 4, 1 ≤ n.val → n.val ≤ opcode.opCount →
        i.args n = operand decoded slot opcode n := by
    intro n hLow hHigh
    obtain ⟨m, rfl⟩ :=
      Fin.exists_succ_eq.mpr (Fin.pos_iff_ne_zero.mp hLow)
    rw [Fin.val_succ] at hHigh
    rw [operand, Fin.cons_succ]
    apply args_source hOpcode hSlot (by omega)
    rw [hDests, Fin.val_succ, List.length_singleton,
      Nat.add_comm]
  funext k
  have hk : k ∈ vec id := by
    cases k <;> decide
  have hValue :
      ∀ sampler,
        opValue A opcode.instr sampler
            (fun n => argValue A s (i.args n)) k =
          opValue A opcode.instr sampler
            (fun n =>
              argValue A s (operand decoded slot opcode n))
            k := by
    intro sampler
    apply opValue_congr
    intro p hp
    rcases needs_of_computes opcode hMem hComputes k hk p hp
      with ⟨hLow, hHigh, -⟩
    simp only [hArgs p.1 hLow hHigh]
  rw [valueOf, valueOf, hValue]
  by_cases hTxl : opcode.instr = .TXL
  · have hCount :=
      ((ops_of_computes opcode hMem hComputes).2.1 hTxl).2
    rw [hArgs 2 (by decide) (by rw [hCount]; decide)]
  · exact opValue_sampler hTxl

/- A move to a condition register is not copied to it again. -/
theorem isRegC_move
    (hMov : opcode.instr = .MOV) :
    i.isRegC = true ↔ ∃ c, i.args 0 = .condReg c := by
  have hMem := opcode_mem hOpcode
  have hCount :=
    ((ops_of_computes opcode hMem hComputes).2.2 hMov).1
  have hDests :
      1 ≤ (destinations decoded slot opcode).length := by
    rcases destinations_cases hOpcode hComputes with
      ⟨dest, hDests, -⟩ | ⟨ref, dest, hDests, -⟩ <;>
      rw [hDests] <;> simp
  have hTwo : 1 < i.opCount := by
    rw [(vertexDasmSlot_eq hOpcode hSlot).2.2.1, hCount]
    omega
  rw [VertexInstr.isRegC]
  cases i.args 0 <;> simp [hTwo]

end

/- What a slot with one destination assigns to it. -/
theorem assigned_single
    (address : Nat)
    (hOpcode : decoded.opcode slot = some opcode)
    (hComputes : opcode.Computes)
    (hSlot : vertexDasmSlot decoded slot res = some i)
    {dest : VertexDest}
    (hDests : destinations decoded slot opcode = [dest])
    (hAra : opcode.instr ≠ .ARA)
    (hMove :
      opcode.instr = .MOV →
        i.control = .None ∨ i.isRegC = true) :
    ∃ (isScalarRhs : Bool) (rhs : Expression),
      makeVertexStatement i address =
          some
            (assignment isScalarRhs i.isRegC i.control i.mask
              i.condition dest.1 rhs address) ∧
        ∀ (V : Type) (A : Arithmetic V) (s : Location → V),
          broadcast (rhs.eval A s) =
              vec
                (valueOf A s opcode.instr
                  (operand decoded slot opcode)) ∧
            (isScalarRhs = false →
              rhs.eval A s =
                vec
                  (valueOf A s opcode.instr
                    (operand decoded slot opcode))) := by
  have hMem := opcode_mem hOpcode
  have hArg : i.args 0 = dest.1 :=
    args_dest hOpcode hSlot (by rw [hDests]; rfl)
  by_cases hMov : opcode.instr = .MOV
  · have hCount :=
      ((ops_of_computes opcode hMem hComputes).2.2 hMov).1
    have hTwo : i.opCount = 2 := by
      rw [(vertexDasmSlot_eq hOpcode hSlot).2.2.1, hDests,
        hCount]
      rfl
    have hGo : ¬ (i.control ≠ .None ∧ i.isRegC = false) := by
      rintro ⟨hControl, hRegC⟩
      rcases hMove hMov with hFirst | hSecond
      · exact hControl hFirst
      · rw [hSecond] at hRegC
        cases hRegC
    have hNone :
        makeCAssignment i.control i.isRegC
            (convertVertexArg dest.1) =
          none :=
      if_neg hGo
    refine
      ⟨false, convertVertexArg (i.args 1), ?_, fun V A s => ?_⟩
    · rw [makeVertexStatement, assignment,
        (vertexDasmSlot_eq hOpcode hSlot).1, hMov, hNone]
      simp only [moveStatements, if_neg hGo, hTwo, if_true,
        Option.map_some, Option.toList_none, hArg]
    · have hVector :
          (convertVertexArg (i.args 1)).eval A s =
            vec (argValue A s (i.args 1)) := by
        apply eval_convertVertexArg
        exact
          isVector_args hOpcode hComputes hSlot (k := .X)
            (p := (1, .X)) (by rw [hMov]; decide)
      have hValue :
          argValue A s (i.args 1) =
            valueOf A s opcode.instr
              (operand decoded slot opcode) := by
        rw [← valueOf_operand hOpcode hComputes hSlot hDests,
          hMov]
        rfl
      rw [hVector, hValue, broadcast_vec]
      exact ⟨rfl, fun _ => rfl⟩
  · have hSome :
        (vertexRhs opcode.instr
            (fun n => convertVertexArg (i.args n))).isSome =
          true := by
      by_cases hTxl : opcode.instr = .TXL
      · rw [hTxl, vertexRhs,
          sampler_single hOpcode hComputes hSlot hDests hTxl]
        rfl
      · apply isSome_vertexRhs _ hTxl
        rcases rhs_of_computes opcode hMem hComputes with
          h | h | h
        · exact absurd h hMov
        · exact absurd h hAra
        · exact h
    rcases Option.isSome_iff_exists.mp hSome with ⟨rhs, hRhs⟩
    refine ⟨opcode.instr.isScalarRhs, rhs, ?_, fun V A s => ?_⟩
    · rw [makeVertexStatement_of_computes hOpcode hComputes
        hSlot hMov, hRhs, hArg]
      rfl
    · rw [← valueOf_operand hOpcode hComputes hSlot hDests]
      exact eval_rhs hOpcode hComputes hSlot hRhs

end Shaders

end Ps3emu
