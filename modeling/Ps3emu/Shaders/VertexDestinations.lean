import Ps3emu.Shaders.VertexSlots

/-
  What a slot of a vertex instruction writes to each of its
  destinations, and when that is what it should.

  Key definitions include:
    * `WritesDestinations`
    * `KeepsRegister`, `DestinationsRight`

  Key theorems include:
    * `after_single`, `after_pair`, `after_movePair`
    * `writesDestinations_iff`
-/

------------------------------------------------------------
-- Results
------------------------------------------------------------

namespace Ps3emu

namespace Shaders

/- The result of a slot, in [0, 1] if it saturates. -/
def resultValue
    {V : Type}
    (A : Arithmetic V)
    (s : Location → V)
    (decoded : VertexDecoded)
    (slot : Bool)
    (opcode : VertexOpcode)
    (k : Swizzle2bit) : V :=
  let value :=
    valueOf A s opcode.instr (operand decoded slot opcode) k
  if decoded.isSat then
    A.apply .clamp [value, A.literal 0, A.literal 1]
  else value

/-
  Each destination gets the result in the components of its
  own mask where the condition holds, and keeps its own value
  in the others.
-/
def WritesDestinations
    (decoded : VertexDecoded)
    (slot : Bool)
    (opcode : VertexOpcode)
    (i : VertexInstr)
    (address : Nat) : Prop :=
  ∃ sts,
    makeVertexStatement i address = some sts ∧
      ∀ (V : Type) (A : Arithmetic V) (s : Location → V),
        ∀ dest ∈ ownDestinations decoded slot opcode, ∀ k,
          Parallel.after (block A sts) s
              (registerLocation A s dest.1 k) =
            if dest.2.has k && guardHolds A s i.condition k then
              resultValue A s decoded slot opcode k
            else s (registerLocation A s dest.1 k)

/- A component of an operand that a result is copied from. -/
def copied (op : VertexOp) (k : Swizzle2bit) :
    Option (Fin 4 × Swizzle2bit) :=
  match op, k with
  | .MOV, k => some (1, k)
  | .DST, .Z => some (1, .Z)
  | .DST, .W => some (2, .W)
  | .LIT, .Y => some (1, .X)
  | _, _ => none

/- A component of an argument is one of a destination. -/
def VertexArg.Gives
    (arg : VertexArg)
    (c : Swizzle2bit)
    (dest : VertexArg)
    (k : Swizzle2bit) : Prop :=
  ∃ num sw,
    arg = .temp (.num num) false false sw ∧
      dest = tempReg num ∧ sw.get c = k

/- The operation copies a component to where it is. -/
def KeepsRegister
    (op : VertexOp)
    (args : Fin 4 → VertexArg)
    (dest : VertexArg)
    (k : Swizzle2bit) : Prop :=
  ∃ p, copied op k = some p ∧ (args p.1).Gives p.2 dest k

/- What makes a slot with one destination right. -/
def SingleRight
    (decoded : VertexDecoded)
    (slot : Bool)
    (opcode : VertexOpcode)
    (i : VertexInstr)
    (dest : VertexArg) : Prop :=
  (opcode.instr = .MOV →
      i.control = .None ∨ ∃ c, dest = .condReg c) ∧
    ∀ k,
      if i.mask.has k = true then
        if i.condition.relation = .FL then
          KeepsRegister opcode.instr
            (operand decoded slot opcode) dest k
        else
          (slotMask decoded slot).has k = true ∧
            decoded.isSat = false
      else
        (slotMask decoded slot).has k = true →
          i.condition.relation = .FL

/- Whether the update of `C0` writes the other destination. -/
def OverwritesDest (i : VertexInstr) (dest : VertexArg) : Prop :=
  i.control = .C0 ∧ dest = .condReg 0

instance (i : VertexInstr) (dest : VertexArg) :
    Decidable (OverwritesDest i dest) :=
  inferInstanceAs (Decidable (_ ∧ _))

/-
  What makes a slot with two destinations right.  A move has
  a statement for each of them; any other operation leaves the
  second one alone and takes it for its first source.
-/
def PairRight
    (decoded : VertexDecoded)
    (slot : Bool)
    (opcode : VertexOpcode)
    (i : VertexInstr)
    (dest : VertexArg) : Prop :=
  if opcode.instr = .MOV then
    i.control = .None ∧
      ∀ k, (slotMask decoded slot).has k = true →
        i.condition.relation = .TR ∧ decoded.isSat = false
  else
    opcode.instr ≠ .TXL ∧
      ¬ OverwritesDest i dest ∧
        ∀ k, (slotMask decoded slot).has k = true →
          i.condition.relation ≠ .FL ∧
            decoded.isSat = false ∧
              KeepsRegister opcode.instr
                (operand decoded slot opcode) dest k ∧
              KeepsRegister opcode.instr i.args dest k

def DestinationsRight
    (decoded : VertexDecoded)
    (slot : Bool)
    (opcode : VertexOpcode)
    (i : VertexInstr) : Prop :=
  opcode.instr ≠ .ARA ∧
    match destinations decoded slot opcode with
    | [dest] => SingleRight decoded slot opcode i dest.1
    | [_, dest] => PairRight decoded slot opcode i dest.1
    | _ => False

------------------------------------------------------------
-- Copied Components
------------------------------------------------------------

variable {V : Type} {A : Arithmetic V} {s : Location → V}
variable {op : VertexOp}
variable {args : Fin 4 → VertexArg} {dest : VertexArg} {k : Swizzle2bit}
variable {sampler : Nat}

theorem opValue_of_copied
    {x : Fin 4 → Swizzle2bit → V}
    {p : Fin 4 × Swizzle2bit}
    (hCopied : copied op k = some p) :
    opValue A op sampler x k = x p.1 p.2 := by
  cases op with
  | MOV =>
      obtain rfl := Option.some.inj hCopied
      rfl
  | DST | LIT =>
      cases k <;> cases hCopied <;> rfl
  | _ => cases hCopied

theorem valueOf_of_keeps
    (hKeeps : KeepsRegister op args dest k) :
    valueOf A s op args k = s (registerLocation A s dest k) := by
  rcases hKeeps with ⟨p, hCopied, num, sw, hArg, rfl, rfl⟩
  rw [valueOf, opValue_of_copied hCopied, hArg]
  rfl

variable {outcome : Bool} {x : Fin 4 → Swizzle2bit → Sym}

/- Every other result is a new term. -/
theorem copied_of_symbolic
    {l : Location}
    (hOld : opValue (symbolic outcome) op sampler x k = .old l) :
    ∃ p, copied op k = some p ∧ x p.1 p.2 = .old l := by
  cases op with
  | MOV => exact ⟨(1, k), rfl, hOld⟩
  | DST =>
      cases k with
      | Z => exact ⟨(1, .Z), rfl, hOld⟩
      | W => exact ⟨(2, .W), rfl, hOld⟩
      | _ => cases hOld
  | LIT =>
      cases k with
      | Y => exact ⟨(1, .X), rfl, hOld⟩
      | Z =>
          cases outcome <;> cases hOld
      | _ => cases hOld
  | _ => cases hOld

/- The arguments that are read from registers and constants. -/
inductive VertexArg.IsSource : VertexArg → Prop where
  | input (ref : VertexRef) (isNeg isAbs : Bool) (sw : Swizzle) :
      IsSource (.input ref isNeg isAbs sw)
  | const (ref : VertexRef) (isNeg isAbs : Bool) (sw : Swizzle) :
      IsSource (.const ref isNeg isAbs sw)
  | temp (num : Nat) (isNeg isAbs : Bool) (sw : Swizzle) :
      IsSource (.temp (.num num) isNeg isAbs sw)

/- Which sources are a component of a destination. -/
theorem gives_of_symbolic
    {arg : VertexArg}
    {c : Swizzle2bit}
    (hSource : arg.IsSource)
    (hDest : dest.IsRegister)
    (hOld :
      argValue (symbolic outcome) Sym.old arg c =
        .old
          (registerLocation (symbolic outcome) Sym.old dest
            k)) :
    arg.Gives c dest k := by
  have hIn : "v_in" ∉ ["v_out", "r", "a", "c"] := by decide
  have hConst : "constants.c" ∉ ["v_out", "r", "a", "c"] := by
    decide
  cases hSource with
  | input ref isNeg isAbs sw =>
      have hLoc := (eq_old_of_modify hOld).2.2
      rw [show "v_in" = _ from congrArg Location.name hLoc]
        at hIn
      exact absurd (name_registerLocation hDest k) hIn
  | const ref isNeg isAbs sw =>
      have hLoc := (eq_old_of_modify hOld).2.2
      rw [show "constants.c" = _ from
        congrArg Location.name hLoc] at hConst
      exact absurd (name_registerLocation hDest k) hConst
  | temp num isNeg isAbs sw =>
      rcases eq_old_of_modify hOld with ⟨rfl, rfl, hLoc⟩
      cases hDest with
      | temp num' =>
          obtain ⟨-, hNum, hComp⟩ := Location.mk.inj hLoc
          obtain rfl := Int.ofNat.inj hNum
          exact ⟨num, sw, rfl, rfl, hComp⟩
      | output ref =>
          have hName : "r" = "v_out" := congrArg Location.name hLoc
          exact absurd hName (by decide)
      | address a =>
          have hName : "r" = "a" := congrArg Location.name hLoc
          exact absurd hName (by decide)
      | cond c =>
          have hName : "r" = "c" := congrArg Location.name hLoc
          exact absurd hName (by decide)

section

variable {decoded : VertexDecoded} {slot : Bool} {opcode : VertexOpcode}
variable {res i : VertexInstr}

theorem copied_of_computes :
    ∀ opcode ∈ vertexOpcodes1 ++ vertexOpcodes0,
      opcode.Computes →
        ∀ k ∈ vec id, ∀ p ∈ (copied opcode.instr k).toList,
          1 ≤ p.1.val ∧ p.1.val ≤ opcode.opCount ∧
            opcode.opCount ≤ 2 ∧ opcode.tex = false ∧
              opcode.addrReg = false ∧
                opcode.instr ≠ .ARA := by
  decide

theorem isSource_sourceArg
    (hControl : opcode.control = false)
    (hAra : opcode.instr ≠ .ARA)
    (hPsh : opcode.instr ≠ .PSH)
    {n : Fin 3}
    (hTex : opcode.tex = true → n.val = 0) :
    (sourceArg decoded slot opcode n).IsSource := by
  have hNot : ¬ (n = 1 ∧ opcode.tex = true) := by
    rintro ⟨rfl, hTrue⟩
    exact absurd (hTex hTrue) (by decide)
  simp only [sourceArg, hControl, hAra, hPsh, hNot,
    Bool.false_eq_true, or_self, if_false]
  split_ifs
  · exact .input _ _ _ _
  · exact .const _ _ _ _
  · exact .temp _ _ _ _

theorem isSource_operand
    (hOpcode : decoded.opcode slot = some opcode)
    (hComputes : opcode.Computes)
    {p : Fin 4 × Swizzle2bit}
    (hCopied : copied opcode.instr k = some p) :
    (operand decoded slot opcode p.1).IsSource := by
  have hMem := opcode_mem hOpcode
  have hk : k ∈ vec id := by
    cases k <;> decide
  rcases copied_of_computes opcode hMem hComputes k hk p
      (by rw [hCopied]; exact List.mem_singleton_self p) with
    ⟨hLow, -, -, hTex, -, hAra⟩
  rcases plain_of_computes opcode hMem hComputes with
    ⟨hControl, hPsh⟩
  obtain ⟨m, hm⟩ :=
    Fin.exists_succ_eq.mpr (Fin.pos_iff_ne_zero.mp hLow)
  rw [← hm, operand, Fin.cons_succ]
  exact isSource_sourceArg hControl hAra hPsh (by simp [hTex])

/- A result that leaves every term alone keeps the register. -/
theorem keeps_of_symbolic
    {outcome : Bool}
    (hOpcode : decoded.opcode slot = some opcode)
    (hComputes : opcode.Computes)
    (hDest : dest.IsRegister)
    (hOld :
      valueOf (symbolic outcome) Sym.old opcode.instr
          (operand decoded slot opcode) k =
        .old
          (registerLocation (symbolic outcome) Sym.old dest
            k)) :
    KeepsRegister opcode.instr (operand decoded slot opcode)
      dest k := by
  rcases copied_of_symbolic hOld with ⟨p, hCopied, hArg⟩
  refine ⟨p, hCopied, ?_⟩
  exact
    gives_of_symbolic
      (isSource_operand hOpcode hComputes hCopied) hDest hArg

end

------------------------------------------------------------
-- One Destination
------------------------------------------------------------

variable {decoded : VertexDecoded} {slot : Bool} {opcode : VertexOpcode}
variable {res i : VertexInstr}
variable {address : Nat} {dest : VertexDest}

/- What a statement of a slot with one destination does. -/
theorem after_single
    (address : Nat)
    (hOpcode : decoded.opcode slot = some opcode)
    (hComputes : opcode.Computes)
    (hSlot : vertexDasmSlot decoded slot res = some i)
    (hDests : destinations decoded slot opcode = [dest])
    (hDest : dest.1.IsRegister)
    (hAra : opcode.instr ≠ .ARA)
    (hMove :
      opcode.instr = .MOV →
        i.control = .None ∨ i.isRegC = true) :
    ∃ sts,
      makeVertexStatement i address = some sts ∧
        ∀ (V : Type) (A : Arithmetic V) (s : Location → V) k,
          Parallel.after (block A sts) s
              (registerLocation A s dest.1 k) =
            if i.mask.has k = true then
              selected A s i.condition
                (valueOf A s opcode.instr
                  (operand decoded slot opcode))
                (fun k => s (registerLocation A s dest.1 k)) k
            else s (registerLocation A s dest.1 k) := by
  rcases assigned_single address hOpcode hComputes
      hSlot hDests hAra hMove with
    ⟨isScalarRhs, rhs, hSts, hEval⟩
  refine ⟨_, hSts, fun V A s k => ?_⟩
  exact
    after_assign_dest address hDest (hEval V A s).1
      (hEval V A s).2 k

/- A move fails if it has to update a condition register. -/
theorem control_of_move
    {sts : List Statement}
    (hOpcode : decoded.opcode slot = some opcode)
    (hSlot : vertexDasmSlot decoded slot res = some i)
    (hSts : makeVertexStatement i address = some sts)
    (hMov : opcode.instr = .MOV) :
    i.control = .None ∨ i.isRegC = true := by
  by_contra hNot
  simp only [not_or, Bool.not_eq_true] at hNot
  rw [makeVertexStatement, (vertexDasmSlot_eq hOpcode hSlot).1,
    hMov] at hSts
  simp only [moveStatements, ne_eq, hNot, not_false_eq_true,
    and_self, if_true, Option.map_none] at hSts
  cases hSts

/- No statement is made of an address that is moved. -/
theorem ne_ara_of_statement
    {sts : List Statement}
    (hOpcode : decoded.opcode slot = some opcode)
    (hComputes : opcode.Computes)
    (hSlot : vertexDasmSlot decoded slot res = some i)
    (hSts : makeVertexStatement i address = some sts) :
    opcode.instr ≠ .ARA := by
  intro hAra
  rw [makeVertexStatement_of_computes hOpcode hComputes hSlot
    (by rw [hAra]; decide), hAra] at hSts
  cases hSts

/- A leftover mask is that of an operation that copies nothing. -/
theorem mask_of_keeps
    {args : Fin 4 → VertexArg}
    (hOpcode : decoded.opcode slot = some opcode)
    (hComputes : opcode.Computes)
    (hSlot : vertexDasmSlot decoded slot res = some i)
    (hDests : destinations decoded slot opcode = [dest])
    (hMask :
      dest.2 = some (slotMask decoded slot) ∨
        (dest.2 = none ∧ opcode.addrReg = true))
    (hKeeps : KeepsRegister opcode.instr args dest.1 k) :
    i.mask = slotMask decoded slot := by
  rw [(vertexDasmSlot_eq hOpcode hSlot).2.1, hDests]
  rcases hMask with hMask | ⟨-, hAddr⟩
  · rw [lastMask, List.foldl_cons, hMask]
    rfl
  · rcases hKeeps with ⟨p, hCopied, -⟩
    have hk : k ∈ vec id := by
      cases k <;> decide
    have hNot :=
      (copied_of_computes opcode (opcode_mem hOpcode) hComputes
        k hk p
        (by rw [hCopied]; exact List.mem_singleton_self p)
        ).2.2.2.2.1
    rw [hAddr] at hNot
    cases hNot

/- A component that is written as it should be. -/
theorem result_of_right
    (hRel : i.condition.relation ≠ .FL)
    (hSat : decoded.isSat = false) :
    selected A s i.condition
        (valueOf A s opcode.instr
          (operand decoded slot opcode))
        (fun k => s (registerLocation A s dest.1 k)) k =
      if guardHolds A s i.condition k = true then
        resultValue A s decoded slot opcode k
      else s (registerLocation A s dest.1 k) := by
  simp only [selected, holdsAt_eq_guardHolds hRel, resultValue,
    hSat, Bool.false_eq_true, if_false]

/- No clamped term is the term itself. -/
theorem isSat_of_result
    (hResult :
      valueOf (symbolic outcome) Sym.old opcode.instr
          (operand decoded slot opcode) k =
        resultValue (symbolic outcome) Sym.old decoded slot
          opcode k) :
    decoded.isSat = false := by
  rw [resultValue] at hResult
  cases hSat : decoded.isSat with
  | false => rfl
  | true =>
      simp only [hSat, if_true] at hResult
      exact absurd hResult.symm (Sym.apply_cons_ne _ _ _)

theorem keeps_of_result
    (hOpcode : decoded.opcode slot = some opcode)
    (hComputes : opcode.Computes)
    (hDest : dest.1.IsRegister)
    (hResult :
      resultValue (symbolic outcome) Sym.old decoded slot
          opcode k =
        .old
          (registerLocation (symbolic outcome) Sym.old dest.1
            k)) :
    decoded.isSat = false ∧
      KeepsRegister opcode.instr (operand decoded slot opcode)
        dest.1 k := by
  rw [resultValue] at hResult
  cases hSat : decoded.isSat with
  | true =>
      simp only [hSat, if_true] at hResult
      cases hResult
  | false =>
      simp only [hSat, Bool.false_eq_true, if_false] at hResult
      exact ⟨rfl, keeps_of_symbolic hOpcode hComputes hDest hResult⟩

/- The mask that a single destination should be written with. -/
theorem ownDestinations_single
    (hDests : destinations decoded slot opcode = [dest])
    (hMask :
      dest.2 = some (slotMask decoded slot) ∨
        (dest.2 = none ∧ opcode.addrReg = true)) :
    ownDestinations decoded slot opcode =
      [(dest.1, slotMask decoded slot)] := by
  rw [ownDestinations, hDests, List.map_singleton]
  rcases hMask with hMask | ⟨hMask, -⟩
  · rw [hMask]
    rfl
  · rw [hMask]
    rfl

theorem singleRight_of_writes
    (hOpcode : decoded.opcode slot = some opcode)
    (hComputes : opcode.Computes)
    (hSlot : vertexDasmSlot decoded slot res = some i)
    (hDests : destinations decoded slot opcode = [dest])
    (hDest : dest.1.IsRegister)
    (hMask :
      dest.2 = some (slotMask decoded slot) ∨
        (dest.2 = none ∧ opcode.addrReg = true))
    (hWrites :
      WritesDestinations decoded slot opcode i address) :
    opcode.instr ≠ .ARA ∧
      SingleRight decoded slot opcode i dest.1 := by
  rcases hWrites with ⟨sts, hSts, hWrites⟩
  have hAra :=
    ne_ara_of_statement hOpcode hComputes hSlot hSts
  have hMove := control_of_move hOpcode hSlot hSts
  have hArg : i.args 0 = dest.1 :=
    args_dest hOpcode hSlot (by rw [hDests]; rfl)
  have hOwn := ownDestinations_single hDests hMask
  rcases after_single address hOpcode hComputes
      hSlot hDests hDest hAra hMove with
    ⟨sts', hSts', hAfter⟩
  obtain rfl := Option.some.inj (hSts.symm.trans hSts')
  refine ⟨hAra, fun hMov => ?_, fun k => ?_⟩
  · rw [← hArg, ← isRegC_move hOpcode hComputes hSlot hMov]
    exact hMove hMov
  have hEq :=
    hWrites Sym (symbolic true) Sym.old
      (dest.1, slotMask decoded slot)
      (by rw [hOwn]; exact List.mem_singleton_self _) k
  have hMaskKeeps :
      KeepsRegister opcode.instr (operand decoded slot opcode)
          dest.1 k →
        i.mask = slotMask decoded slot :=
    mask_of_keeps hOpcode hComputes hSlot hDests hMask
  rw [hAfter] at hEq
  simp only [selected, holdsAt_symbolic_true, if_true] at hEq
  by_cases hRel : i.condition.relation = .FL
  · -- nothing should change
    simp only [guardHolds_of_FL hRel, Bool.and_false,
      Bool.false_eq_true, if_false] at hEq
    cases hk : i.mask.has k with
    | true =>
        simp only [hk, if_true] at hEq
        simpa only [if_true, hRel] using
          keeps_of_symbolic hOpcode hComputes hDest hEq
    | false => simp [hRel]
  · simp only [guardHolds_symbolic_true hRel, Bool.and_true]
      at hEq
    cases hk : i.mask.has k with
    | true =>
        simp only [hk, if_true] at hEq
        cases hOwnK : (slotMask decoded slot).has k with
        | true =>
            simp only [hOwnK, if_true] at hEq
            simp only [if_true, hRel, if_false, true_and]
            exact isSat_of_result hEq
        | false =>
            simp only [hOwnK, Bool.false_eq_true, if_false]
              at hEq
            have hSame :=
              keeps_of_symbolic hOpcode hComputes hDest hEq
            rw [hMaskKeeps hSame, hOwnK] at hk
            cases hk
    | false =>
        simp only [Bool.false_eq_true, if_false]
        intro hOwnK
        simp only [hk, hOwnK, Bool.false_eq_true, if_false,
          if_true] at hEq
        have hSame :=
          (keeps_of_result hOpcode hComputes hDest hEq.symm).2
        rw [hMaskKeeps hSame, hOwnK] at hk
        cases hk

theorem writes_of_singleRight
    (hOpcode : decoded.opcode slot = some opcode)
    (hComputes : opcode.Computes)
    (hSlot : vertexDasmSlot decoded slot res = some i)
    (hDests : destinations decoded slot opcode = [dest])
    (hDest : dest.1.IsRegister)
    (hMask :
      dest.2 = some (slotMask decoded slot) ∨
        (dest.2 = none ∧ opcode.addrReg = true))
    (hAra : opcode.instr ≠ .ARA)
    (hRight : SingleRight decoded slot opcode i dest.1) :
    WritesDestinations decoded slot opcode i address := by
  rcases hRight with ⟨hMove, hRight⟩
  have hArg : i.args 0 = dest.1 :=
    args_dest hOpcode hSlot (by rw [hDests]; rfl)
  have hOwn := ownDestinations_single hDests hMask
  have hMove' :
      opcode.instr = .MOV →
        i.control = .None ∨ i.isRegC = true := by
    intro hMov
    rw [isRegC_move hOpcode hComputes hSlot hMov, hArg]
    exact hMove hMov
  rcases after_single address hOpcode hComputes
      hSlot hDests hDest hAra hMove' with
    ⟨sts, hSts, hAfter⟩
  refine ⟨sts, hSts, fun V A s d hd k => ?_⟩
  rw [hOwn, List.mem_singleton] at hd
  obtain rfl := hd
  have hk := hRight k
  rw [hAfter]
  by_cases hRel : i.condition.relation = .FL
  · simp only [guardHolds_of_FL hRel, Bool.and_false,
      Bool.false_eq_true, if_false]
    split
    case isFalse => rfl
    case isTrue hMasked =>
      simp only [hMasked, if_true, hRel] at hk
      rw [selected, valueOf_of_keeps hk, ite_self]
  · split
    case isTrue hMasked =>
      simp only [hMasked, if_true, hRel, if_false] at hk
      rw [result_of_right hRel hk.2, hk.1, Bool.true_and]
    case isFalse hMasked =>
      simp only [hMasked, Bool.false_eq_true, if_false] at hk
      rw [if_neg]
      intro hBoth
      rw [Bool.and_eq_true] at hBoth
      exact hRel (hk hBoth.1)

------------------------------------------------------------
-- Two Destinations of a Move
------------------------------------------------------------

variable {ref : VertexRef}

section

variable (hOpcode : decoded.opcode slot = some opcode)

include hOpcode

theorem args_pair
    (hSlot : vertexDasmSlot decoded slot res = some i)
    (hDests :
      destinations decoded slot opcode =
        [(.output ref, some (slotMask decoded slot)), dest]) :
    i.args 0 = .output ref ∧ i.args 1 = dest.1 := by
  have hFirst :
      (destinations decoded slot opcode)[(0 : Fin 4).val]? =
        some (.output ref, some (slotMask decoded slot)) := by
    rw [hDests]
    rfl
  have hSecond :
      (destinations decoded slot opcode)[(1 : Fin 4).val]? =
        some dest := by
    rw [hDests]
    rfl
  exact
    ⟨args_dest hOpcode hSlot hFirst,
      args_dest hOpcode hSlot hSecond⟩

/- Outputs are not copied from a condition register. -/
theorem isRegC_pair
    (hSlot : vertexDasmSlot decoded slot res = some i)
    (hDests :
      destinations decoded slot opcode =
        [(.output ref, some (slotMask decoded slot)), dest]) :
    i.isRegC = false := by
  rw [VertexInstr.isRegC, (args_pair hOpcode hSlot hDests).1]

/- Both destinations have the mask of the slot. -/
theorem mask_pair
    (hSlot : vertexDasmSlot decoded slot res = some i)
    (hDests :
      destinations decoded slot opcode =
        [(.output ref, some (slotMask decoded slot)), dest])
    (hOther : OtherDest decoded slot opcode dest) :
    i.mask = slotMask decoded slot ∧
      ownDestinations decoded slot opcode =
        [(.output ref, slotMask decoded slot),
          (dest.1, slotMask decoded slot)] := by
  rw [(vertexDasmSlot_eq hOpcode hSlot).2.1, ownDestinations,
    hDests]
  rcases hOther.mask with hMask | ⟨hMask, -⟩ <;>
    simp [lastMask, hMask]

end

/- The state after an output is written. -/
theorem sameInputs_after
    (mask : DestMask)
    (f : Swizzle2bit → V) :
    SameInputs s
      (Writes.apply s
        (maskedWrites mask
          (registerLocation A s (.output ref)) f)) := by
  intro l hName
  exact apply_registerWrites_of_ne (.output ref) s mask f hName.symm

theorem name_ne_output
    (hDest : dest.1.IsRegister)
    (hNot : ∀ ref, dest.1 ≠ .output ref) :
    (registerLocation A s dest.1 k).name ≠ "v_out" := by
  generalize dest.1 = d at hDest hNot
  cases hDest with
  | output ref => exact absurd rfl (hNot ref)
  | _ => exact of_decide_eq_false rfl

variable {src : VertexArg}

/- Two moves, the second of which sees what the first wrote. -/
theorem block_moves
    (cond : Condition)
    (mask : DestMask)
    (hDest : dest.1.IsRegister)
    (hSource : src.IsSource) :
    block A
        [makeMaskedAssignment false mask
            (convertVertexArg (.output ref))
            (appendCondition cond (convertVertexArg src)
              (convertVertexArg (.output ref))),
          makeMaskedAssignment false mask
            (convertVertexArg dest.1)
            (appendCondition cond (convertVertexArg src)
              (convertVertexArg (.output ref)))] s =
      let value :=
        selected A s cond (argValue A s src)
          (fun k => s (registerLocation A s (.output ref) k))
      maskedWrites mask (registerLocation A s (.output ref))
          value ++
        maskedWrites mask (registerLocation A s dest.1) value := by
  have hOut : (VertexArg.output ref).IsRegister := .output ref
  have hEval :
      ∀ u : Location → V, SameInputs s u →
        (convertVertexArg src).eval A u =
          vec (argValue A s src) := by
    intro u hSame
    have hVector : src.IsVector := by
      cases hSource <;> exact True.intro
    rw [eval_convertVertexArg hVector]
    congr 1
    funext c
    apply argValue_congr hSame
    cases hSource <;> nofun
  have hWrites :
      ∀ (u : Location → V) (d : VertexArg), SameInputs s u →
        d.IsRegister →
        (makeMaskedAssignment false mask (convertVertexArg d)
            (appendCondition cond (convertVertexArg src)
              (convertVertexArg (.output ref)))).writes A u =
          maskedWrites mask (registerLocation A u d)
            (selected A u cond (argValue A s src)
              (fun k =>
                u (registerLocation A u (.output ref) k))) := by
    intro u d hSame hReg
    have hVec := hEval u hSame
    exact
      writes_selected cond mask hReg hOut (by rw [hVec, broadcast_vec])
        (fun _ => hVec)
  have hSame :
      SameInputs s
        (Writes.apply s
          (maskedWrites mask (registerLocation A s (.output ref))
            _)) :=
    sameInputs_after mask
      (selected A s cond (argValue A s src)
        (fun k => s (registerLocation A s (.output ref) k)))
  simp only [block, Parallel.inOrder, Parallel.after,
    List.append_nil]
  rw [hWrites s _ (fun _ _ => rfl) hOut, hWrites _ _ hSame hDest]
  congr 1
  apply maskedWrites_congr
  intro k hk
  refine ⟨registerLocation_congr hSame dest.1 k, ?_⟩
  rw [selected, registerLocation_congr hSame,
    apply_registerWrites hOut, if_pos hk, holdsAt_congr hSame,
    selected]
  split <;> rfl

theorem after_moves
    {cond : Condition}
    {mask : DestMask}
    (hDest : dest.1.IsRegister)
    (hNot : ∀ ref, dest.1 ≠ .output ref)
    (hSource : src.IsSource)
    {d : VertexArg}
    (hd : d ∈ [VertexArg.output ref, dest.1]) :
    Parallel.after
        (block A
          [makeMaskedAssignment false mask
              (convertVertexArg (.output ref))
              (appendCondition cond (convertVertexArg src)
                (convertVertexArg (.output ref))),
            makeMaskedAssignment false mask
              (convertVertexArg dest.1)
              (appendCondition cond (convertVertexArg src)
                (convertVertexArg (.output ref)))]) s
        (registerLocation A s d k) =
      if mask.has k = true then
        selected A s cond (argValue A s src)
          (fun k => s (registerLocation A s (.output ref) k)) k
      else s (registerLocation A s d k) := by
  have hNe := name_ne_output (A := A) (s := s) (k := k) hDest hNot
  rw [Parallel.after, block_moves cond mask hDest hSource,
    Parallel.apply_append]
  rcases List.mem_pair.mp hd with rfl | rfl
  · rw [apply_registerWrites_of_ne hDest]
    · exact apply_registerWrites (.output ref) _ _ _ _
    · exact hNe
  · rw [apply_registerWrites hDest]
    split
    · rfl
    · exact apply_registerWrites_of_ne (.output ref) _ _ _
        hNe.symm

theorem location_ne_output
    (hDest : dest.1.IsRegister)
    (hNot : ∀ ref, dest.1 ≠ .output ref)
    (c : Swizzle2bit) :
    registerLocation A s (.output ref) c ≠
      registerLocation A s dest.1 k := by
  intro hEq
  apply name_ne_output (A := A) (s := s) (k := k) hDest hNot
  rw [← hEq]
  rfl

theorem isUpdated_iff
    (hDest : dest.1.IsRegister)
    (hCond : ∀ c, dest.1 = .condReg c → c = 0) :
    IsUpdated i.control false (registerLocation A s dest.1 k) ↔
      OverwritesDest i dest.1 := by
  generalize dest.1 = d at hDest hCond
  rw [IsUpdated, OverwritesDest]
  cases hDest with
  | cond c =>
      obtain rfl := hCond c rfl
      cases i.control <;> simp [registerLocation]
  | _ => simp [registerLocation, tempReg]

/- The operations of the scalar slot, but for moves. -/
def scalarOps : List VertexOp :=
  [.RCP, .RSQ, .EXP, .LOG, .LIT, .LG2, .EX2, .SIN, .COS]

theorem mem_scalarOps :
    ∀ opcode ∈ vertexOpcodes0,
      opcode.Computes → opcode.instr ≠ .MOV →
        opcode.instr ∈ scalarOps ∧ 1 ≤ opcode.opCount ∧
          opcode.tex = false ∧ opcode.instr ≠ .ARA := by
  decide

/- They are functions of the first component. -/
theorem scalar_injective
    {op : VertexOp}
    {sampler sampler' : Nat}
    {x y : Fin 4 → Swizzle2bit → Sym}
    (hOp : op ∈ scalarOps)
    (hEq :
      opValue (symbolic outcome) op sampler x .Y =
        opValue (symbolic outcome) op sampler' y .Y) :
    x 1 .X = y 1 .X := by
  cases op with
  | LIT => exact hEq
  | RCP | RSQ | EXP | LOG | LG2 | EX2 | SIN | COS =>
      exact (List.cons.inj (Sym.apply.inj hEq).2).1
  | _ => exact absurd hOp (by decide)

/- None of them clamps anything but the first component. -/
theorem scalar_ne_clamp
    {op : VertexOp}
    {args : List Sym}
    (hOp : op ∈ scalarOps)
    (hEq :
      opValue (symbolic outcome) op sampler x .Y =
        .apply .clamp args) :
    x 1 .X = .apply .clamp args := by
  cases op with
  | LIT => exact hEq
  | RCP | RSQ | EXP | LOG | LG2 | EX2 | SIN | COS => cases hEq
  | _ => exact absurd hOp (by decide)

/- A source is not a component of a condition register. -/
theorem source_ne_cond
    {c : Nat}
    (hSource : src.IsSource) :
    argValue (symbolic outcome) Sym.old (.condReg c) .X ≠
      argValue (symbolic outcome) Sym.old src .X := by
  intro hEq
  rcases gives_of_symbolic (k := .X) hSource (.cond c) hEq.symm
    with ⟨num, sw, -, hTemp, -⟩
  cases hTemp

/- A copied argument is the other destination or a source. -/
theorem copied_arg
    (hOpcode : decoded.opcode slot = some opcode)
    (hComputes : opcode.Computes)
    (hSlot : vertexDasmSlot decoded slot res = some i)
    (hDests :
      destinations decoded slot opcode =
        [(.output ref, some (slotMask decoded slot)), dest])
    {p : Fin 4 × Swizzle2bit}
    (hCopied : copied opcode.instr k = some p) :
    i.args p.1 = dest.1 ∨ (i.args p.1).IsSource := by
  have hMem := opcode_mem hOpcode
  have hk : k ∈ vec id := by
    cases k <;> decide
  rcases copied_of_computes opcode hMem hComputes k hk p
      (by rw [hCopied]; exact List.mem_singleton_self p) with
    ⟨hLow, hHigh, hCount, hTex, -, hAra⟩
  rcases plain_of_computes opcode hMem hComputes with
    ⟨hControl, hPsh⟩
  by_cases hOne : p.1 = 1
  · rw [hOne, (args_pair hOpcode hSlot hDests).2]
    exact .inl rfl
  · have hTwo : p.1 = 2 := by
      rw [Fin.ext_iff] at hOne ⊢
      omega
    have hArg : i.args 2 = sourceArg decoded slot opcode 0 := by
      refine args_source hOpcode hSlot ?_ (by rw [hDests]; rfl)
      exact Nat.lt_of_lt_of_le hLow hHigh
    rw [hTwo, hArg]
    exact .inr (isSource_sourceArg hControl hAra hPsh
      (by simp [hTex]))

section

variable (hOpcode : decoded.opcode slot = some opcode)
variable (hComputes : opcode.Computes)
variable (hSlot : vertexDasmSlot decoded slot res = some i)
variable
  (hDests :
    destinations decoded slot opcode =
      [(.output ref, some (slotMask decoded slot)), dest])
variable (hOther : OtherDest decoded slot opcode dest)
include hOpcode hComputes hSlot hDests hOther

/- A move writes the source, or the old output, to both. -/
theorem after_movePair
    (address : Nat)
    (hMov : opcode.instr = .MOV)
    (hControl : i.control = .None) :
    ∃ sts,
      makeVertexStatement i address = some sts ∧
        ∀ (V : Type) (A : Arithmetic V) (s : Location → V),
          ∀ d ∈ [VertexArg.output ref, dest.1], ∀ k,
            Parallel.after (block A sts) s
                (registerLocation A s d k) =
              if (slotMask decoded slot).has k = true then
                selected A s i.condition
                  (valueOf A s opcode.instr
                    (operand decoded slot opcode))
                  (fun k =>
                    s (registerLocation A s (.output ref) k)) k
              else s (registerLocation A s d k) := by
  have hMem := opcode_mem hOpcode
  have hCount :=
    ((ops_of_computes opcode hMem hComputes).2.2 hMov).1
  rcases args_pair hOpcode hSlot hDests with ⟨hArg0, hArg1⟩
  have hArg2 : i.args 2 = sourceArg decoded slot opcode 0 :=
    args_source hOpcode hSlot (by rw [hCount]; decide)
      (by rw [hDests]; rfl)
  have hThree : i.opCount = 3 := by
    rw [(vertexDasmSlot_eq hOpcode hSlot).2.2.1, hDests, hCount]
    rfl
  have hMask := (mask_pair hOpcode hSlot hDests hOther).1
  have hSource :
      (sourceArg decoded slot opcode 0).IsSource := by
    have hOp :=
      isSource_operand (k := .X) (p := (1, .X)) hOpcode hComputes
        (by rw [hMov]; rfl)
    exact hOp
  have hSts :
      makeVertexStatement i address =
        some
          ([makeMaskedAssignment false (slotMask decoded slot)
                (convertVertexArg (.output ref))
                (appendCondition i.condition
                  (convertVertexArg
                    (sourceArg decoded slot opcode 0))
                  (convertVertexArg (.output ref))),
              makeMaskedAssignment false (slotMask decoded slot)
                (convertVertexArg dest.1)
                (appendCondition i.condition
                  (convertVertexArg
                    (sourceArg decoded slot opcode 0))
                  (convertVertexArg (.output ref)))].map
            (Statement.setAddress address)) := by
    have hUpdates : ¬ (i.control ≠ .None ∧ i.isRegC = false) :=
      fun h => h.1 hControl
    have hTwo : i.opCount ≠ 2 := by
      rw [hThree]
      decide
    rw [makeVertexStatement,
      (vertexDasmSlot_eq hOpcode hSlot).1, hMov]
    simp only [moveStatements, if_neg hUpdates, if_neg hTwo,
      if_pos hThree, Option.map_some, hArg0, hArg1, hArg2,
      hMask]
  refine ⟨_, hSts, fun V A s d hd k => ?_⟩
  rw [block_setAddress,
    after_moves hOther.register hOther.notOutput hSource hd,
    hMov]
  rfl

theorem movePair_iff
    (hMov : opcode.instr = .MOV) :
    WritesDestinations decoded slot opcode i address ↔
      i.control = .None ∧
        ∀ k, (slotMask decoded slot).has k = true →
          i.condition.relation = .TR ∧
            decoded.isSat = false := by
  have hOwn := (mask_pair hOpcode hSlot hDests hOther).2
  constructor
  · rintro ⟨sts, hSts, hWrites⟩
    have hControl : i.control = .None := by
      have hOr := control_of_move hOpcode hSlot hSts hMov
      rw [isRegC_pair hOpcode hSlot hDests] at hOr
      exact hOr.resolve_right Bool.false_ne_true
    rcases after_movePair hOpcode hComputes hSlot hDests
        hOther address hMov hControl with
      ⟨sts', hSts', hAfter⟩
    obtain rfl := Option.some.inj (hSts.symm.trans hSts')
    rw [hOwn] at hWrites
    refine ⟨hControl, fun k hk => ?_⟩
    have hRel : i.condition.relation = .TR := by
      by_contra hRel
      have hEq :=
        hWrites Sym (symbolic false) Sym.old
          (dest.1, slotMask decoded slot) (by simp) k
      rw [hAfter _ _ _ dest.1 (by simp)] at hEq
      simp only [hk, selected, holdsAt_symbolic hRel,
        guardHolds_symbolic_false hRel, Bool.and_false,
        Bool.false_eq_true, if_false, if_true] at hEq
      exact
        location_ne_output hOther.register hOther.notOutput k
          (Sym.old.inj hEq)
    refine ⟨hRel, ?_⟩
    have hEq :=
      hWrites Sym (symbolic true) Sym.old
        (.output ref, slotMask decoded slot) (by simp) k
    rw [hAfter _ _ _ (.output ref) (by simp)] at hEq
    simp only [hk, selected, holdsAt_of_TR hRel,
      guardHolds_of_TR hRel, Bool.and_self, if_true] at hEq
    exact isSat_of_result hEq
  · rintro ⟨hControl, hRight⟩
    rcases after_movePair hOpcode hComputes hSlot hDests
        hOther address hMov hControl with
      ⟨sts, hSts, hAfter⟩
    refine ⟨sts, hSts, fun V A s d hd k => ?_⟩
    rw [hOwn] at hd
    have hPair :
        d.1 ∈ [VertexArg.output ref, dest.1] ∧
          d.2 = slotMask decoded slot := by
      rw [List.mem_pair] at hd
      rcases hd with rfl | rfl <;> simp
    rw [hAfter V A s d.1 hPair.1 k, hPair.2]
    cases hk : (slotMask decoded slot).has k with
    | false => rfl
    | true =>
        rcases hRight k hk with ⟨hRel, hSat⟩
        simp only [selected, holdsAt_of_TR hRel,
          guardHolds_of_TR hRel, Bool.and_self, if_true,
          resultValue, hSat, Bool.false_eq_true, if_false]

------------------------------------------------------------
-- Two Destinations of Other Operations
------------------------------------------------------------

/- The other destination is one of the operands. -/
theorem after_pair
    (hMov : opcode.instr ≠ .MOV)
    {sts : List Statement}
    (hSts : makeVertexStatement i address = some sts)
    (k : Swizzle2bit) :
    let written :=
      if (slotMask decoded slot).has k = true then
        selected A s i.condition
          (valueOf A s opcode.instr i.args)
          (fun k => s (registerLocation A s (.output ref) k)) k
      else s (registerLocation A s (.output ref) k)
    Parallel.after (block A sts) s
          (registerLocation A s (.output ref) k) = written ∧
      Parallel.after (block A sts) s
          (registerLocation A s dest.1 k) =
        if OverwritesDest i dest.1 then written
        else s (registerLocation A s dest.1 k) := by
  have hArg := (args_pair hOpcode hSlot hDests).1
  have hMask := (mask_pair hOpcode hSlot hDests hOther).1
  have hOut : (VertexArg.output ref).IsRegister := .output ref
  have hNe :=
    name_ne_output (A := A) (s := s) (k := k) hOther.register
      hOther.notOutput
  have hComp : (registerLocation A s dest.1 k).comp = k := by
    rcases exists_variable hOther.register with
      ⟨name, index, -, hLoc⟩
    rw [hLoc]
  rw [makeVertexStatement_of_computes hOpcode hComputes hSlot
    hMov, Option.map_eq_some_iff] at hSts
  rcases hSts with ⟨rhs, hRhs, rfl⟩
  rcases eval_rhs (A := A) (s := s) hOpcode hComputes hSlot hRhs
    with ⟨hEval, hVector⟩
  rw [hArg, hMask, isRegC_pair hOpcode hSlot hDests]
  refine ⟨?_, ?_⟩
  · exact after_assign_dest address hOut hEval hVector k
  · rw [after_assign_other address hOut hEval hVector
      (by exact hNe.symm), hComp]
    simp only [isUpdated_iff hOther.register
      (fun c hc => (hOther.cond c hc).1)]

/- The update of `C0` never gives it the result of its own. -/
theorem not_overwrites
    (hScalar : ∀ c, dest.1 = .condReg c → c = 0 ∧ slot = false)
    (hMov : opcode.instr ≠ .MOV)
    (hWrites :
      WritesDestinations decoded slot opcode i address) :
    ¬ OverwritesDest i dest.1 := by
  intro hOver
  obtain rfl := (hScalar 0 hOver.2).2
  have hMem : opcode ∈ vertexOpcodes0 := by
    rw [VertexDecoded.opcode, if_neg Bool.false_ne_true]
      at hOpcode
    exact List.mem_of_getElem? hOpcode
  rcases mem_scalarOps opcode hMem hComputes hMov with
    ⟨hOp, -, hTex, hAra⟩
  rcases plain_of_computes opcode (opcode_mem hOpcode) hComputes
    with ⟨hControl, hPsh⟩
  rcases hWrites with ⟨sts, hSts, hWrites⟩
  rw [(mask_pair hOpcode hSlot hDests hOther).2] at hWrites
  have hEq :=
    fun outcome =>
      hWrites Sym (symbolic outcome) Sym.old
        (dest.1, slotMask decoded false) (by simp) .Y
  have hNe :
      ∀ outcome,
        registerLocation (symbolic outcome) Sym.old
            (.output ref) .Y ≠
          registerLocation (symbolic outcome) Sym.old dest.1
            .Y :=
    fun _ =>
      location_ne_output hOther.register hOther.notOutput .Y
  have hAfter :=
    fun outcome =>
      (after_pair (A := symbolic outcome) (s := Sym.old) hOpcode
        hComputes hSlot hDests hOther hMov hSts .Y).2
  simp only [hAfter, if_pos hOver] at hEq
  cases hk : (slotMask decoded false).has .Y with
  | false =>
      have hOld := hEq true
      simp only [hk, Bool.false_and, Bool.false_eq_true,
        if_false] at hOld
      exact hNe true (Sym.old.inj hOld)
  | true =>
      simp only [hk, if_true, Bool.true_and] at hEq
      by_cases hRel : i.condition.relation = .TR
      · -- the first source is taken for the second one
        have hValue := hEq true
        simp only [selected, holdsAt_of_TR hRel,
          guardHolds_of_TR hRel, if_true] at hValue
        have hArg := (args_pair hOpcode hSlot hDests).2
        have hSource :
            (sourceArg decoded false opcode 0).IsSource :=
          isSource_sourceArg hControl hAra hPsh (by simp [hTex])
        have hFirst :
            argValue (symbolic true) Sym.old (i.args 1) .X =
              .old ⟨"c", 0, .X⟩ := by
          rw [hArg, hOver.2]
          rfl
        rw [resultValue] at hValue
        cases hSat : decoded.isSat with
        | true =>
            simp only [hSat, if_true] at hValue
            have hClamp := scalar_ne_clamp hOp hValue
            rw [hFirst] at hClamp
            cases hClamp
        | false =>
            simp only [hSat, Bool.false_eq_true, if_false]
              at hValue
            have hSame := scalar_injective hOp hValue
            rw [hArg, hOver.2] at hSame
            exact source_ne_cond hSource hSame
      · -- where the condition fails, it gets the old output
        have hOld := hEq false
        simp only [selected, holdsAt_symbolic hRel,
          guardHolds_symbolic_false hRel, Bool.false_eq_true,
          if_false] at hOld
        exact hNe false (Sym.old.inj hOld)

/- The result is not what the output had before. -/
theorem valueOf_ne_output :
    valueOf (symbolic outcome) Sym.old opcode.instr i.args k ≠
      .old
        (registerLocation (symbolic outcome) Sym.old
          (.output ref) k) := by
  intro hOld
  rcases copied_of_symbolic hOld with ⟨p, hCopied, hArg⟩
  rcases copied_arg hOpcode hComputes hSlot hDests hCopied with
    hDest | hSource
  · rw [hDest, argValue_register hOther.register] at hArg
    exact
      location_ne_output hOther.register hOther.notOutput k
        (Sym.old.inj hArg).symm
  · rcases gives_of_symbolic hSource (.output ref) hArg with
      ⟨num, sw, -, hTemp, -⟩
    cases hTemp

/- The arguments keep a temporary register as sources would. -/
theorem keeps_args
    (hTemp : dest.1.IsSource)
    (hOld :
      valueOf (symbolic outcome) Sym.old opcode.instr i.args k =
        .old
          (registerLocation (symbolic outcome) Sym.old dest.1
            k)) :
    KeepsRegister opcode.instr i.args dest.1 k := by
  rcases copied_of_symbolic hOld with ⟨p, hCopied, hArg⟩
  have hSource : (i.args p.1).IsSource := by
    rcases copied_arg hOpcode hComputes hSlot hDests hCopied
      with hDest | hSource
    · rw [hDest]
      exact hTemp
    · exact hSource
  exact
    ⟨p, hCopied, gives_of_symbolic hSource hOther.register hArg⟩

theorem pairRight_of_writes
    (hScalar : ∀ c, dest.1 = .condReg c → c = 0 ∧ slot = false)
    (hMov : opcode.instr ≠ .MOV)
    (hWrites :
      WritesDestinations decoded slot opcode i address) :
    opcode.instr ≠ .ARA ∧
      PairRight decoded slot opcode i dest.1 := by
  have hOver :=
    not_overwrites hOpcode hComputes hSlot hDests hOther hScalar
      hMov hWrites
  rcases hWrites with ⟨sts, hSts, hWrites⟩
  rw [(mask_pair hOpcode hSlot hDests hOther).2] at hWrites
  have hTxl : opcode.instr ≠ .TXL := by
    intro hTxl
    rw [makeVertexStatement_of_computes hOpcode hComputes hSlot
      hMov, hTxl, vertexRhs,
      lookup_pair hOpcode hComputes hSlot hDests hTxl] at hSts
    cases hSts
  refine ⟨ne_ara_of_statement hOpcode hComputes hSlot hSts, ?_⟩
  rw [PairRight, if_neg hMov]
  refine ⟨hTxl, hOver, fun k hk => ?_⟩
  rcases after_pair (A := symbolic true) (s := Sym.old) hOpcode
      hComputes hSlot hDests hOther hMov hSts k with
    ⟨hFirst, hSecond⟩
  have hOutput :=
    hWrites Sym (symbolic true) Sym.old
      (.output ref, slotMask decoded slot) (by simp) k
  have hDest :=
    hWrites Sym (symbolic true) Sym.old
      (dest.1, slotMask decoded slot) (by simp) k
  simp only [hFirst, hk, selected, holdsAt_symbolic_true,
    Bool.true_and, if_true] at hOutput
  simp only [hSecond, if_neg hOver, hk, Bool.true_and] at hDest
  have hRel : i.condition.relation ≠ .FL := by
    intro hFalse
    simp only [guardHolds_of_FL hFalse, Bool.false_eq_true,
      if_false] at hOutput
    exact
      valueOf_ne_output hOpcode hComputes hSlot hDests hOther
        hOutput
  simp only [guardHolds_symbolic_true hRel, if_true]
    at hOutput hDest
  rcases keeps_of_result hOpcode hComputes hOther.register
      hDest.symm with ⟨hSat, hKeeps⟩
  refine ⟨hRel, hSat, hKeeps, ?_⟩
  have hTemp : dest.1.IsSource := by
    rcases hKeeps with ⟨p, -, num, sw, -, hTemp, -⟩
    rw [hTemp]
    exact .temp num false false _
  exact
    keeps_args hOpcode hComputes hSlot hDests hOther hTemp
      (hOutput.trans hDest.symm)

theorem writes_of_pairRight
    (hMov : opcode.instr ≠ .MOV)
    (hAra : opcode.instr ≠ .ARA)
    (hPair : PairRight decoded slot opcode i dest.1) :
    WritesDestinations decoded slot opcode i address := by
  rw [PairRight, if_neg hMov] at hPair
  rcases hPair with ⟨hTxl, hOver, hRight⟩
  have hMem := opcode_mem hOpcode
  have hSome :
      (vertexRhs opcode.instr
          (fun n => convertVertexArg (i.args n))).isSome =
        true := by
    apply isSome_vertexRhs _ hTxl
    rcases rhs_of_computes opcode hMem hComputes with h | h | h
    · exact absurd h hMov
    · exact absurd h hAra
    · exact h
  rcases Option.isSome_iff_exists.mp hSome with ⟨rhs, hRhs⟩
  have hSts : makeVertexStatement i address = _ :=
    makeVertexStatement_of_computes hOpcode hComputes hSlot hMov
  rw [hRhs, Option.map_some] at hSts
  refine ⟨_, hSts, fun V A s d hd k => ?_⟩
  rcases after_pair (A := A) (s := s) hOpcode hComputes hSlot
      hDests hOther hMov hSts k with
    ⟨hFirst, hSecond⟩
  rw [if_neg hOver] at hSecond
  rw [(mask_pair hOpcode hSlot hDests hOther).2,
    List.mem_pair] at hd
  rcases hd with rfl | rfl
  · rw [hFirst]
    cases hk : (slotMask decoded slot).has k with
    | false => rfl
    | true =>
        rcases hRight k hk with ⟨hRel, hSat, hKeeps, hArgs⟩
        simp only [if_true, Bool.true_and, selected,
          holdsAt_eq_guardHolds hRel, resultValue, hSat,
          Bool.false_eq_true, if_false, valueOf_of_keeps hKeeps,
          valueOf_of_keeps hArgs]
  · rw [hSecond]
    cases hk : (slotMask decoded slot).has k with
    | false => rfl
    | true =>
        rcases hRight k hk with ⟨-, hSat, hKeeps, -⟩
        simp only [Bool.true_and, resultValue, hSat,
          Bool.false_eq_true, if_false, valueOf_of_keeps hKeeps,
          ite_self]

end

/-
  A slot writes its destinations if it has one, does not
  saturate and has a condition that can hold; with two of them
  only if it is a move under no condition, or if it happens to
  keep what it does not write.
-/
theorem writesDestinations_iff
    (hOpcode : decoded.opcode slot = some opcode)
    (hComputes : opcode.Computes)
    (hSlot : vertexDasmSlot decoded slot res = some i) :
    WritesDestinations decoded slot opcode i address ↔
      DestinationsRight decoded slot opcode i := by
  rw [DestinationsRight]
  rcases destinations_cases hOpcode hComputes with
    ⟨dest, hDests, hDest, hMask⟩ |
      ⟨ref, dest, hDests, hOther, hScalar⟩
  · rw [hDests]
    constructor
    · exact
        singleRight_of_writes hOpcode hComputes hSlot hDests
          hDest hMask
    · rintro ⟨hAra, hRight⟩
      exact
        writes_of_singleRight hOpcode hComputes hSlot hDests
          hDest hMask hAra hRight
  · rw [hDests]
    by_cases hMov : opcode.instr = .MOV
    · have hAra : opcode.instr ≠ .ARA := by
        rw [hMov]
        decide
      simp only [PairRight, if_pos hMov, ne_eq, hAra,
        not_false_eq_true, true_and]
      exact
        movePair_iff hOpcode hComputes hSlot hDests hOther hMov
    · constructor
      · exact
          pairRight_of_writes hOpcode hComputes hSlot hDests
            hOther hScalar hMov
      · rintro ⟨hAra, hRight⟩
        exact
          writes_of_pairRight hOpcode hComputes hSlot hDests
            hOther hMov hAra hRight

/-
  An operation on constants, in the slot of vectors, with the
  destinations `o[1]` and `R0`.
-/
def pairInstr (flags op : Byte) : VertexDecoded :=
  (VertexWords.ofSlot
    ![flags, 0, 0x1c, 0x6c, 0, op, 0x30, 0x7f, 0x81, 0x86, 0xc0,
      0x83, 0x60, 0x41, 0xff, 0x84]).decode

/- An instruction before any has been decoded. -/
def blankInstr : VertexInstr where
  opCount := 0
  isSat := false
  args := fun _ => .label 0
  mask := ⟨false, false, false, false⟩
  operation := .NOP
  isLast := false
  control := .None
  condition := ⟨.TR, false, Swizzle.xyzw⟩
  isBranch := false

theorem exists_pairInstr
    (flags op : Byte)
    (hFits :
      (vertexDasmSlot (pairInstr flags op) true
            blankInstr).map
          (fun i => (i.control, i.condition.relation)) =
        some (.None, .TR)) :
    ∃ i,
      vertexDasmSlot (pairInstr flags op) true blankInstr =
          some i ∧
        i.control = .None ∧ i.condition.relation = .TR := by
  rcases Option.map_eq_some_iff.mp hFits with ⟨i, hSlot, hEq⟩
  exact ⟨i, hSlot, Prod.mk.inj hEq⟩

/- `MOV o[1], R0, ...` writes both. -/
theorem writesDestinations_mov :
    ∃ i,
      vertexDasmSlot (pairInstr 0x40 0x5d) true blankInstr =
          some i ∧
        WritesDestinations (pairInstr 0x40 0x5d) true
          (plainOpcode 1 .MOV) i 0 := by
  rcases exists_pairInstr 0x40 0x5d (by decide) with
    ⟨i, hSlot, hControl, hRel⟩
  refine ⟨i, hSlot, ?_⟩
  rw [writesDestinations_iff (by decide) (by decide) hSlot]
  exact ⟨by decide, hControl, fun k hk => ⟨hRel, by decide⟩⟩

/-
  `MUL o[1], R0, ...` takes `R0` for a factor and does not
  write it, and a move that saturates is not clamped.
-/
theorem writesDestinations_fails :
    ∃ i j,
      vertexDasmSlot (pairInstr 0x40 0x9d) true blankInstr =
          some i ∧
        ¬ WritesDestinations (pairInstr 0x40 0x9d) true
          (plainOpcode 2 .MUL) i 0 ∧
      vertexDasmSlot (pairInstr 0x44 0x5d) true blankInstr =
          some j ∧
        ¬ WritesDestinations (pairInstr 0x44 0x5d) true
          (plainOpcode 1 .MOV) j 0 := by
  rcases exists_pairInstr 0x40 0x9d (by decide) with
    ⟨i, hSlot, -⟩
  rcases exists_pairInstr 0x44 0x5d (by decide) with
    ⟨j, hSlot', -⟩
  have hOther :
      ∀ flags op n instr,
        OtherDest (pairInstr flags op) true
          (plainOpcode n instr)
          (tempReg 0, some (slotMask (pairInstr flags op) true)) :=
    fun _ _ _ _ => ⟨.temp 0, nofun, .inl rfl, nofun⟩
  have hMul :
      destinations (pairInstr 0x40 0x9d) true
          (plainOpcode 2 .MUL) =
        [(.output (.num 1),
            some (slotMask (pairInstr 0x40 0x9d) true)),
          (tempReg 0,
            some (slotMask (pairInstr 0x40 0x9d) true))] := by
    decide
  have hMov :
      destinations (pairInstr 0x44 0x5d) true
          (plainOpcode 1 .MOV) =
        [(.output (.num 1),
            some (slotMask (pairInstr 0x44 0x5d) true)),
          (tempReg 0,
            some (slotMask (pairInstr 0x44 0x5d) true))] := by
    decide
  refine ⟨i, j, hSlot, fun hWrites => ?_, hSlot', fun hWrites => ?_⟩
  · have hRight :=
      (pairRight_of_writes (by decide) (by decide) hSlot hMul
        (hOther _ _ _ _) nofun (by decide) hWrites).2
    rw [PairRight, if_neg (by decide)] at hRight
    rcases (hRight.2.2 .X (by decide)).2.2.1 with
      ⟨p, hCopied, -⟩
    cases hCopied
  · have hSat :=
      (((movePair_iff (by decide) (by decide) hSlot' hMov
        (hOther _ _ _ _) rfl).mp hWrites).2 .X (by decide)).2
    exact absurd hSat (by decide)

end Shaders

end Ps3emu
