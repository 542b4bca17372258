import Mathlib.Data.List.Basic
import Ps3emu.Shaders.AST

/-
  The structure of a fragment program: an IFE instruction has
  the labels of its else and of its end, and `RewriteIfStubs`
  moves the statements between them into the blocks of the
  statement that was made from it.

  Key definitions include:
    * `fixFirstIfStub`, `fixIfStubs`
    * `ProperlyNested`, `Structured`
    * `Fixable`

  Key theorems include:
    * `fixFirstIfStub_stub`, `fixFirstIfStub_assertion`
    * `fixIfStubs_mono`
    * `fixIfStubs_ne_ok`
-/

------------------------------------------------------------
-- The Rewriting
------------------------------------------------------------

namespace Ps3emu

namespace Shaders

namespace IfStubs

/- The instruction slot that the labels count. -/
def slot (st : Statement) : Nat :=
  st.address / 16

/- A stub is taken to be unresolved if its true block is empty. -/
def isUnresolved : Statement → Bool
  | .ifStub _ _ _ _ [] _ => true
  | _ => false

/-
  How the rewriting can fail to return: an assertion, a range
  that ends before it starts, or no end of its loops.
-/
inductive Failure where
  | assertion
  | invalidRange
  | endless

/- `end(statements)` is the length of the list. -/
def findSlot (statements : List Statement) (label : Nat) :
    Nat :=
  statements.findIdx fun st => slot st == label

/- `assert(endifLabel > statements.back()->address() / 16)`. -/
def endsBefore (statements : List Statement) (label : Nat) :
    Bool :=
  match statements.getLast? with
  | some back => slot back < label
  | none => false

/-
  One call of `fixFirstIfStub`, with the loops over the two
  blocks as a parameter: the new statements, or nothing where
  the call returns `false`.
-/
def fixFirstIfStub
    (fix : List Statement → Except Failure (List Statement))
    (statements : List Statement) :
    Except Failure (Option (List Statement)) :=
  let it := statements.findIdx isUnresolved
  match statements[it]? with
  | some (.ifStub address condition elseLabel endifLabel _ _) =>
      let trueStart := it + 1
      let trueEnd := findSlot statements elseLabel
      let falseEnd := findSlot statements endifLabel
      if falseEnd = statements.length ∧
          endsBefore statements endifLabel = false then
        .error .assertion
      else if trueEnd = statements.length then
        .error .assertion
      else if trueEnd < trueStart ∨ falseEnd < trueEnd then
        .error .invalidRange
      else
        match fix ((statements.take trueEnd).drop trueStart),
            fix ((statements.take falseEnd).drop trueEnd) with
        | .error failure, _ => .error failure
        | _, .error failure => .error failure
        | .ok trueBlock, .ok falseBlock =>
            .ok <| some <|
              statements.take it ++
                .ifStub address condition elseLabel endifLabel
                    trueBlock falseBlock ::
                  statements.drop falseEnd
  | _ => .ok none

/- `while (fixFirstIfStub(context, statements)) { }`. -/
def fixIfStubs :
    Nat → List Statement → Except Failure (List Statement)
  | 0, _ => .error .endless
  | fuel + 1, statements =>
      match fixFirstIfStub (fixIfStubs fuel) statements with
      | .error failure => .error failure
      | .ok none => .ok statements
      | .ok (some rest) => fixIfStubs fuel rest

/- The rewriting returns without failing an assertion. -/
def Rewrites (statements result : List Statement) : Prop :=
  ∃ fuel, fixIfStubs fuel statements = .ok result

end IfStubs

------------------------------------------------------------
-- Regions
------------------------------------------------------------

namespace IfStubs

/- The labels of the else and of the end of an IF. -/
def ifLabels? : Statement → Option (Nat × Nat)
  | .ifStub _ _ elseLabel endifLabel _ _ =>
      some (elseLabel, endifLabel)
  | _ => none

/- A statement as it is made from its instruction. -/
def IsFlat : Statement → Prop
  | .ifStub _ _ _ _ trueBlock falseBlock =>
      trueBlock = [] ∧ falseBlock = []
  | _ => True

/-
  Statements in the order of their instructions, in which a
  region of an IF that starts inside a region of another ends
  there as well.
-/
structure ProperlyNested (sts : List Statement) : Prop where
  flat : ∀ st ∈ sts, IsFlat st
  ordered : sts.Pairwise fun s t => slot s ≤ slot t
  alone :
    sts.Pairwise fun s t =>
      (ifLabels? s).isSome → slot s < slot t
  labels :
    ∀ s ∈ sts, ∀ labels ∈ ifLabels? s,
      slot s < labels.1 ∧ labels.1 ≤ labels.2
  nested :
    sts.Pairwise fun s t =>
      ∀ outer ∈ ifLabels? s, ∀ inner ∈ ifLabels? t,
        (slot t < outer.1 → inner.2 ≤ outer.1) ∧
          (slot t < outer.2 → inner.2 ≤ outer.2)

mutual

/- The statements that a structured statement was made from. -/
def flatten : Statement → List Statement
  | .ifStub address condition elseLabel endifLabel
        trueBlock falseBlock =>
      .ifStub address condition elseLabel endifLabel [] [] ::
        (flattenAll trueBlock ++ flattenAll falseBlock)
  | st => [st]

def flattenAll : List Statement → List Statement
  | [] => []
  | st :: rest => flatten st ++ flattenAll rest

end

mutual

/- All IFs with their blocks, at whatever depth they stand. -/
def ifs : Statement → List Statement
  | .ifStub address condition elseLabel endifLabel
        trueBlock falseBlock =>
      .ifStub address condition elseLabel endifLabel
          trueBlock falseBlock ::
        (allIfs trueBlock ++ allIfs falseBlock)
  | _ => []

def allIfs : List Statement → List Statement
  | [] => []
  | st :: rest => ifs st ++ allIfs rest

end

/- The statements with slots after the first and before the last. -/
def between (sts : List Statement) (after before : Nat) :
    List Statement :=
  sts.filter fun st => after < slot st && slot st < before

/- The statements with slots from the first to before the last. -/
def within (sts : List Statement) (start before : Nat) :
    List Statement :=
  sts.filter fun st => start ≤ slot st && slot st < before

/- The blocks of an IF hold its regions. -/
def HasRegions (sts : List Statement) : Statement → Prop
  | .ifStub address _ elseLabel endifLabel
        trueBlock falseBlock =>
      flattenAll trueBlock =
          between sts (address / 16) elseLabel ∧
        flattenAll falseBlock = within sts elseLabel endifLabel
  | _ => True

/-
  The result has every statement once and in order, and each
  IF in it has its regions as blocks.
-/
structure Structured (sts result : List Statement) : Prop where
  flat : flattenAll result = sts
  regions : ∀ st ∈ allIfs result, HasRegions sts st

/-
  A slot is inside every region that the statement is in.
-/
def Inside
    (sts : List Statement)
    (st : Statement)
    (label : Nat) :
    Prop :=
  ∀ outer ∈ sts, ∀ labels ∈ ifLabels? outer,
    slot outer < slot st →
      (slot st < labels.1 → label < labels.1) ∧
        (slot st < labels.2 → label < labels.2)

/-
  The true region of an IF is not empty, a statement of the
  region around the IF stands at its else label, and one at
  its end label unless nothing of that region comes after.
-/
structure FixableAt
    (sts : List Statement)
    (st : Statement)
    (labels : Nat × Nat) :
    Prop where
  trueRegion : ∃ t ∈ sts, slot st < slot t ∧ slot t < labels.1
  elseLabel :
    (∃ t ∈ sts, slot t = labels.1) ∧ Inside sts st labels.1
  endifLabel :
    ((∃ t ∈ sts, slot t = labels.2) ∧
        Inside sts st labels.2) ∨
      ∀ t ∈ sts, Inside sts st (slot t) → slot t < labels.2

def Fixable (sts : List Statement) : Prop :=
  ∀ st ∈ sts, ∀ labels ∈ ifLabels? st, FixableAt sts st labels

end IfStubs

------------------------------------------------------------
-- One Call
------------------------------------------------------------

namespace IfStubs

/- The slot of the first statement. -/
def headSlot (sts : List Statement) : Option Nat :=
  sts.head?.map slot

/- Statements in order fall into those below a slot and others. -/
theorem exists_split
    {sts : List Statement}
    (hOrdered : sts.Pairwise fun s t => slot s ≤ slot t)
    (label : Nat) :
    ∃ below above, sts = below ++ above ∧
      (∀ s ∈ below, slot s < label) ∧
      ∀ s ∈ above, label ≤ slot s := by
  induction sts with
  | nil => exact ⟨[], [], rfl, by simp, by simp⟩
  | cons st rest ih =>
      obtain ⟨hFirst, hRest⟩ := List.pairwise_cons.mp hOrdered
      rcases Nat.lt_or_ge (slot st) label with hBelow | hAbove
      · obtain ⟨below, above, rfl, hB, hA⟩ := ih hRest
        refine ⟨st :: below, above, rfl, ?_, hA⟩
        simpa using ⟨hBelow, hB⟩
      · refine ⟨[], st :: rest, rfl, by simp, ?_⟩
        simp only [List.mem_cons, forall_eq_or_imp]
        exact ⟨hAbove, fun s hs => Nat.le_trans hAbove (hFirst s hs)⟩

theorem findSlot_append
    {before after : List Statement} {label : Nat}
    (hBefore : ∀ s ∈ before, slot s ≠ label) :
    findSlot (before ++ after) label =
      before.length + findSlot after label := by
  have hNone :
      before.findIdx (fun st => slot st == label) =
        before.length := by
    rw [List.findIdx_eq_length]
    simpa using hBefore
  rw [findSlot, List.findIdx_append, hNone, if_neg (by omega)]
  exact Nat.add_comm _ _

/- Past a label only the first statement can stand at it. -/
theorem findSlot_of_le
    {sts : List Statement} {label : Nat}
    (hOrdered : sts.Pairwise fun s t => slot s ≤ slot t)
    (hLe : ∀ s ∈ sts, label ≤ slot s) :
    findSlot sts label =
      if headSlot sts = some label then 0 else sts.length := by
  cases sts with
  | nil => rfl
  | cons st rest =>
      by_cases hHead : slot st = label
      · simp [findSlot, headSlot, hHead, List.findIdx_cons]
      · have hFirst := (List.pairwise_cons.mp hOrdered).1
        have hSt := hLe st List.mem_cons_self
        rw [if_neg (by simpa [headSlot] using hHead), findSlot,
          List.findIdx_eq_length]
        intro s hs
        rcases List.mem_cons.mp hs with rfl | hs
        · simpa using hHead
        · have := hFirst s hs
          simp only [beq_eq_false_iff_ne]
          omega

/- Where the statement at a label is, if there is one. -/
theorem exists_slot_iff
    {before after : List Statement} {label : Nat}
    (hBefore : ∀ s ∈ before, slot s < label)
    (hOrdered : after.Pairwise fun s t => slot s ≤ slot t)
    (hAfter : ∀ s ∈ after, label ≤ slot s) :
    (∃ t ∈ before ++ after, slot t = label) ↔
      headSlot after = some label := by
  constructor
  · rintro ⟨t, ht, rfl⟩
    rcases List.mem_append.mp ht with hOld | hNew
    · exact absurd (hBefore t hOld) (Nat.lt_irrefl _)
    · cases after with
      | nil => cases hNew
      | cons st rest =>
          have hSt := hAfter st List.mem_cons_self
          rcases List.mem_cons.mp hNew with rfl | hRest
          · rfl
          · have :=
              (List.pairwise_cons.mp hOrdered).1 t hRest
            exact congrArg some (by omega)
  · intro hHead
    cases after with
    | nil => cases hHead
    | cons st rest =>
        exact ⟨st, by simp, Option.some.inj hHead⟩

/-
  An unresolved IF with the statements around it: `before` has
  no other, and the rest is its two regions and what follows.
-/
structure AtStub
    (before : List Statement)
    (ifSlot elseLabel endifLabel : Nat)
    (trueRegion falseRegion after : List Statement) :
    Prop where
  resolved : ∀ s ∈ before, isUnresolved s = false
  before_le : ∀ s ∈ before, slot s ≤ ifSlot
  lt_else : ifSlot < elseLabel
  le_endif : elseLabel ≤ endifLabel
  true_lt : ∀ s ∈ trueRegion, slot s < elseLabel
  le_false : ∀ s ∈ falseRegion, elseLabel ≤ slot s
  false_lt : ∀ s ∈ falseRegion, slot s < endifLabel
  le_after : ∀ s ∈ after, endifLabel ≤ slot s
  ordered :
    (falseRegion ++ after).Pairwise fun s t => slot s ≤ slot t

/- Both labels can be found, or the second is past the end. -/
def Found
    (elseLabel endifLabel : Nat)
    (falseRegion after : List Statement) :
    Prop :=
  headSlot (falseRegion ++ after) = some elseLabel ∧
    (after = [] ∨ headSlot after = some endifLabel)

section

variable {before T F after : List Statement} {address e n : Nat}
variable {condition : Expression}
variable {old : List Statement}

/- The list with the IF at which one call looks. -/
abbrev stubList
    (before : List Statement)
    (address : Nat) (condition : Expression) (e n : Nat)
    (t f : List Statement)
    (rest : List Statement) :
    List Statement :=
  before ++ .ifStub address condition e n t f :: rest

section

variable (h : AtStub before (address / 16) e n T F after)

include h

theorem AtStub.findIdx_unresolved :
    (stubList before address condition e n [] old
        (T ++ F ++ after)).findIdx isUnresolved =
      before.length := by
  have hNone :
      before.findIdx isUnresolved = before.length := by
    rw [List.findIdx_eq_length]
    exact h.resolved
  rw [List.findIdx_append, hNone, if_neg (by omega)]
  simp [List.findIdx_cons, isUnresolved]

theorem AtStub.findSlot_else
    (condition : Expression)
    (old : List Statement) :
    findSlot
        (stubList before address condition e n [] old
          (T ++ F ++ after)) e =
      before.length + 1 + T.length +
        if headSlot (F ++ after) = some e then 0
        else (F ++ after).length := by
  have hLe : ∀ s ∈ F ++ after, e ≤ slot s := by
    intro s hs
    rcases List.mem_append.mp hs with hF | hAfter
    · exact h.le_false s hF
    · exact Nat.le_trans h.le_endif (h.le_after s hAfter)
  have hBefore :
      ∀ s ∈ stubList before address condition e n [] old T,
        slot s ≠ e := by
    intro s hs
    have hLt := h.lt_else
    rcases List.mem_append.mp hs with hOld | hNew
    · have := h.before_le s hOld
      omega
    · rcases List.mem_cons.mp hNew with rfl | hT
      · exact Nat.ne_of_lt hLt
      · exact Nat.ne_of_lt (h.true_lt s hT)
  have hList :
      stubList before address condition e n [] old
          (T ++ F ++ after) =
        stubList before address condition e n [] old T ++
          (F ++ after) := by
    simp [stubList]
  rw [hList, findSlot_append hBefore,
    findSlot_of_le h.ordered hLe]
  simp [stubList]
  omega

theorem AtStub.findSlot_endif
    (condition : Expression)
    (old : List Statement) :
    findSlot
        (stubList before address condition e n [] old
          (T ++ F ++ after)) n =
      before.length + 1 + T.length + F.length +
        if headSlot after = some n then 0
        else after.length := by
  have hBefore :
      ∀ s ∈ stubList before address condition e n [] old
          (T ++ F),
        slot s ≠ n := by
    intro s hs
    have hLt := h.lt_else
    have hLe := h.le_endif
    rcases List.mem_append.mp hs with hOld | hNew
    · have := h.before_le s hOld
      omega
    · rcases List.mem_cons.mp hNew with rfl | hNew
      · exact Nat.ne_of_lt (Nat.lt_of_lt_of_le hLt hLe)
      · rcases List.mem_append.mp hNew with hT | hF
        · have := h.true_lt s hT
          omega
        · exact Nat.ne_of_lt (h.false_lt s hF)
  have hList :
      stubList before address condition e n [] old
          (T ++ F ++ after) =
        stubList before address condition e n [] old
          (T ++ F) ++ after := by
    simp [stubList]
  rw [hList, findSlot_append hBefore,
    findSlot_of_le (List.pairwise_append.mp h.ordered).2.1
      h.le_after]
  simp [stubList]
  omega

/- The last statement of the list comes from what follows. -/
theorem AtStub.endsBefore :
    endsBefore
        (stubList before address condition e n [] old
          (T ++ F ++ after)) n =
      decide (after = []) := by
  have hLt := h.lt_else
  have hLe := h.le_endif
  cases after with
  | nil =>
      have hAll :
          ∀ s ∈ stubList before address condition e n [] old
              (T ++ F ++ []),
            slot s < n := by
        intro s hs
        rcases List.mem_append.mp hs with hOld | hNew
        · have := h.before_le s hOld
          omega
        · rcases List.mem_cons.mp hNew with rfl | hNew
          · exact Nat.lt_of_lt_of_le hLt hLe
          · rw [List.append_nil] at hNew
            rcases List.mem_append.mp hNew with hT | hF
            · exact Nat.lt_of_lt_of_le (h.true_lt s hT) hLe
            · exact h.false_lt s hF
      rw [IfStubs.endsBefore]
      split
      case h_1 back hBack =>
        simpa using hAll back (List.mem_of_getLast? hBack)
      case h_2 hNone => simp at hNone
  | cons first rest =>
      have hLast :
          (stubList before address condition e n [] old
              (T ++ F ++ first :: rest)).getLast? =
            some ((first :: rest).getLast (by simp)) := by
        rw [stubList, ← List.cons_append, ← List.append_assoc,
          List.getLast?_append,
          List.getLast?_eq_some_getLast (by simp)]
        rfl
      have hSlot :=
        h.le_after _ (List.getLast_mem (l := first :: rest)
          (by simp))
      rw [IfStubs.endsBefore, hLast]
      simpa using hSlot

end

theorem stubList_length :
    (stubList before address condition e n [] old
        (T ++ F ++ after)).length =
      before.length + 1 + T.length + F.length +
        after.length := by
  simp [stubList]
  omega

/- `std::vector(first, last)` of a part in the middle. -/
theorem drop_take_middle
    (first middle last : List Statement) :
    ((first ++ (middle ++ last)).take
        (first.length + middle.length)).drop first.length =
      middle := by
  simp [List.drop_take]

/- Both labels found, the call takes the two regions out. -/
theorem fixFirstIfStub_stub
    (h : AtStub before (address / 16) e n T F after)
    (hFound : Found e n F after)
    (fix : List Statement → Except Failure (List Statement)) :
    fixFirstIfStub fix
        (stubList before address condition e n [] old
          (T ++ F ++ after)) =
      match fix T, fix F with
      | .error failure, _ => .error failure
      | _, .error failure => .error failure
      | .ok trueBlock, .ok falseBlock =>
          .ok <| some <|
            stubList before address condition e n
              trueBlock falseBlock after := by
  have hElse := h.findSlot_else condition old
  have hEnd := h.findSlot_endif condition old
  rw [if_pos hFound.1, Nat.add_zero] at hElse
  have hEnd' :
      findSlot
          (stubList before address condition e n [] old
            (T ++ F ++ after)) n =
        before.length + 1 + T.length + F.length := by
    rw [hEnd]
    rcases hFound.2 with rfl | hHead
    · simp
    · rw [if_pos hHead, Nat.add_zero]
  have hNonempty : 0 < F.length + after.length := by
    rw [← List.length_append]
    refine List.length_pos_of_ne_nil ?_
    intro hNil
    have hHead := hFound.1
    rw [hNil] at hHead
    cases hHead
  have hAt :
      (stubList before address condition e n [] old
          (T ++ F ++ after))[before.length]? =
        some (.ifStub address condition e n [] old) := by
    simp [stubList]
  have hLength :
      (stubList before address condition e n [] old
          (T ++ F ++ after)).length =
        before.length + 1 + T.length + F.length +
          after.length :=
    stubList_length
  have hTrue :
      ((stubList before address condition e n [] old
          (T ++ F ++ after)).take
            (before.length + 1 + T.length)).drop
          (before.length + 1) = T := by
    have hSplit :
        stubList before address condition e n [] old
            (T ++ F ++ after) =
          (before ++
              [.ifStub address condition e n [] old]) ++
            (T ++ (F ++ after)) := by
      simp [stubList]
    have hLen :
        before.length + 1 =
          (before ++
            [Statement.ifStub address condition e n []
              old]).length := by
      simp
    rw [hSplit, hLen]
    exact drop_take_middle _ T (F ++ after)
  have hFalse :
      ((stubList before address condition e n [] old
          (T ++ F ++ after)).take
            (before.length + 1 + T.length + F.length)).drop
          (before.length + 1 + T.length) = F := by
    simpa [stubList, Nat.add_assoc, Nat.add_comm 1] using
      drop_take_middle
        (before ++ .ifStub address condition e n [] old :: T) F
        after
  have hRest :
      (stubList before address condition e n [] old
          (T ++ F ++ after)).drop
        (before.length + 1 + T.length + F.length) = after := by
    simpa [stubList, Nat.add_assoc, Nat.add_comm 1] using
      @List.drop_left _
        (before ++
          .ifStub address condition e n [] old :: (T ++ F))
        after
  have hTake :
      (stubList before address condition e n [] old
          (T ++ F ++ after)).take before.length = before := by
    simp [stubList]
  rw [fixFirstIfStub, h.findIdx_unresolved]
  simp only [hAt, hElse, hEnd', h.endsBefore, hTrue, hFalse,
    hRest, hTake]
  rw [if_neg, if_neg (by omega), if_neg (by omega)]
  rintro ⟨hEq, hAfter⟩
  simp only [decide_eq_false_iff_not] at hAfter
  have := List.length_pos_of_ne_nil hAfter
  omega

/- Otherwise one of its assertions fails. -/
theorem fixFirstIfStub_assertion
    (h : AtStub before (address / 16) e n T F after)
    (hNot : ¬ Found e n F after)
    (fix : List Statement → Except Failure (List Statement)) :
    fixFirstIfStub fix
        (stubList before address condition e n [] old
          (T ++ F ++ after)) =
      .error .assertion := by
  have hElse := h.findSlot_else condition old
  have hEnd := h.findSlot_endif condition old
  have hLength :
      (stubList before address condition e n [] old
          (T ++ F ++ after)).length =
        before.length + 1 + T.length + F.length +
          after.length :=
    stubList_length
  have hAt :
      (stubList before address condition e n [] old
          (T ++ F ++ after))[before.length]? =
        some (.ifStub address condition e n [] old) := by
    simp [stubList]
  rw [fixFirstIfStub, h.findIdx_unresolved]
  simp only [hAt, h.endsBefore]
  by_cases hAfter : after = [] ∨ headSlot after = some n
  · have hHead : ¬ headSlot (F ++ after) = some e :=
      fun hHead => hNot ⟨hHead, hAfter⟩
    rw [if_neg hHead, List.length_append] at hElse
    have hNone :
        findSlot
            (stubList before address condition e n [] old
              (T ++ F ++ after)) e =
          (stubList before address condition e n [] old
            (T ++ F ++ after)).length := by
      omega
    rw [if_pos hNone]
    split <;> rfl
  · rw [not_or] at hAfter
    rw [if_neg hAfter.2] at hEnd
    have hNone :
        findSlot
            (stubList before address condition e n [] old
              (T ++ F ++ after)) n =
          (stubList before address condition e n [] old
            (T ++ F ++ after)).length := by
      omega
    rw [if_pos ⟨hNone, by simpa using hAfter.1⟩]

/- With every IF resolved the call returns `false`. -/
theorem fixFirstIfStub_resolved
    {sts : List Statement}
    (hResolved : ∀ s ∈ sts, isUnresolved s = false)
    (fix : List Statement → Except Failure (List Statement)) :
    fixFirstIfStub fix sts = .ok none := by
  have hNone : sts.findIdx isUnresolved = sts.length := by
    rw [List.findIdx_eq_length]
    exact hResolved
  simp [fixFirstIfStub, hNone]

/- A call does the same with loops that return more often. -/
theorem fixFirstIfStub_mono
    {fix fix' : List Statement → Except Failure (List Statement)}
    (hFix : ∀ sts result, fix sts = .ok result →
      fix' sts = .ok result)
    {sts : List Statement}
    {result : Option (List Statement)}
    (hCall : fixFirstIfStub fix sts = .ok result) :
    fixFirstIfStub fix' sts = .ok result := by
  dsimp only [fixFirstIfStub] at hCall ⊢
  split at hCall
  case h_2 => exact hCall
  case h_1 =>
    split at hCall
    case isTrue => cases hCall
    case isFalse hAssert =>
      rw [if_neg hAssert]
      split at hCall
      case isTrue => cases hCall
      case isFalse hElse =>
        rw [if_neg hElse]
        split at hCall
        case isTrue => cases hCall
        case isFalse hRange =>
          rw [if_neg hRange]
          split at hCall
          case h_1 => cases hCall
          case h_2 => cases hCall
          case h_3 trueBlock falseBlock hTrue hFalse =>
            rw [hFix _ _ hTrue, hFix _ _ hFalse]
            exact hCall

theorem fixIfStubs_succ
    {fuel : Nat} {sts result : List Statement}
    (hFix : fixIfStubs fuel sts = .ok result) :
    fixIfStubs (fuel + 1) sts = .ok result := by
  induction fuel generalizing sts result with
  | zero => cases hFix
  | succ fuel ih =>
      rw [fixIfStubs] at hFix ⊢
      split at hFix
      case h_1 => cases hFix
      case h_2 hCall =>
        rw [fixFirstIfStub_mono (fun _ _ => ih) hCall]
        exact hFix
      case h_3 rest hCall =>
        rw [fixFirstIfStub_mono (fun _ _ => ih) hCall]
        exact ih hFix

/- More steps than enough change nothing. -/
theorem fixIfStubs_mono
    {fuel fuel' : Nat} {sts result : List Statement}
    (hFix : fixIfStubs fuel sts = .ok result)
    (hLe : fuel ≤ fuel') :
    fixIfStubs fuel' sts = .ok result := by
  induction hLe with
  | refl => exact hFix
  | step _ ih => exact fixIfStubs_succ ih

/-
  An IF without statements in its true region stays
  unresolved: each round looks at it again, until its else
  label is gone or forever.
-/
theorem fixIfStubs_ne_ok
    (h : AtStub before (address / 16) e n [] F after)
    (fuel : Nat)
    (result : List Statement) :
    fixIfStubs fuel
        (stubList before address condition e n [] old
          ([] ++ F ++ after)) ≠
      .ok result := by
  induction fuel generalizing old F with
  | zero => simp [fixIfStubs]
  | succ fuel ih =>
      rw [fixIfStubs]
      by_cases hFound : Found e n F after
      · rw [fixFirstIfStub_stub h hFound]
        cases fuel with
        | zero => simp [fixIfStubs]
        | succ fuel =>
            have hNil : fixIfStubs (fuel + 1) [] = .ok [] := by
              rw [fixIfStubs,
                fixFirstIfStub_resolved (by simp)]
            rw [hNil]
            cases fixIfStubs (fuel + 1) F with
            | error failure => simp
            | ok falseBlock =>
                refine ih (F := []) ⟨h.resolved, h.before_le,
                  h.lt_else, h.le_endif, h.true_lt, by simp,
                  by simp, h.le_after, ?_⟩
                exact (List.pairwise_append.mp h.ordered).2.1
      · rw [fixFirstIfStub_assertion h hFound]
        simp

end

end IfStubs

end Shaders

end Ps3emu
