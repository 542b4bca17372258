import Mathlib.Data.List.Basic
import Ps3emu.Shaders.Execution

/-
  Branches of a vertex program: GLSL has no jump, so that
  `RewriteBranches` puts the statements into the cases of a
  switch in a loop, with the next case in the variable `nip`.

  Key definitions include:
    * `blockLabels`, `switchCases`, `rewriteBranches`
    * `jumpStep`
    * `VertexProgram`

  Key theorems include:
    * `entry_switchCases`
    * `switchCases_increasing`
    * `rewritten_simulates`
    * `rewriteBranches_refines`
-/

------------------------------------------------------------
-- The Rewriting
------------------------------------------------------------

namespace Ps3emu

namespace Shaders

mutual

/-
  `DoesContainBranchVisitor`: the labels that are assigned to
  `nip`, or nothing where its assertion fails.
-/
def labels : Statement → Option (List Int)
  | .assignment _ dest expr =>
      if isNip dest then
        match expr with
        | .integerLiteral value => some [value]
        | _ => none
      else
        some []
  | .ifStatement _ _ trueBlock falseBlock =>
      return (← blockLabels trueBlock) ++
        (← blockLabels falseBlock)
  | .ifStub _ _ _ _ trueBlock falseBlock =>
      return (← blockLabels trueBlock) ++
        (← blockLabels falseBlock)
  | .switchStatement _ _ cases => caseLabels cases
  | .breakStatement _ => some []
  | .discardStatement _ => some []
  | .whileStatement _ _ body => blockLabels body

def blockLabels : List Statement → Option (List Int)
  | [] => some []
  | st :: rest =>
      return (← labels st) ++ (← blockLabels rest)

def caseLabels :
    List (Nat × List Statement) → Option (List Int)
  | [] => some []
  | (_, body) :: rest =>
      return (← blockLabels body) ++ (← caseLabels rest)

end

/- `nip = value`. -/
def assignNip (value : Int) : Statement :=
  .assignment Statement.noAddress nip (.integerLiteral value)

/- `sw->addCase(curCase.front()->address(), curCase)`. -/
def addCase (curCase : List Statement) :
    Nat × List Statement :=
  ((curCase.map Statement.address).headD 0, curCase)

/- The loop of `RewriteBranches`, with the case begun so far. -/
def switchCases (labels : List Int) :
    List Statement → List Statement →
      List (Nat × List Statement)
  | _, [] => []
  | curCase, [st] => [addCase (curCase ++ [st, assignNip (-1)])]
  | curCase, st :: next :: rest =>
      if st.address = next.address then
        switchCases labels (curCase ++ [st]) (next :: rest)
      else if (next.address : Int) ∉ labels then
        switchCases labels (curCase ++ [st]) (next :: rest)
      else
        addCase (curCase ++ [st]) ::
          switchCases labels [] (next :: rest)

/- `while (nip != -1) { switch (nip) { .. } }`. -/
def nipSwitch (cases : List (Nat × List Statement)) :
    Statement :=
  .switchStatement Statement.noAddress nip cases

def nipLoop (cases : List (Nat × List Statement)) :
    Statement :=
  .whileStatement Statement.noAddress (nipNotEqual (-1))
    [nipSwitch cases]

def rewriteBranches (sts : List Statement) :
    Option (List Statement) :=
  match blockLabels sts with
  | none => none
  | some [] => some sts
  | some labels =>
      some [assignNip 0, nipLoop (switchCases labels [] sts)]

------------------------------------------------------------
-- Vertex Programs With Jumps
------------------------------------------------------------

/-
  The condition and the label of a branch: `nip = label`, or
  `if (condition) { nip = label; break; }`.
-/
def branch? : Statement → Option (Option Expression × Int)
  | .assignment _ dest expr =>
      (nipValue? dest expr).map (none, ·)
  | .ifStatement _ condition
        [.assignment _ dest expr, .breakStatement _] [] =>
      (nipValue? dest expr).map (some condition, ·)
  | _ => none

/- The program from the first statement at the label on. -/
def target (sts : List Statement) (label : Int) :
    List Statement :=
  sts.dropWhile fun st => (st.address : Int) != label

/-
  What the original list means: a branch goes on at its
  label, every other statement at the next one.
-/
def jumpStep
    {σ : Type}
    (I : Interpretation σ)
    (sts : List Statement) :
    Process (List Statement × σ) Statement
  | ([], _) => none
  | (st :: rest, data) =>
      match branch? st with
      | some (condition, label) =>
          if condition.all fun c => I.holds c data then
            some (none, (target sts label, data))
          else
            some (none, (rest, data))
      | none =>
          match st with
          | .assignment _ dest expr =>
              some (some st, (rest, I.assign dest expr data))
          | .whileStatement _ condition [] =>
              if I.holds condition data then
                some (none, (st :: rest, data))
              else
                some (some st, (rest, data))
          | _ => none

/-
  Statements as they are made from vertex instructions: the
  two parts of an unconditional branch have one address, and
  only branches have to do with `nip`.
-/
inductive VertexStatements (known : Int → Prop) :
    List Statement → Prop where
  | nil : VertexStatements known []
  | assignment
      {address : Nat} {dest expr : Expression}
      {rest : List Statement} :
      isNip dest = false →
      VertexStatements known rest →
      VertexStatements known
        (.assignment address dest expr :: rest)
  | nop
      {address : Nat} {condition : Expression}
      {rest : List Statement} :
      nipCompared? condition = none →
      VertexStatements known rest →
      VertexStatements known
        (.whileStatement address condition [] :: rest)
  | jump
      {address : Nat} {label : Int}
      {rest : List Statement} :
      known label →
      VertexStatements known rest →
      VertexStatements known
        (.assignment address nip (.integerLiteral label) ::
          .breakStatement address :: rest)
  | branch
      {address first second : Nat} {label : Int}
      {condition : Expression}
      {rest : List Statement} :
      nipCompared? condition = none →
      known label →
      VertexStatements known rest →
      VertexStatements known
        (.ifStatement address condition
          [.assignment first nip (.integerLiteral label),
            .breakStatement second] [] :: rest)

/- The label is the address of some statement. -/
def IsAddress (sts : List Statement) (label : Int) : Prop :=
  ∃ st ∈ sts, (st.address : Int) = label

structure VertexProgram (sts : List Statement) : Prop where
  statements : VertexStatements (IsAddress sts) sts
  ordered : (sts.map Statement.address).Pairwise (· ≤ ·)
  first : ∀ st, sts.head? = some st → st.address = 0

namespace VertexStatements

variable {known : Int → Prop} {sts : List Statement}

theorem mono
    {known' : Int → Prop}
    (hKnown : ∀ label, known label → known' label)
    (hSts : VertexStatements known sts) :
    VertexStatements known' sts := by
  induction hSts with
  | nil => exact .nil
  | assignment hDest _ ih => exact .assignment hDest ih
  | nop hCondition _ ih => exact .nop hCondition ih
  | jump hLabel _ ih => exact .jump (hKnown _ hLabel) ih
  | branch hCondition hLabel _ ih =>
      exact .branch hCondition (hKnown _ hLabel) ih

/- A branch never goes to the second part of another. -/
theorem target
    (hSts : VertexStatements known sts)
    (label : Int) :
    VertexStatements known (target sts label) := by
  unfold Shaders.target
  induction hSts with
  | nil => exact .nil
  | assignment hDest hRest ih =>
      rw [List.dropWhile_cons]
      split
      case isTrue => exact ih
      case isFalse => exact .assignment hDest hRest
  | nop hCondition hRest ih =>
      rw [List.dropWhile_cons]
      split
      case isTrue => exact ih
      case isFalse => exact .nop hCondition hRest
  | jump hLabel hRest ih =>
      rw [List.dropWhile_cons]
      split
      case isTrue hOther =>
        rw [List.dropWhile_cons]
        split
        case isTrue => exact ih
        case isFalse hSame => exact absurd hOther hSame
      case isFalse => exact .jump hLabel hRest
  | branch hCondition hLabel hRest ih =>
      rw [List.dropWhile_cons]
      split
      case isTrue => exact ih
      case isFalse => exact .branch hCondition hLabel hRest

/-
  The visitor's assertion holds, and the labels it collects
  are those of the branches.
-/
theorem blockLabels
    (hSts : VertexStatements known sts) :
    ∃ labels, blockLabels sts = some labels ∧
      VertexStatements (fun label =>
        label ∈ labels ∧ known label) sts := by
  induction hSts with
  | nil => exact ⟨[], rfl, .nil⟩
  | assignment hDest _ ih =>
      obtain ⟨found, hFound, hRest⟩ := ih
      refine ⟨found, ?_, .assignment hDest hRest⟩
      simp [Shaders.blockLabels, labels, hDest, hFound]
  | nop hCondition _ ih =>
      obtain ⟨found, hFound, hRest⟩ := ih
      refine ⟨found, ?_, .nop hCondition hRest⟩
      simp [Shaders.blockLabels, labels, hFound]
  | @jump address label rest hLabel _ ih =>
      obtain ⟨found, hFound, hRest⟩ := ih
      refine ⟨label :: found, ?_, .jump ⟨by simp, hLabel⟩ ?_⟩
      · simp [Shaders.blockLabels, labels, hFound]
      · exact hRest.mono fun other hOther =>
          ⟨List.mem_cons_of_mem label hOther.1, hOther.2⟩
  | @branch address first second label condition rest
      hCondition hLabel _ ih =>
      obtain ⟨found, hFound, hRest⟩ := ih
      refine
        ⟨label :: found, ?_,
          .branch hCondition ⟨by simp, hLabel⟩ ?_⟩
      · simp [Shaders.blockLabels, labels, hFound]
      · exact hRest.mono fun other hOther =>
          ⟨List.mem_cons_of_mem label hOther.1, hOther.2⟩

end VertexStatements

------------------------------------------------------------
-- The Cases of the Switch
------------------------------------------------------------

variable {found : List Int} {curCase sts : List Statement}

theorem addCase_front
    (curCase rest : List Statement) (st : Statement) :
    (addCase (curCase ++ st :: rest)).1 =
      (addCase (curCase ++ [st])).1 := by
  cases curCase <;> rfl

/- The first case begins with the first statement. -/
theorem switchCases_head
    (hSts : sts ≠ []) :
    ∃ c cases, switchCases found curCase sts = c :: cases ∧
      c.1 = (addCase (curCase ++ sts)).1 := by
  fun_induction switchCases found curCase sts with
  | case1 => exact absurd rfl hSts
  | case2 curCase st =>
      exact ⟨_, [], rfl, addCase_front curCase [_] st⟩
  | case3 curCase st next rest _ ih =>
      simpa using ih (by simp)
  | case4 curCase st next rest _ _ ih =>
      simpa using ih (by simp)
  | case5 curCase st next rest _ _ _ =>
      exact ⟨_, _, rfl, (addCase_front curCase _ st).symm⟩

/- The cases together are the statements and the exit. -/
theorem flatten_switchCases
    (hSts : sts ≠ []) :
    ((switchCases found curCase sts).map Prod.snd).flatten =
      curCase ++ sts ++ [assignNip (-1)] := by
  fun_induction switchCases found curCase sts with
  | case1 => exact absurd rfl hSts
  | case2 curCase st => simp [addCase]
  | case3 curCase st next rest _ ih =>
      rw [ih (by simp)]
      simp
  | case4 curCase st next rest _ _ ih =>
      rw [ih (by simp)]
      simp
  | case5 curCase st next rest _ _ ih =>
      simp [addCase, ih]

theorem entry_cons_self
    (c : Nat × List Statement)
    (cases : List (Nat × List Statement)) :
    entry (c :: cases) c.1 =
      c.2 ++ (cases.map Prod.snd).flatten := by
  simp [entry]

theorem entry_cons_of_ne
    {c : Nat × List Statement} {value : Int}
    (cases : List (Nat × List Statement))
    (hOther : (c.1 : Int) ≠ value) :
    entry (c :: cases) value = entry cases value := by
  simp [entry, hOther]

/- The switch entered at its first case does everything. -/
theorem entry_front
    (hSts : sts ≠ []) :
    entry (switchCases found curCase sts)
        (addCase (curCase ++ sts)).1 =
      curCase ++ sts ++ [assignNip (-1)] := by
  have hFlatten :
      ((switchCases found curCase sts).map Prod.snd).flatten =
        curCase ++ sts ++ [assignNip (-1)] :=
    flatten_switchCases hSts
  obtain ⟨c, cases, hCases, hFront⟩ :=
    @switchCases_head found curCase sts hSts
  rw [← hFlatten, hCases, entry,
    List.dropWhile_cons_of_neg (by simp [hFront])]

/-
  A label in a case that has been begun is the case's own
  address: a label anywhere else would have begun a new case.
-/
def Begun
    (found : List Int)
    (curCase : List Statement)
    (st : Statement) :
    Prop :=
  ∀ s ∈ curCase ++ [st], (s.address : Int) ∈ found →
    s.address = (addCase (curCase ++ [st])).1

theorem Begun.single (found : List Int) (st : Statement) :
    Begun found [] st := by
  intro s hs _
  simp only [List.nil_append, List.mem_singleton] at hs
  rw [hs]
  rfl

theorem Begun.snoc
    {st next : Statement}
    (hBegun : Begun found curCase st)
    (hNext :
      (next.address : Int) ∈ found →
        st.address = next.address) :
    Begun found (curCase ++ [st]) next := by
  intro s hs hFound
  rw [List.append_assoc, List.singleton_append,
    addCase_front]
  rcases List.mem_append.mp hs with hOld | hNew
  · exact hBegun s hOld hFound
  · rw [List.mem_singleton.mp hNew] at hFound ⊢
    have hSame := hNext hFound
    rw [← hSame] at hFound ⊢
    exact hBegun st (by simp) hFound

theorem target_front
    {st : Statement} {rest : List Statement} :
    target (curCase ++ st :: rest)
        (addCase (curCase ++ [st])).1 =
      curCase ++ st :: rest := by
  cases curCase with
  | nil => simp [target, addCase]
  | cons first curCase => simp [target, addCase]

theorem target_append
    {before rest : List Statement} {label : Int}
    (hBefore : ∀ s ∈ before, (s.address : Int) ≠ label) :
    target (before ++ rest) label = target rest label := by
  refine List.dropWhile_append_of_pos ?_
  intro s hs
  simpa using hBefore s hs

/-
  The switch entered at a label does what is left of the
  program from the label on.
-/
theorem entry_switchCases
    {label : Int}
    (hSts : sts ≠ [])
    (hFound : label ∈ found)
    (hAddress : IsAddress (curCase ++ sts) label)
    (hBegun :
      ∀ st, sts.head? = some st → Begun found curCase st) :
    entry (switchCases found curCase sts) label =
      target (curCase ++ sts) label ++ [assignNip (-1)] := by
  fun_induction switchCases found curCase sts with
  | case1 => exact absurd rfl hSts
  | case2 curCase st =>
      obtain ⟨s, hs, rfl⟩ := hAddress
      rw [hBegun st rfl s hs hFound, target_front]
      simp [entry, addCase]
  | case3 curCase st next rest hSame ih =>
      have hNext := (hBegun st rfl).snoc fun _ => hSame
      simpa using
        ih (by simp) (by simpa using hAddress)
          (by simpa using hNext)
  | case4 curCase st next rest _ hOther ih =>
      have hNext :=
        (hBegun st rfl).snoc fun hLabel =>
          absurd hLabel hOther
      simpa using
        ih (by simp) (by simpa using hAddress)
          (by simpa using hNext)
  | case5 curCase st next rest _ _ ih =>
      by_cases hFront :
          ((addCase (curCase ++ [st])).1 : Int) = label
      · rw [← hFront, target_front, entry_cons_self,
          flatten_switchCases (by simp)]
        simp [addCase]
      · have hBefore :
            ∀ s ∈ curCase ++ [st], (s.address : Int) ≠ label := by
          rintro s hs rfl
          exact hFront (by rw [hBegun st rfl s hs hFound])
        have hRest : IsAddress (next :: rest) label := by
          obtain ⟨s, hs, hLabel⟩ := hAddress
          rw [List.append_cons] at hs
          rcases List.mem_append.mp hs with hOld | hNew
          · exact absurd hLabel (hBefore s hOld)
          · exact ⟨s, hNew, hLabel⟩
        rw [entry_cons_of_ne _ hFront,
          List.append_cons curCase, target_append hBefore]
        refine ih (by simp) hRest ?_
        rintro _ ⟨⟩
        exact .single found next

/- The addresses of the cases are addresses of statements. -/
theorem switchCases_increasing
    (hOrdered :
      ((curCase ++ sts).map Statement.address).Pairwise
        (· ≤ ·)) :
    ((switchCases found curCase sts).map Prod.fst).Pairwise
        (· < ·) ∧
      ∀ c ∈ switchCases found curCase sts,
        ∃ st ∈ curCase ++ sts, st.address = c.1 := by
  fun_induction switchCases found curCase sts with
  | case1 => simp
  | case2 curCase st =>
      refine ⟨by simp, ?_⟩
      intro c hc
      rw [List.mem_singleton.mp hc]
      cases curCase with
      | nil => exact ⟨st, by simp, rfl⟩
      | cons first curCase => exact ⟨first, by simp, rfl⟩
  | case3 curCase st next rest _ ih =>
      simpa using ih (by simpa using hOrdered)
  | case4 curCase st next rest _ _ ih =>
      simpa using ih (by simpa using hOrdered)
  | case5 curCase st next rest hOther _ ih =>
      rw [List.append_cons, List.map_append,
        List.pairwise_append] at hOrdered
      obtain ⟨hBefore, hRest, hBetween⟩ := hOrdered
      obtain ⟨hCases, hAddress⟩ := ih hRest
      have hFront :
          ∃ s ∈ curCase ++ [st],
            s.address = (addCase (curCase ++ [st])).1 := by
        cases curCase with
        | nil => exact ⟨st, by simp, rfl⟩
        | cons first curCase => exact ⟨first, by simp, rfl⟩
      have hNext :
          (addCase (curCase ++ [st])).1 < next.address := by
        obtain ⟨s, hs, hEq⟩ := hFront
        have hLast : s.address ≤ st.address := by
          rcases List.mem_append.mp hs with hOld | hNew
          · rw [List.map_append, List.pairwise_append] at hBefore
            exact hBefore.2.2 _ (List.mem_map_of_mem hOld) _
              (by simp)
          · exact Nat.le_of_eq
              (congrArg _ (List.mem_singleton.mp hNew))
        have hStep : st.address ≤ next.address :=
          hBetween _ (by simp) _ (by simp)
        omega
      constructor
      · refine List.pairwise_cons.mpr ⟨?_, hCases⟩
        intro address hMem
        obtain ⟨c, hc, rfl⟩ := List.mem_map.mp hMem
        obtain ⟨s, hs, hEq⟩ := hAddress c hc
        rw [List.nil_append, List.mem_cons] at hs
        rcases hs with rfl | hs
        · rw [← hEq]
          exact hNext
        · have hLe : next.address ≤ s.address :=
            List.rel_of_pairwise_cons
              (by simpa using hRest)
              (List.mem_map_of_mem hs)
          rw [← hEq]
          omega
      · intro c hc
        rcases List.mem_cons.mp hc with rfl | hc
        · obtain ⟨s, hs, hEq⟩ := hFront
          rw [List.append_cons]
          exact ⟨s, List.mem_append_left _ hs, hEq⟩
        · obtain ⟨s, hs, hEq⟩ := hAddress c hc
          rw [List.append_cons]
          exact ⟨s, List.mem_append_right _ hs, hEq⟩

/-
  Where the addresses never decrease, no two cases have the
  same address.
-/
theorem switchCases_nodup
    (found : List Int)
    (hOrdered :
      (sts.map Statement.address).Pairwise (· ≤ ·)) :
    ((switchCases found [] sts).map Prod.fst).Nodup := by
  have hIncreasing :=
    (@switchCases_increasing found [] sts hOrdered).1
  exact hIncreasing.imp Nat.ne_of_lt

------------------------------------------------------------
-- The Simulation
------------------------------------------------------------

open Process

variable {σ : Type} (I : Interpretation σ) {found : List Int}
variable {sts : List Statement}

/- The frames while a case is executed. -/
def inSwitch (cases : List (Nat × List Statement)) :
    List Frame :=
  [.switch [],
    .loop Statement.noAddress (nipNotEqual (-1))
      [nipSwitch cases] []]

/- The branches that can still be taken are among the labels. -/
abbrev Known (found : List Int) (sts : List Statement) :
    Int → Prop :=
  fun label => label ∈ found ∧ IsAddress sts label

/- The rest of the program, in the rest of the cases. -/
def InCase
    (found : List Int)
    (sts : List Statement)
    (c : List Statement × σ)
    (d : Config σ) :
    Prop :=
  VertexStatements (Known found sts) c.1 ∧
    ∃ nip, d =
      ⟨c.1 ++ [assignNip (-1)],
        inSwitch (switchCases found [] sts), nip, c.2⟩

theorem holds_nipNotEqual
    (nip value : Int) (data : σ) :
    holds I nip (nipNotEqual value) data = (nip != value) :=
  rfl

theorem holds_of_not_compared
    {condition : Expression}
    (hCondition : nipCompared? condition = none)
    (nip : Int) (data : σ) :
    holds I nip condition data = I.holds condition data := by
  simp [holds, hCondition]

/- Back at the head of the loop, the switch is entered again. -/
theorem loop_steps
    {cases : List (Nat × List Statement)}
    (hCases : (cases.map Prod.fst).Nodup)
    {nip : Int}
    (hNip : nip ≠ -1)
    (data : σ) :
    Steps (step I) 2 ⟨[nipLoop cases], [], nip, data⟩ []
      ⟨entry cases nip, inSwitch cases, nip, data⟩ := by
  have hEnter :
      step I ⟨[nipLoop cases], [], nip, data⟩ =
        some
          (none,
            ⟨[nipSwitch cases], (inSwitch cases).tail,
              nip, data⟩) := by
    simp [step, nipLoop, holds_nipNotEqual, hNip, inSwitch]
  have hSwitch :
      step I
          ⟨[nipSwitch cases], (inSwitch cases).tail,
            nip, data⟩ =
        some
          (none,
            ⟨entry cases nip, inSwitch cases, nip, data⟩) := by
    simp [step, nipSwitch, hCases, inSwitch]
  exact (Steps.silent hEnter).trans (Steps.silent hSwitch)

/- A branch leaves the switch and comes in at its label. -/
theorem branch_steps
    {label : Int}
    (hOrdered :
      (sts.map Statement.address).Pairwise (· ≤ ·))
    (hLabel : Known found sts label)
    (address address' : Nat)
    (rest : List Statement)
    (nip : Int) (data : σ) :
    Steps (step I) 5
      ⟨.assignment address Shaders.nip (.integerLiteral label) ::
          .breakStatement address' :: rest,
        inSwitch (switchCases found [] sts), nip, data⟩ []
      ⟨target sts label ++ [assignNip (-1)],
        inSwitch (switchCases found [] sts), label, data⟩ := by
  obtain ⟨hFound, hAddress⟩ := hLabel
  have hNip : label ≠ -1 := by
    obtain ⟨s, -, rfl⟩ := hAddress
    omega
  have hSts : sts ≠ [] := by
    rintro rfl
    obtain ⟨s, hs, -⟩ := hAddress
    cases hs
  have hEntry :
      entry (switchCases found [] sts) label =
        target sts label ++ [assignNip (-1)] :=
    entry_switchCases hSts hFound hAddress
      fun st _ => .single found st
  rw [← hEntry]
  have hLoop :=
    loop_steps I (switchCases_nodup found hOrdered) hNip data
  exact (Steps.silent rfl).trans <| (Steps.silent rfl).trans <|
    (Steps.silent rfl).trans hLoop

/- The exit ends the loop. -/
theorem exit_steps
    (cases : List (Nat × List Statement))
    (nip : Int) (data : σ) :
    Steps (step I) 4
      ⟨[assignNip (-1)], inSwitch cases, nip, data⟩ []
      ⟨[], [], -1, data⟩ :=
  (Steps.silent rfl).trans <| (Steps.silent rfl).trans <|
    (Steps.silent rfl).trans <| Steps.silent rfl

/- Only at the end of the program does the original stop. -/
theorem eq_nil_of_jumpStep
    {known : Int → Prop}
    {code : List Statement} {data : σ}
    (hCode : VertexStatements known code)
    (hStop : jumpStep I sts (code, data) = none) :
    code = [] := by
  cases hCode with
  | nil => rfl
  | assignment hDest _ =>
      simp [jumpStep, branch?, nipValue?_of_not_isNip hDest]
        at hStop
  | nop _ _ =>
      simp only [jumpStep, branch?] at hStop
      split at hStop <;> cases hStop
  | jump _ _ => cases hStop
  | branch _ _ _ =>
      simp only [jumpStep, branch?, nipValue?_nip,
        Option.map_some] at hStop
      split at hStop <;> cases hStop

/-
  A statement that is no branch is performed in the same way
  by the structured program, whatever stands behind it.
-/
theorem step_assignment
    {address : Nat} {dest expr : Expression}
    {rest : List Statement} {data : σ}
    {label : Option Statement} {c : List Statement × σ}
    (hDest : isNip dest = false)
    (hStep :
      jumpStep I sts
        (.assignment address dest expr :: rest, data) =
        some (label, c))
    (tail : List Statement) (stack : List Frame) (nip : Int) :
    c.1 = rest ∧
      step I
        ⟨.assignment address dest expr :: rest ++ tail, stack,
          nip, data⟩ =
        some (label, ⟨c.1 ++ tail, stack, nip, c.2⟩) := by
  have hNone := nipValue?_of_not_isNip hDest expr
  simp only [jumpStep, branch?, hNone, Option.map_none,
    Option.some.injEq, Prod.mk.injEq] at hStep
  obtain ⟨rfl, rfl⟩ := hStep
  exact ⟨rfl, by simp [step, hNone]⟩

theorem step_nop
    {address : Nat} {condition : Expression}
    {rest : List Statement} {data : σ}
    {label : Option Statement} {c : List Statement × σ}
    (hCondition : nipCompared? condition = none)
    (hStep :
      jumpStep I sts
        (.whileStatement address condition [] :: rest, data) =
        some (label, c))
    (tail : List Statement) (stack : List Frame) (nip : Int) :
    (c.1 = .whileStatement address condition [] :: rest ∨
      c.1 = rest) ∧
      step I
        ⟨.whileStatement address condition [] :: rest ++ tail,
          stack, nip, data⟩ =
        some (label, ⟨c.1 ++ tail, stack, nip, c.2⟩) := by
  simp only [jumpStep, branch?] at hStep
  split at hStep
  case isTrue hHolds =>
    simp only [Option.some.injEq, Prod.mk.injEq] at hStep
    obtain ⟨rfl, rfl⟩ := hStep
    exact
      ⟨.inl rfl,
        by simp [step, holds_of_not_compared I hCondition,
          hHolds]⟩
  case isFalse hHolds =>
    simp only [Option.some.injEq, Prod.mk.injEq] at hStep
    obtain ⟨rfl, rfl⟩ := hStep
    exact
      ⟨.inr rfl,
        by simp [step, holds_of_not_compared I hCondition,
          hHolds]⟩

theorem steps_one
    {c d : Config σ} {label : Option Statement}
    (hStep : step I c = some (label, d)) :
    Steps (step I) 1 c label.toList d := by
  simpa using Steps.succ hStep (.zero d)

/-
  Rewritten, a program does in the cases of the switch what
  it did with jumps.
-/
theorem rewritten_simulates
    (hOrdered :
      (sts.map Statement.address).Pairwise (· ≤ ·))
    (hSts : VertexStatements (Known found sts) sts) :
    Simulates (jumpStep I sts) (step I) Prod.snd Config.data
      (InCase found sts) := by
  constructor
  case step =>
    rintro ⟨code, data⟩ _ label c ⟨hCode, nip, rfl⟩ hStep
    cases hCode with
    | nil => cases hStep
    | assignment hDest hRest =>
        obtain ⟨hCode', hOne⟩ :=
          step_assignment I hDest hStep _ _ nip
        rw [← hCode'] at hRest
        exact ⟨0, _, steps_one I hOne, hRest, nip, rfl⟩
    | nop hCondition hRest =>
        obtain ⟨hCode', hOne⟩ :=
          step_nop I hCondition hStep _ _ nip
        refine ⟨0, _, steps_one I hOne, ?_, nip, rfl⟩
        rcases hCode' with hAgain | hNext
        · exact hAgain ▸ .nop hCondition hRest
        · exact hNext ▸ hRest
    | jump hLabel hRest =>
        simp only [jumpStep, branch?, nipValue?_nip,
          Option.map_some, Option.all_none, if_true,
          Option.some.injEq, Prod.mk.injEq] at hStep
        obtain ⟨rfl, rfl⟩ := hStep
        exact
          ⟨4, _, branch_steps I hOrdered hLabel _ _ _ nip data,
            hSts.target _, _, rfl⟩
    | @branch _ first second _ condition rest
        hCondition hLabel hRest =>
        have hHolds :=
          holds_of_not_compared I hCondition nip data
        simp only [jumpStep, branch?, nipValue?_nip,
          Option.map_some, Option.all_some] at hStep
        split at hStep
        case isTrue hTaken =>
          simp only [Option.some.injEq, Prod.mk.injEq] at hStep
          obtain ⟨rfl, rfl⟩ := hStep
          have hBranch := branch_steps I hOrdered hLabel first second
            (rest ++ [assignNip (-1)]) nip data
          refine
            ⟨5, _, @Steps.succ _ _ _ _ _ _ _ none _ ?_ hBranch,
              hSts.target _, _, rfl⟩
          simp [step, hHolds, hTaken]
        case isFalse hNot =>
          simp only [Option.some.injEq, Prod.mk.injEq] at hStep
          obtain ⟨rfl, rfl⟩ := hStep
          refine ⟨0, _, Steps.silent ?_, hRest, nip, rfl⟩
          simp [step, hHolds, hNot]
  case stop =>
    rintro ⟨code, data⟩ _ ⟨hCode, nip, rfl⟩ hStop
    obtain rfl := eq_nil_of_jumpStep I hCode hStop
    exact ⟨_, _, exit_steps I _ nip data, rfl, rfl⟩

/- Without branches the statements are left as they are. -/
def InList
    (sts : List Statement)
    (c : List Statement × σ)
    (d : Config σ) :
    Prop :=
  VertexStatements (Known [] sts) c.1 ∧
    ∃ nip, d = ⟨c.1, [], nip, c.2⟩

theorem unchanged_simulates :
    Simulates (jumpStep I sts) (step I) Prod.snd Config.data
      (InList sts) := by
  constructor
  case step =>
    rintro ⟨code, data⟩ _ label c ⟨hCode, nip, rfl⟩ hStep
    cases hCode with
    | nil => cases hStep
    | assignment hDest hRest =>
        obtain ⟨hCode', hOne⟩ :=
          step_assignment I hDest hStep [] [] nip
        rw [List.append_nil, List.append_nil] at hOne
        rw [← hCode'] at hRest
        exact ⟨0, _, steps_one I hOne, hRest, nip, rfl⟩
    | nop hCondition hRest =>
        obtain ⟨hCode', hOne⟩ :=
          step_nop I hCondition hStep [] [] nip
        rw [List.append_nil, List.append_nil] at hOne
        refine ⟨0, _, steps_one I hOne, ?_, nip, rfl⟩
        rcases hCode' with hAgain | hNext
        · exact hAgain ▸ .nop hCondition hRest
        · exact hNext ▸ hRest
    | jump hLabel _ => cases hLabel.1
    | branch _ hLabel _ => cases hLabel.1
  case stop =>
    rintro ⟨code, data⟩ _ ⟨hCode, nip, rfl⟩ hStop
    obtain rfl := eq_nil_of_jumpStep I hCode hStop
    exact ⟨0, _, .zero _, rfl, rfl⟩

/- Before the first case there is the assignment `nip = 0`. -/
theorem start_steps
    (hSts : sts ≠ [])
    (hOrdered :
      (sts.map Statement.address).Pairwise (· ≤ ·))
    (hFirst : ∀ st, sts.head? = some st → st.address = 0)
    (data : σ) :
    Steps (step I) 3
      (start [assignNip 0, nipLoop (switchCases found [] sts)]
        data) []
      ⟨sts ++ [assignNip (-1)],
        inSwitch (switchCases found [] sts), 0, data⟩ := by
  have hFront : (addCase ([] ++ sts)).1 = 0 := by
    cases sts with
    | nil => exact absurd rfl hSts
    | cons st rest => exact hFirst st rfl
  have hEntry := @entry_front found [] sts hSts
  rw [hFront, List.nil_append] at hEntry
  rw [← hEntry]
  exact (Steps.silent rfl).trans
    (loop_steps I (switchCases_nodup found hOrdered) (by simp) data)

------------------------------------------------------------
-- The Rewritten Program and the Original
------------------------------------------------------------

open Process

variable {σ : Type}

/-
  The rewritten program performs the statements that the
  original performs with its jumps, however the conditions
  come out, and stops when the original stops.
-/
theorem rewriteBranches_refines
    (I : Interpretation σ)
    {sts : List Statement}
    (hProgram : VertexProgram sts) :
    ∃ code, rewriteBranches sts = some code ∧
      ∀ data,
        (∀ trace,
          Shows (step I) (start code data) trace ↔
            Shows (jumpStep I sts) (sts, data) trace) ∧
        ∀ trace final,
          Finishes (step I) Config.data (start code data)
              trace final ↔
            Finishes (jumpStep I sts) Prod.snd (sts, data)
              trace final := by
  obtain ⟨found, hFound, hSts⟩ :=
    hProgram.statements.blockLabels
  cases found with
  | nil =>
      refine ⟨sts, by simp [rewriteBranches, hFound], ?_⟩
      intro data
      have hSim := @unchanged_simulates _ I sts
      have hRel : InList sts (sts, data) (start sts data) :=
        ⟨hSts, 0, rfl⟩
      exact
        ⟨fun trace => (hSim.shows_iff hRel trace).symm,
          fun trace final =>
            (hSim.finishes_iff hRel trace final).symm⟩
  | cons label found =>
      refine
        ⟨_, by simp only [rewriteBranches, hFound]; rfl, ?_⟩
      intro data
      have hNonempty : sts ≠ [] := by
        rintro rfl
        cases hFound
      have hStart := @start_steps _ I (label :: found) sts
        hNonempty hProgram.ordered hProgram.first data
      have hSim :=
        rewritten_simulates I hProgram.ordered hSts
      have hRel :
          InCase (label :: found) sts (sts, data)
            ⟨sts ++ [assignNip (-1)],
              inSwitch (switchCases (label :: found) [] sts),
              0, data⟩ :=
        ⟨hSts, 0, rfl⟩
      constructor
      · intro trace
        exact (hStart.shows_iff trace).trans
          (hSim.shows_iff hRel trace).symm
      · intro trace final
        exact (hStart.finishes_iff trace final).trans
          (hSim.finishes_iff hRel trace final).symm

/- A loop that counts down: back to the start if not zero. -/
def countdown : List Statement :=
  [.assignment 0 (.variable "r" (some (.integerLiteral 0)))
      (.floatLiteral 1),
    .ifStatement 1 (.invocation .any [])
      [.assignment Statement.noAddress nip (.integerLiteral 0),
        .breakStatement Statement.noAddress] []]

def countdownMeaning : Interpretation Nat where
  assign _ _ n := n - 1
  holds _ n := n != 0

theorem rewriteBranches_refines_countdown :
    VertexProgram countdown ∧
      ∃ code, rewriteBranches countdown = some code ∧
        ∀ data,
          (∀ trace,
            Shows (step countdownMeaning) (start code data)
                trace ↔
              Shows (jumpStep countdownMeaning countdown)
                (countdown, data) trace) ∧
          ∀ trace final,
            Finishes (step countdownMeaning) Config.data
                (start code data) trace final ↔
              Finishes (jumpStep countdownMeaning countdown)
                Prod.snd (countdown, data) trace final := by
  have hProgram : VertexProgram countdown := by
    refine ⟨?_, by decide, ?_⟩
    · refine .assignment rfl (.branch rfl ?_ .nil)
      exact ⟨_, List.mem_cons_self, rfl⟩
    · rintro _ ⟨⟩
      rfl
  exact
    ⟨hProgram,
      rewriteBranches_refines countdownMeaning hProgram⟩

end Shaders

end Ps3emu
