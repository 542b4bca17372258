import Ps3emu.Library.Simulation
import Ps3emu.Shaders.AST

/-
  How the GLSL that `PrintVisitor` prints is executed, one
  statement at a time.  What an expression means is left to
  an interpretation; only the variable `nip` and its literals
  are interpreted here.

  Key definitions include:
    * `Interpretation`
    * `Frame`, `Config`
    * `step`
-/

------------------------------------------------------------
-- Interpretations and Execution
------------------------------------------------------------

namespace Ps3emu

namespace Shaders

/-
  What assignments do to the data of a shader and how its
  conditions come out there.
-/
structure Interpretation (σ : Type) where
  assign : Expression → Expression → σ → σ
  holds : Expression → σ → Bool

/- `dynamic_cast<Variable*>` with the name `nip`. -/
def isNip : Expression → Bool
  | .variable name _ => name == "nip"
  | _ => false

/- The variable that holds the next case. -/
def nip : Expression :=
  .variable "nip" none

/- `nip != value`. -/
def nipNotEqual (value : Int) : Expression :=
  .binaryOperator .ne nip (.integerLiteral value)

/- The value that an assignment to `nip` gives it. -/
def nipValue? (dest expr : Expression) : Option Int :=
  match isNip dest, expr with
  | true, .integerLiteral value => some value
  | _, _ => none

/- The value that a condition compares `nip` with. -/
def nipCompared? : Expression → Option Int
  | .binaryOperator .ne left (.integerLiteral value) =>
      if isNip left then some value else none
  | _ => none

@[simp]
theorem isNip_nip : isNip nip = true :=
  rfl

@[simp]
theorem nipValue?_nip (value : Int) :
    nipValue? nip (.integerLiteral value) = some value :=
  rfl

@[simp]
theorem nipCompared?_nipNotEqual (value : Int) :
    nipCompared? (nipNotEqual value) = some value :=
  rfl

theorem nipValue?_of_not_isNip
    {dest : Expression}
    (hDest : isNip dest = false)
    (expr : Expression) :
    nipValue? dest expr = none := by
  simp [nipValue?, hDest]

/-
  What is left to do after the statements at hand: behind a
  switch, or in the next round of a loop.
-/
inductive Frame where
  | switch (rest : List Statement)
  | loop
      (address : Nat)
      (condition : Expression)
      (body rest : List Statement)

structure Config (σ : Type) where
  code : List Statement
  stack : List Frame
  nip : Int
  data : σ

/-
  Control enters at the case of the value and falls through
  the cases after it.
-/
def entry (cases : List (Nat × List Statement)) (value : Int) :
    List Statement :=
  ((cases.dropWhile fun c => (c.1 : Int) != value).map
    Prod.snd).flatten

section

variable {σ : Type} (I : Interpretation σ)

def holds (nip : Int) (condition : Expression) (data : σ) :
    Bool :=
  match nipCompared? condition with
  | some value => nip != value
  | none => I.holds condition data

/-
  One step.  What is shown is each statement performed that
  is neither control flow nor an assignment to `nip`; an
  empty loop, which is what a NOP becomes, is performed once
  it is left.  A switch with two cases of one label does not
  compile.
-/
def step : Process (Config σ) Statement
  | ⟨[], [], _, _⟩ => none
  | ⟨[], .switch rest :: stack, nip, data⟩ =>
      some (none, ⟨rest, stack, nip, data⟩)
  | ⟨[], .loop address condition body rest :: stack,
        nip, data⟩ =>
      some
        (none,
          ⟨.whileStatement address condition body :: rest,
            stack, nip, data⟩)
  | ⟨.assignment address dest expr :: rest, stack,
        nip, data⟩ =>
      match nipValue? dest expr with
      | some value => some (none, ⟨rest, stack, value, data⟩)
      | none =>
          some
            (some (.assignment address dest expr),
              ⟨rest, stack, nip, I.assign dest expr data⟩)
  | ⟨.ifStatement _ condition trueBlock falseBlock :: rest,
        stack, nip, data⟩ =>
      let block :=
        if holds I nip condition data then trueBlock
        else falseBlock
      some (none, ⟨block ++ rest, stack, nip, data⟩)
  | ⟨.ifStub _ condition _ _ trueBlock falseBlock :: rest,
        stack, nip, data⟩ =>
      let block :=
        if holds I nip condition data then trueBlock
        else falseBlock
      some (none, ⟨block ++ rest, stack, nip, data⟩)
  | ⟨.switchStatement _ switchOn cases :: rest, stack,
        nip, data⟩ =>
      if isNip switchOn ∧ (cases.map Prod.fst).Nodup then
        some
          (none,
            ⟨entry cases nip, .switch rest :: stack,
              nip, data⟩)
      else
        none
  | ⟨.breakStatement _ :: _, .switch rest :: stack,
        nip, data⟩ =>
      some (none, ⟨rest, stack, nip, data⟩)
  | ⟨.breakStatement _ :: _, .loop _ _ _ rest :: stack,
        nip, data⟩ =>
      some (none, ⟨rest, stack, nip, data⟩)
  | ⟨.breakStatement _ :: _, [], _, _⟩ => none
  | ⟨.discardStatement address :: _, _, nip, data⟩ =>
      some
        (some (.discardStatement address),
          ⟨[], [], nip, data⟩)
  | ⟨.whileStatement address condition [] :: rest, stack,
        nip, data⟩ =>
      if holds I nip condition data then
        some
          (none,
            ⟨.whileStatement address condition [] :: rest,
              stack, nip, data⟩)
      else
        some
          (some (.whileStatement address condition []),
            ⟨rest, stack, nip, data⟩)
  | ⟨.whileStatement address condition (first :: body) :: rest,
        stack, nip, data⟩ =>
      if holds I nip condition data then
        some
          (none,
            ⟨first :: body,
              .loop address condition (first :: body) rest ::
                stack,
              nip, data⟩)
      else
        some (none, ⟨rest, stack, nip, data⟩)

/- The state in which a list of statements is started. -/
def start (code : List Statement) (data : σ) : Config σ :=
  ⟨code, [], 0, data⟩

end

end Shaders

end Ps3emu
