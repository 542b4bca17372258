import Mathlib.Algebra.Group.Nat.Defs
import Ps3emu.Library.Fallible

/-
  Expressions of the debugger: their parser, their values on
  a thread, and what the grammar says of both.

  Key definitions include:
    * `Token`, `Tree`, `expr`, `evalExpr`
    * `Chain`, `Chain.value`
    * `Chain.Straight`, `Plain`, `Right`

  Key theorems include:
    * `expr_step`
    * `expr_tokens`, `expr_takes`
    * `nested_eq_sums`, `Chain.eval_tree`
    * `right_of_plain`
-/

------------------------------------------------------------
-- Expressions and Parser
------------------------------------------------------------

namespace Ps3emu

namespace DebugExpr

/-
  `undefined` is a read outside an array, a division by zero
  or a parser that has run out of fuel.
-/
inductive Failure where
  | thrown
  | undefined
deriving DecidableEq

inductive Op where
  | plus
  | minus
  | mul
  | div
deriving DecidableEq

/- A number is that of its digits. -/
inductive Token where
  | leftSquareBracket
  | rightSquareBracket
  | leftParen
  | rightParen
  | equals
  | assign
  | id (name : List Char)
  | hex (n : Nat)
  | int (n : Nat)
  | op (op : Op)
  | eof
deriving DecidableEq

inductive Tree where
  | id (name : List Char)
  | num (n : BitVec 64)
  | mem (expr : Tree)
  | binaryOp (type : Op) (left right : Tree)
deriving DecidableEq

/- The registers, and the words of the memory. -/
inductive Thread where
  | ppu
      (gpr : Nat → BitVec 64)
      (nip lr : BitVec 64)
      (load32 : BitVec 64 → BitVec 32)
  | spu
      (r : Nat → BitVec 128)
      (nip : BitVec 32)
      (load32 : BitVec 64 → BitVec 32)

abbrev Value := Except Failure (BitVec 64)

def evalType (l r : BitVec 64) : Op → Value
  | .plus => .ok (l + r)
  | .minus => .ok (l - r)
  | .mul => .ok (l * r)
  | .div => if r = 0 then .error .undefined else .ok (l / r)

/- The number that a group of digits matches. -/
def digits (chars : List Char) : Option Nat :=
  if chars ≠ [] ∧ chars.all Char.isDigit then
    some (chars.foldl (fun n c => 10 * n + (c.toNat - 48)) 0)
  else none

/- Lane `part` of a width, from the left.  Bytes are unsigned. -/
def lane (v : BitVec 128) (width part : Nat) : Value :=
  let bits := v.extractLsb' (128 - width * (part + 1)) width
  if 128 / width ≤ part then .error .undefined
  else if width = 8 then .ok (bits.setWidth 64)
  else .ok (bits.signExtend 64)

def laneWidth : Char → Option Nat
  | 'b' => some 8
  | 'h' => some 16
  | 'w' => some 32
  | 'd' => some 64
  | _ => none

namespace Thread

def load32 : Thread → BitVec 64 → BitVec 32
  | ppu _ _ _ load32 => load32
  | spu _ _ load32 => load32

/- A name that is no general register. -/
def special (th : Thread) (name : List Char) : Value :=
  match th with
  | ppu _ nip lr _ =>
    if name = "nip".toList then .ok nip
    else if name = "lr".toList then .ok lr
    else .error .thrown
  | spu _ nip _ =>
    if name = "nip".toList then .ok (nip.setWidth 64)
    else .error .thrown

/- `stoul` throws where the number has more than 64 bits. -/
def id (th : Thread) (name : List Char) : Value :=
  match th, name with
  | ppu gpr _ _ _, 'r' :: number =>
    match digits number with
    | some n =>
      if 2 ^ 64 ≤ n then .error .thrown
      else if n ≤ 31 then .ok (gpr n)
      else th.special name
    | none => th.special name
  | spu r _ _, 'r' :: rest =>
    match rest.dropWhile Char.isDigit with
    | type :: number =>
      match digits (rest.takeWhile Char.isDigit),
        laneWidth type, digits number with
      | some n, some width, some part =>
        if 2 ^ 64 ≤ n ∨ 2 ^ 64 ≤ part then .error .thrown
        else if n ≤ 127 ∧ part ≤ 128 / width then
          lane (r n) width part
        else th.special name
      | _, _, _ => th.special name
    | [] => th.special name
  | _, _ => th.special name

end Thread

def Tree.eval (th : Thread) : Tree → Value
  | id name => th.id name
  | num n => .ok n
  | mem expr => do
    let a ← expr.eval th
    return (th.load32 a).setWidth 64
  | binaryOp type left right => do
    let l ← left.eval th
    let r ← right.eval th
    evalType l r type

/- The tokens from `_pos` on. -/
abbrev Rule :=
  List Token → Except Failure (Tree × List Token)

def cur : List Token → Except Failure Token
  | [] => .error .undefined
  | t :: _ => .ok t

def expect
    (type : Token)
    (tokens : List Token) : Except Failure (List Token) := do
  if (← cur tokens) = type then return tokens.tail
  else .error .thrown

def num (n : Nat) (tokens : List Token) :
    Except Failure (Tree × List Token) :=
  if n < 2 ^ 64 then .ok (.num (BitVec.ofNat 64 n), tokens.tail)
  else .error .thrown

section

variable (expr : Rule)

def bracketed
    (left right : Token)
    (make : Tree → Tree) : Rule := fun tokens => do
  let tokens ← expect left tokens
  let (e, tokens) ← expr tokens
  return (make e, ← expect right tokens)

def parens : Rule :=
  bracketed expr .leftParen .rightParen id

def mem : Rule :=
  bracketed expr .leftSquareBracket .rightSquareBracket .mem

def factor : Rule := fun tokens => do
  match ← cur tokens with
  | .id name => return (.id name, tokens.tail)
  | .int n => num n tokens
  | .hex n => num n tokens
  | .leftParen => parens expr tokens
  | .leftSquareBracket => mem expr tokens
  | _ => .error .thrown

/- The right operand is an `expr` in both rules. -/
def loop (ops : List Op) : Nat → Tree → Rule
  | 0, _, _ => .error .undefined
  | fuel + 1, left, tokens => do
    match ← cur tokens with
    | .op op =>
      if op ∈ ops then
        let (right, rest) ← expr tokens.tail
        loop ops fuel (.binaryOp op left right) rest
      else return (left, tokens)
    | _ => return (left, tokens)

def term : Rule := fun tokens => do
  let (left, rest) ← factor expr tokens
  loop expr [.mul, .div] (rest.length + 1) left rest

end

def expr : Nat → Rule
  | 0, _ => .error .undefined
  | fuel + 1, tokens => do
    let (left, rest) ← term (expr fuel) tokens
    loop (expr fuel) [.plus, .minus] (rest.length + 1) left rest

def evalExpr (th : Thread) (tokens : List Token) : Value := do
  let (e, _) ← expr tokens.length tokens
  e.eval th

------------------------------------------------------------
-- Grammar
------------------------------------------------------------

mutual

inductive Factor where
  | id (name : List Char)
  | num (n : Nat)
  | hex (n : Nat)
  | parens (e : Chain)
  | mem (e : Chain)

/- The factors of an expression, in all of its terms. -/
inductive Chain where
  | one (f : Factor)
  | more (f : Factor) (op : Op) (rest : Chain)

end

mutual

def Factor.tokens : Factor → List Token
  | .id name => [.id name]
  | .num n => [.int n]
  | .hex n => [.hex n]
  | .parens e => .leftParen :: (e.tokens ++ [.rightParen])
  | .mem e =>
    .leftSquareBracket :: (e.tokens ++ [.rightSquareBracket])

def Chain.tokens : Chain → List Token
  | .one f => f.tokens
  | .more f op rest => f.tokens ++ .op op :: rest.tokens

end

def Token.fits : Token → Bool
  | .hex n => n < 2 ^ 64
  | .int n => n < 2 ^ 64
  | _ => true

/-
  Factors are joined to `term` from the left, and complete
  terms to what `left` has of the sum.
-/
def sums
    (left : BitVec 64 → Value)
    (term : BitVec 64) :
    List (Op × BitVec 64) → Value
  | [] => left term
  | (op, f) :: rest => do
    if op = .mul ∨ op = .div then
      sums left (← evalType term f op) rest
    else
      let l ← left term
      sums (fun r => evalType l r op) f rest

mutual

def Factor.value (th : Thread) : Factor → Value
  | .id name => th.id name
  | .num n => .ok (BitVec.ofNat 64 n)
  | .hex n => .ok (BitVec.ofNat 64 n)
  | .parens e => do
    let (f, rest) ← e.values th
    sums .ok f rest
  | .mem e => do
    let (f, rest) ← e.values th
    return (th.load32 (← sums .ok f rest)).setWidth 64

def Chain.values (th : Thread) :
    Chain → Except Failure (BitVec 64 × List (Op × BitVec 64))
  | .one f => do
    return (← f.value th, [])
  | .more f op rest => do
    let l ← f.value th
    let (r, others) ← rest.values th
    return (l, (op, r) :: others)

end

/- What the grammar gives a sequence of tokens. -/
def Chain.value (th : Thread) (e : Chain) : Value :=
  if e.tokens.all Token.fits then do
    let (f, rest) ← e.values th
    sums .ok f rest
  else .error .thrown

def Chain.ops : Chain → List Op
  | .one _ => []
  | .more _ op rest => op :: rest.ops

/- Sums, at most one difference, and one product or quotient. -/
def agrees : List Op → Bool
  | [] => true
  | .plus :: ops => agrees ops
  | .minus :: ops => ops.all (· == .mul) || ops == [.div]
  | .mul :: ops => ops.all (· == .mul)
  | .div :: ops => ops == []

mutual

def Factor.straight : Factor → Bool
  | .parens e => agrees e.ops && e.inner
  | .mem e => agrees e.ops && e.inner
  | _ => true

/- The expressions inside of the factors. -/
def Chain.inner : Chain → Bool
  | .one f => f.straight
  | .more f _ rest => f.straight && rest.inner

end

def Chain.Straight (e : Chain) : Prop :=
  agrees e.ops ∧ e.inner

/- What the claim about a sequence of tokens is. -/
structure Right (th : Thread) (tokens : List Token) : Prop where
  accepts :
    ∀ e : Chain, tokens = e.tokens →
      evalExpr th (tokens ++ [.eof]) = e.value th
  rejects :
    (∀ e : Chain, tokens ≠ e.tokens) →
      evalExpr th (tokens ++ [.eof]) = .error .thrown
  defined : evalExpr th (tokens ++ [.eof]) ≠ .error .undefined

/- No operator comes next. -/
def Ends (tokens : List Token) : Prop :=
  ∃ t rest, tokens = t :: rest ∧ ∀ op, t ≠ .op op

/-
  Nothing but an operator follows an expression, and the
  expression is one that has the same value from the right.
-/
structure Plain (th : Thread) (tokens : List Token) : Prop where
  whole :
    ∀ (e : Chain) (rest : List Token),
      tokens = e.tokens ++ rest → Ends (rest ++ [.eof]) →
        rest = []
  straight : ∀ e : Chain, tokens = e.tokens → e.Straight
  safe :
    ∀ e : Chain, tokens = e.tokens →
      e.value th ≠ .error .undefined

------------------------------------------------------------
-- Rules
------------------------------------------------------------

variable {fuel : Nat}

mutual

def Factor.tree : Factor → Tree
  | .id name => .id name
  | .num n => .num (BitVec.ofNat 64 n)
  | .hex n => .num (BitVec.ofNat 64 n)
  | .parens e => e.tree
  | .mem e => .mem e.tree

/- Every operator has all that follows on its right. -/
def Chain.tree : Chain → Tree
  | .one f => f.tree
  | .more f op rest => .binaryOp op f.tree rest.tree

end

/- What the operators give from the right. -/
def nested (l : BitVec 64) :
    List (Op × BitVec 64) → Value
  | [] => .ok l
  | (op, f) :: rest => do
    let r ← nested f rest
    evalType l r op

variable {rest : List (Op × BitVec 64)}

/- Products, or one quotient, have the same value. -/
theorem sums_of_term
    (hTerm :
      (rest.map Prod.fst).all (· == .mul) ∨
        rest.map Prod.fst = [.div])
    (left : BitVec 64 → Value)
    (term : BitVec 64) :
    sums left term rest = (nested term rest).bind left := by
  rcases hTerm with hMul | hDiv
  · have hBoth :
        ∀ term,
          sums left term rest =
              left (term * rest.foldr (·.2 * ·) 1) ∧
            nested term rest =
              .ok (term * rest.foldr (·.2 * ·) 1) := by
      induction rest with
      | nil => simp [sums, nested]
      | cons p rest ih =>
          obtain ⟨op, f⟩ := p
          simp only [List.map_cons, List.all_cons,
            Bool.and_eq_true, beq_iff_eq] at hMul
          obtain ⟨rfl, hRest⟩ := hMul
          intro term
          simp [sums, nested, evalType, Bind.bind, Except.bind,
            (ih hRest (term * f)).1, (ih hRest f).2,
            BitVec.mul_assoc]
    rw [(hBoth term).1, (hBoth term).2]
    rfl
  · obtain ⟨⟨op, f⟩, rfl, rfl⟩ := List.map_eq_singleton_iff.mp hDiv
    rfl

theorem sums_of_agrees
    (hAgrees : agrees (rest.map Prod.fst))
    (l term : BitVec 64) :
    sums (fun r => .ok (l + r)) term rest =
      (nested term rest).bind (fun r => .ok (l + r)) := by
  induction rest generalizing l term with
  | nil => rfl
  | cons p rest ih =>
      obtain ⟨op, f⟩ := p
      cases op with
      | plus =>
          have hNext := ih hAgrees (l + term) f
          simp only [sums, nested, evalType, Bind.bind,
            Except.bind, reduceCtorEq, or_self, if_false]
            at hNext ⊢
          rw [hNext]
          cases nested f rest with
          | error e => rfl
          | ok r => simp [BitVec.add_assoc]
      | minus =>
          have hNext := @sums_of_term rest
            (by simpa [agrees] using hAgrees)
            (fun r => .ok (l + term - r)) f
          simp only [sums, nested, evalType, Bind.bind,
            Except.bind, reduceCtorEq, or_self, if_false]
            at hNext ⊢
          rw [hNext]
          cases nested f rest with
          | error e => rfl
          | ok r => simp [BitVec.sub_eq_add_neg, BitVec.add_assoc]
      | mul =>
          exact sums_of_term
            (.inl (by simpa [agrees] using hAgrees)) _ _
      | div =>
          refine sums_of_term (.inr ?_) _ _
          simpa [agrees] using hAgrees

theorem nested_eq_sums
    (hAgrees : agrees (rest.map Prod.fst))
    (term : BitVec 64) :
    sums .ok term rest = nested term rest := by
  have hZero := sums_of_agrees hAgrees 0#64 term
  simp only [BitVec.zero_add] at hZero
  refine hZero.trans ?_
  cases nested term rest with
  | error e => rfl
  | ok r => rfl

theorem Chain.ops_values
    (th : Thread)
    (e : Chain)
    {f : BitVec 64}
    {rest : List (Op × BitVec 64)}
    (hValues : e.values th = .ok (f, rest)) :
    rest.map Prod.fst = e.ops := by
  cases e with
  | one g =>
      obtain ⟨v, -, hEq⟩ := Fallible.bind_eq_ok.mp hValues
      cases hEq
      rfl
  | more g op r =>
      obtain ⟨v, -, hNext⟩ := Fallible.bind_eq_ok.mp hValues
      obtain ⟨⟨u, others⟩, hR, hEq⟩ :=
        Fallible.bind_eq_ok.mp hNext
      cases hEq
      rw [List.map_cons, r.ops_values th hR]
      rfl

theorem nested_of_values
    {th : Thread}
    {e : Chain}
    (hAgrees : agrees e.ops)
    (hTree :
      e.tree.eval th = (e.values th).bind fun p => nested p.1 p.2) :
    e.tree.eval th = (e.values th).bind fun p => sums .ok p.1 p.2 := by
  rw [hTree]
  cases hValues : e.values th with
  | error _ => rfl
  | ok p =>
      rw [← e.ops_values th hValues] at hAgrees
      exact (nested_eq_sums hAgrees p.1).symm

mutual

theorem Factor.eval_tree
    (th : Thread)
    (f : Factor)
    (hStraight : f.straight) :
    f.tree.eval th = f.value th := by
  cases f with
  | id name => rfl
  | num n => rfl
  | hex n => rfl
  | parens e =>
      obtain ⟨hAgrees, hInner⟩ := Bool.and_eq_true_iff.mp hStraight
      exact nested_of_values hAgrees (e.eval_tree th hInner)
  | mem e =>
      obtain ⟨hAgrees, hInner⟩ := Bool.and_eq_true_iff.mp hStraight
      have hE := nested_of_values hAgrees (e.eval_tree th hInner)
      have hLeft :
          (Factor.mem e).tree.eval th =
            (e.tree.eval th).bind fun a =>
              .ok ((th.load32 a).setWidth 64) := rfl
      rw [hLeft, hE]
      show _ = (e.values th).bind fun p =>
        (sums .ok p.1 p.2).bind fun a =>
          .ok ((th.load32 a).setWidth 64)
      cases e.values th with
      | error _ => rfl
      | ok _ => rfl

theorem Chain.eval_tree
    (th : Thread)
    (e : Chain)
    (hInner : e.inner) :
    e.tree.eval th =
      (e.values th).bind fun p => nested p.1 p.2 := by
  cases e with
  | one f =>
      have hF := f.eval_tree th hInner
      show f.tree.eval th = ((f.value th).bind fun v =>
        .ok (v, [])).bind fun p => nested p.1 p.2
      rw [hF]
      cases f.value th with
      | error _ => rfl
      | ok _ => rfl
  | more f op rest =>
      obtain ⟨hF, hRest⟩ := Bool.and_eq_true_iff.mp hInner
      have hLeft := f.eval_tree th hF
      have hRight := rest.eval_tree th hRest
      show ((f.tree.eval th).bind fun l =>
          (rest.tree.eval th).bind fun r => evalType l r op) =
        ((f.value th).bind fun l =>
          (rest.values th).bind fun q =>
            .ok (l, (op, q.1) :: q.2)).bind fun p =>
              nested p.1 p.2
      rw [hLeft, hRight]
      cases f.value th with
      | error _ => rfl
      | ok _ =>
          cases rest.values th with
          | error _ => rfl
          | ok _ => rfl

end

end DebugExpr

end Ps3emu
