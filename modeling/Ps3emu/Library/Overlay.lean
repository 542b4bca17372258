import Mathlib.Data.List.Basic
import Mathlib.Data.List.Induction
import Mathlib.Logic.Nontrivial.Basic

/-
  Partial functions laid over a function one after another:
  a key has the value of the last of them that is defined
  there.

  Key definitions include:
    * `Overlay.apply`

  Key theorems include:
    * `Overlay.apply_of_none`
    * `Overlay.apply_of_last`
    * `Overlay.exists_last`
    * `Overlay.untouched_iff`
    * `Overlay.apply_flatMap`
-/

namespace Ps3emu

namespace Overlay

variable {K V A : Type}

/- Lay partial functions over a function in order. -/
def apply (f : K → V) (parts : List (K → Option V)) : K → V :=
  parts.foldl (fun f p k => (p k).getD (f k)) f

@[simp] theorem apply_nil (f : K → V) :
    apply f [] = f := rfl

@[simp] theorem apply_cons
    (f : K → V)
    (p : K → Option V)
    (rest : List (K → Option V)) :
    apply f (p :: rest) =
      apply (fun k => (p k).getD (f k)) rest := rfl

theorem apply_singleton
    (f : K → V)
    (p : K → Option V)
    (k : K) :
    apply f [p] k = (p k).getD (f k) := rfl

theorem apply_append
    (f : K → V)
    (left right : List (K → Option V)) :
    apply f (left ++ right) = apply (apply f left) right :=
  List.foldl_append

variable {parts : List (K → Option V)}

/- A key that no part defines keeps its value. -/
theorem apply_of_none
    (f : K → V)
    {k : K}
    (hNone : ∀ p ∈ parts, p k = none) :
    apply f parts k = f k := by
  induction parts generalizing f with
  | nil => rfl
  | cons p rest ih =>
      rw [apply_cons,
        ih _ (fun q hq => hNone q (List.mem_cons_of_mem _ hq)),
        hNone p List.mem_cons_self]
      rfl

theorem apply_of_last
    (f : K → V)
    {before after : List (K → Option V)}
    {p : K → Option V}
    {k : K}
    {v : V}
    (hLast : p k = some v)
    (hAfter : ∀ q ∈ after, q k = none) :
    apply f (before ++ p :: after) k = v := by
  rw [apply_append, apply_cons, apply_of_none _ hAfter, hLast]
  rfl

/- A key that some part defines has a last part. -/
theorem exists_last
    {p : K → Option V}
    {k : K}
    (hMem : p ∈ parts)
    (hSome : p k ≠ none) :
    ∃ before q after v,
      parts = before ++ q :: after ∧
        q k = some v ∧ ∀ r ∈ after, r k = none := by
  induction parts using List.reverseRecOn with
  | nil => cases hMem
  | append_singleton rest last ih =>
      cases hLast : last k with
      | some v =>
          exact
            ⟨rest, last, [], v, rfl, hLast,
              fun r hr => by cases hr⟩
      | none =>
          have hOld : p ∈ rest := by
            rcases List.mem_append.mp hMem with hIn | hIn
            · exact hIn
            · rw [List.mem_singleton.mp hIn] at hSome
              exact absurd hLast hSome
          rcases ih hOld with
            ⟨before, q, after, v, rfl, hq, hAfter⟩
          refine
            ⟨before, q, after ++ [last], v, by simp, hq, ?_⟩
          intro r hr
          rcases List.mem_append.mp hr with hIn | hIn
          · exact hAfter r hIn
          · rw [List.mem_singleton.mp hIn]
            exact hLast

/- Only keys that no part defines keep every value. -/
theorem untouched_iff
    [Nontrivial V]
    {k : K} :
    (∀ f, apply f parts k = f k) ↔
      ∀ p ∈ parts, p k = none := by
  constructor
  · intro hKeep p hp
    by_contra hSome
    rcases exists_last hp hSome with
      ⟨before, q, after, v, rfl, hq, hAfter⟩
    rcases exists_ne v with ⟨u, hu⟩
    have hOwn := hKeep (fun _ => u)
    rw [apply_of_last _ hq hAfter] at hOwn
    exact hu hOwn.symm
  · intro hNone f
    exact apply_of_none f hNone

/- Parts may be replaced by groups that act like them. -/
theorem apply_flatMap
    (f : K → V)
    {items : List A}
    {group : A → List (K → Option V)}
    {part : A → K → Option V}
    (hSame :
      ∀ a ∈ items, ∀ g, apply g (group a) = apply g [part a]) :
    apply f (items.flatMap group) =
      apply f (items.map part) := by
  induction items generalizing f with
  | nil => rfl
  | cons a rest ih =>
      rw [List.flatMap_cons, apply_append,
        hSame a List.mem_cons_self f, List.map_cons,
        apply_cons,
        ih _ (fun b hb => hSame b (List.mem_cons_of_mem _ hb))]
      rfl

end Overlay

end Ps3emu
