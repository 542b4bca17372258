import Mathlib.Algebra.GroupWithZero.Nat
import Mathlib.Data.List.Basic

/-
  Ranges of numbers, given by the first one and the count, and
  when a list of them is a single range.

  Key definitions include:
    * `Ranges.elements`, `Ranges.total`
    * `Ranges.Consecutive`

  Key theorems include:
    * `Ranges.elements_eq_range'_iff`
    * `Ranges.total_le_of_consecutive`
-/

------------------------------------------------------------
-- Consecutive Ranges
------------------------------------------------------------

namespace Ps3emu

namespace Ranges

/- The numbers of the ranges, one range after another. -/
def elements (rs : List (Nat × Nat)) : List Nat :=
  rs.flatMap (fun r => List.range' r.1 r.2)

def total (rs : List (Nat × Nat)) : Nat :=
  (rs.map Prod.snd).sum

/- Each range begins where the one before it ends. -/
def Consecutive : Nat → List (Nat × Nat) → Prop
  | _, [] => True
  | first, r :: rest => r.1 = first ∧ Consecutive (first + r.2) rest

variable {first count : Nat} {rs : List (Nat × Nat)}

@[simp]
theorem elements_cons (r : Nat × Nat) (rest : List (Nat × Nat)) :
    elements (r :: rest) =
      List.range' r.1 r.2 ++ elements rest :=
  rfl

@[simp]
theorem total_cons (r : Nat × Nat) (rest : List (Nat × Nat)) :
    total (r :: rest) = r.2 + total rest :=
  List.sum_cons

@[simp]
theorem elements_append (rs rs' : List (Nat × Nat)) :
    elements (rs ++ rs') = elements rs ++ elements rs' :=
  List.flatMap_append

@[simp]
theorem total_append (rs rs' : List (Nat × Nat)) :
    total (rs ++ rs') = total rs + total rs' := by
  rw [total, List.map_append, List.sum_append]
  rfl

theorem length_elements (rs : List (Nat × Nat)) :
    (elements rs).length = total rs := by
  induction rs with
  | nil => rfl
  | cons r rest ih =>
      rw [elements_cons, List.length_append, ih,
        List.length_range', total_cons]

theorem elements_of_consecutive
    (hConsecutive : Consecutive first rs) :
    elements rs = List.range' first (total rs) := by
  induction rs generalizing first with
  | nil => rfl
  | cons r rest ih =>
      rcases hConsecutive with ⟨rfl, hRest⟩
      rw [elements_cons, ih hRest, total_cons,
        List.range'_append_1]

/- A range that is not empty shows where it begins. -/
theorem consecutive_of_elements
    (hPos : ∀ r ∈ rs, 0 < r.2)
    (hElements : elements rs = List.range' first count) :
    Consecutive first rs := by
  induction rs generalizing first count with
  | nil => trivial
  | cons r rest ih =>
      rcases r with ⟨num, length⟩
      have hLength : 0 < length := hPos _ List.mem_cons_self
      have hCount : count = length + total rest := by
        have hEq := congrArg List.length hElements
        rw [length_elements, total_cons, List.length_range']
          at hEq
        exact hEq.symm
      rw [hCount, elements_cons, ← List.range'_append_1]
        at hElements
      have hParts :=
        List.append_inj hElements (by
          rw [List.length_range', List.length_range'])
      have hFirst : num = first := by
        obtain ⟨n, rfl⟩ := Nat.exists_eq_add_of_lt hLength
        rw [Nat.zero_add, List.range'_succ, List.range'_succ]
          at hParts
        exact (List.cons.inj hParts.1).1
      exact
        ⟨hFirst,
          ih (fun r hr => hPos r (List.mem_cons_of_mem _ hr))
            hParts.2⟩

/- The ranges are a single one if they are consecutive. -/
theorem elements_eq_range'_iff (hPos : ∀ r ∈ rs, 0 < r.2) :
    elements rs = List.range' first count ↔
      Consecutive first rs ∧ count = total rs := by
  constructor
  · intro hElements
    refine ⟨consecutive_of_elements hPos hElements, ?_⟩
    rw [← length_elements, hElements, List.length_range']
  · rintro ⟨hConsecutive, rfl⟩
    exact elements_of_consecutive hConsecutive

/- The last range bounds them all. -/
theorem total_le_of_consecutive
    {limit longest : Nat}
    (hLimit : ∀ r ∈ rs, r.1 < limit ∧ r.2 ≤ longest)
    (hConsecutive : Consecutive first rs) :
    first + total rs ≤ max first (limit + longest) := by
  induction rs generalizing first with
  | nil => exact Nat.le_max_left _ _
  | cons r rest ih =>
      rcases hConsecutive with ⟨rfl, hRest⟩
      have hHere := hLimit r List.mem_cons_self
      have hAfter :=
        ih (fun r hr => hLimit r (List.mem_cons_of_mem _ hr))
          hRest
      rw [total_cons]
      omega

end Ranges

end Ps3emu
