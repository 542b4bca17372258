import Mathlib.Data.List.Basic

/-
  Decoders that try one switch after the other: each looks
  up a key of the word in a table of cases, and the first
  switch that has a case for its key decides.

  Key definitions include:
    * `Switch.decode`

  Key theorems include:
    * `Switch.mem_of_decode`
    * `Switch.decode_eq_some`
-/

------------------------------------------------------------
-- Cascades of Switches
------------------------------------------------------------

namespace Ps3emu

namespace Switch

variable {K W I : Type}

/- A switch is the name of its key, and its cases. -/
def decode
    (key : K → W → Nat)
    (switches : List (K × List (Nat × I)))
    (w : W) : Option I :=
  switches.findSome? (fun s => s.2.lookup (key s.1 w))

variable {key : K → W → Nat} {w : W} {i : I}

theorem mem_of_lookup
    {cases : List (Nat × I)}
    {k : Nat}
    (hLookup : cases.lookup k = some i) :
    (k, i) ∈ cases := by
  rcases List.lookup_eq_some_iff.mp hLookup with
    ⟨front, back, hCases, -⟩
  rw [hCases]
  exact List.mem_append_right _ List.mem_cons_self

/- What is decoded is a case of some switch. -/
theorem mem_of_decode
    {switches : List (K × List (Nat × I))}
    (hDecode : decode key switches w = some i) :
    ∃ s ∈ switches, (key s.1 w, i) ∈ s.2 := by
  rcases List.exists_of_findSome?_eq_some hDecode with
    ⟨s, hMem, hLookup⟩
  exact ⟨s, hMem, mem_of_lookup hLookup⟩

/- The switches before the one that decides have no case. -/
theorem decode_eq_some
    (before after : List (K × List (Nat × I)))
    (name : K)
    (cases : List (Nat × I))
    (hBefore :
      ∀ s ∈ before, ∀ p ∈ s.2, p.1 ≠ key s.1 w)
    (hLookup : cases.lookup (key name w) = some i) :
    decode key (before ++ (name, cases) :: after) w =
      some i := by
  have hNone :
      before.findSome? (fun s => s.2.lookup (key s.1 w)) =
        none := by
    rw [List.findSome?_eq_none_iff]
    intro s hMem
    rw [List.lookup_eq_none_iff]
    intro p hp
    simpa using (hBefore s hMem p hp).symm
  unfold decode
  rw [List.findSome?_append, hNone, Option.none_or,
    List.findSome?_cons, hLookup]

end Switch

end Ps3emu
