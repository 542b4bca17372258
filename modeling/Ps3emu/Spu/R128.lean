import Ps3emu.Library.LaneLoop
import Ps3emu.Ppu.VectorInteger
import Ps3emu.Spu.Instruction

/-
  The registers of an SPU by their lanes, and what it means
  that an instruction sets a register to certain lanes.

  Key definitions include:
    * `R128`, `RegisterFile`
    * `eachB`, `eachHw`, `eachW`
    * `Sets`

  Key theorems include:
    * `sets_setXmm`, `sets_unique`, `sets_iff_of_sets`
    * `sets_eachB`, `sets_eachHw`, `sets_eachW`
    * `word_of_sets`, `untouched_word`
-/

------------------------------------------------------------
-- Registers and Results
------------------------------------------------------------

namespace Ps3emu

namespace Spu

open Lanes Sse Ppu

abbrev R128 := M128

namespace R128

/- Lane 0 is at the high end. -/
def b (r : R128) (n : Nat) : BitVec 8 := laneBE 8 16 r n

def hw (r : R128) (n : Nat) : BitVec 16 := laneBE 16 8 r n

def w (r : R128) (n : Nat) : BitVec 32 := laneBE 32 4 r n

def dw (r : R128) (n : Nat) : BitVec 64 := laneBE 64 2 r n

def set_w
    (r : R128)
    (n : Nat)
    (v : BitVec 32) : R128 :=
  setLane 32 4 r n v

def set_dw
    (r : R128)
    (n : Nat)
    (v : BitVec 64) : R128 :=
  setLane 64 2 r n v

end R128

abbrev RegisterFile := BitVec 7 → R128

/- `th->r(i).set_xmm(value)`. -/
def RegisterFile.setXmm
    (r : RegisterFile)
    (i : BitVec 7)
    (value : R128) : RegisterFile :=
  Function.update r i value

/-
  Loops in which `rt` is a reference to a register: the body
  may read lanes that the loop has set.
-/
def eachB
    (rt : BitVec 7)
    (body : RegisterFile → Nat → BitVec 8)
    (r : RegisterFile) : RegisterFile :=
  forLanes 8 16 rt body r

def eachHw
    (rt : BitVec 7)
    (body : RegisterFile → Nat → BitVec 16)
    (r : RegisterFile) : RegisterFile :=
  forLanes 16 8 rt body r

def eachW
    (rt : BitVec 7)
    (body : RegisterFile → Nat → BitVec 32)
    (r : RegisterFile) : RegisterFile :=
  forLanes 32 4 rt body r

/- One register gets a value with the given lanes. -/
def Sets
    (rt : BitVec 7)
    (s : LaneSpec)
    (r r' : RegisterFile) : Prop :=
  ∃ v, r' = Function.update r rt v ∧ s.Holds v

variable {r : RegisterFile} {rt : BitVec 7}

theorem sets_setXmm
    {s : LaneSpec}
    {v : R128}
    (hHolds : s.Holds v) :
    Sets rt s r (r.setXmm rt v) :=
  ⟨v, rfl, hHolds⟩

/- The lanes determine the registers. -/
theorem sets_unique
    {s : LaneSpec}
    {r r' r'' : RegisterFile}
    (hSets : Sets rt s r r')
    (hSets' : Sets rt s r r'') :
    r' = r'' := by
  rcases hSets with ⟨v, hUpdate, hHolds⟩
  rcases hSets' with ⟨v', hUpdate', hHolds'⟩
  rw [hUpdate, hUpdate', LaneSpec.holds_unique hHolds hHolds']

/- Two specifications of one result agree on every lane. -/
theorem sets_iff_of_sets
    {w k : Nat}
    {hFull : w * k = 128}
    {f g : Nat → BitVec w}
    {r r' : RegisterFile}
    (hSets : Sets rt ⟨w, k, hFull, f⟩ r r') :
    Sets rt ⟨w, k, hFull, g⟩ r r' ↔ ∀ n < k, f n = g n := by
  rcases hSets with ⟨v, hUpdate, hLanes⟩
  constructor
  · rintro ⟨v', hUpdate', hLanes'⟩ n hN
    have hSame : v = v' := by
      have hAt := congrFun (hUpdate.symm.trans hUpdate') rt
      simpa only [Function.update_self] using hAt
    subst hSame
    exact (hLanes n hN).symm.trans (hLanes' n hN)
  · intro hAgree
    refine ⟨v, hUpdate, ?_⟩
    intro n hN
    exact (hLanes n hN).trans (hAgree n hN)

theorem sets_eachB
    {body : RegisterFile → Nat → BitVec 8}
    {value : Nat → BitVec 8}
    (hBody :
      ∀ i < 16, ∀ r', Untouched 8 16 rt r r' i →
        body r' i = value i) :
    Sets rt (bytes value) r (eachB rt body r) :=
  forLanes_spec hBody

theorem sets_eachHw
    {body : RegisterFile → Nat → BitVec 16}
    {value : Nat → BitVec 16}
    (hBody :
      ∀ i < 8, ∀ r', Untouched 16 8 rt r r' i →
        body r' i = value i) :
    Sets rt (halfwords value) r (eachHw rt body r) :=
  forLanes_spec hBody

theorem sets_eachW
    {body : RegisterFile → Nat → BitVec 32}
    {value : Nat → BitVec 32}
    (hBody :
      ∀ i < 4, ∀ r', Untouched 32 4 rt r r' i →
        body r' i = value i) :
    Sets rt (words value) r (eachW rt body r) :=
  forLanes_spec hBody

variable {r' : RegisterFile}

/- The lanes of a register that has been set. -/
theorem lanes_of_sets
    {s : LaneSpec}
    (hSets : Sets rt s r r') :
    s.Holds (r' rt) := by
  rcases hSets with ⟨v, hUpdate, hLanes⟩
  rw [hUpdate, Function.update_self]
  exact hLanes

variable {n : Nat}

theorem word_of_sets
    {f : Nat → BitVec 32}
    (hSets : Sets rt (words f) r r')
    (hN : n < 4) :
    word (r' rt) n = f n :=
  lanes_of_sets hSets n hN

/- In its round, a lane is the old one in every register. -/
theorem untouched_lane
    {w k : Nat}
    {r r' : BitVec 7 → BitVec (w * k)}
    (hSame : Untouched w k rt r r' n)
    (i : BitVec 7) :
    laneBE w k (r' i) n = laneBE w k (r i) n := by
  by_cases hTarget : i = rt
  · subst hTarget
    exact hSame.2
  · rw [hSame.1 i hTarget]

theorem untouched_word
    (hSame : Untouched 32 4 rt r r' n)
    {i : BitVec 7} :
    (r' i).w n = word (r i) n :=
  untouched_lane hSame i

end Spu

end Ps3emu
