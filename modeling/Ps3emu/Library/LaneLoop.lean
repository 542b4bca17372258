import Mathlib.Logic.Function.Basic
import Ps3emu.Library.Lanes

/-
  Loops that compute the lanes of one vector of a file in
  turn, with a body that may read the file meanwhile.

  Key definitions include:
    * `setLane`
    * `forLanes`

  Key theorems include:
    * `laneBE_setLane`
    * `forLanes_spec`
-/

------------------------------------------------------------
-- Loops over Lanes
------------------------------------------------------------

namespace Ps3emu

namespace Lanes

/- Put a value in lane `i`, counted from the high end. -/
def setLane
    (w k : Nat)
    (x : BitVec (w * k))
    (i : Nat)
    (v : BitVec w) : BitVec (w * k) :=
  pack w k (fun j => if j = k - 1 - i then v else lane w x j)

theorem laneBE_setLane
    (w k : Nat)
    (x : BitVec (w * k))
    {i j : Nat}
    (hI : i < k)
    (hJ : j < k)
    (v : BitVec w) :
    laneBE w k (setLane w k x i v) j =
      if j = i then v else laneBE w k x j := by
  have hIndex : k - 1 - j = k - 1 - i ↔ j = i := by omega
  refine (laneBE_pack w k _ hJ).trans ?_
  simp only [hIndex]
  rfl

variable {ι : Type} [DecidableEq ι]

/- Set the lanes of `file t`, from the high end. -/
def forLanes
    (w k : Nat)
    (t : ι)
    (body : (ι → BitVec (w * k)) → Nat → BitVec w)
    (file : ι → BitVec (w * k)) : ι → BitVec (w * k) :=
  (List.range k).foldl
    (fun file i =>
      Function.update file t
        (setLane w k (file t) i (body file i)))
    file

/-
  What the body may rely on in round `i`: the other vectors
  and lane `i` are as they were.
-/
def Untouched
    (w k : Nat)
    (t : ι)
    (file file' : ι → BitVec (w * k))
    (i : Nat) : Prop :=
  (∀ j, j ≠ t → file' j = file j) ∧
    laneBE w k (file' t) i = laneBE w k (file t) i

/- The rounds of a loop, up to round `m`. -/
theorem forLanes_rounds
    {w k : Nat}
    {t : ι}
    {body : (ι → BitVec (w * k)) → Nat → BitVec w}
    {file : ι → BitVec (w * k)}
    {value : Nat → BitVec w}
    (hBody :
      ∀ i < k, ∀ file', Untouched w k t file file' i →
        body file' i = value i)
    {m : Nat}
    (hM : m ≤ k) :
    ∃ v,
      (List.range m).foldl
          (fun file i =>
            Function.update file t
              (setLane w k (file t) i (body file i)))
          file = Function.update file t v ∧
        ∀ i < k,
          laneBE w k v i =
            if i < m then value i
            else laneBE w k (file t) i := by
  induction m with
  | zero =>
      refine ⟨file t, (Function.update_eq_self t file).symm, ?_⟩
      intro i _
      rfl
  | succ m hRounds =>
      rcases hRounds (Nat.le_of_succ_le hM) with
        ⟨v, hFold, hLanes⟩
      have hRound :
          body (Function.update file t v) m = value m := by
        apply hBody m hM
        refine ⟨fun j hJ => Function.update_of_ne hJ _ _, ?_⟩
        rw [Function.update_self, hLanes m hM,
          if_neg (Nat.lt_irrefl m)]
      refine ⟨setLane w k v m (value m), ?_, ?_⟩
      · rw [List.range_succ, List.foldl_append, hFold,
          List.foldl_cons, List.foldl_nil, hRound,
          Function.update_self, Function.update_idem]
      · intro i hI
        rw [laneBE_setLane w k v hM hI, hLanes i hI]
        by_cases hNow : i = m
        · simp [hNow]
        · have hIff : i < m + 1 ↔ i < m := by omega
          simp only [hNow, hIff, if_false]

/- A loop changes one vector, to the lanes the body gives. -/
theorem forLanes_spec
    {w k : Nat}
    {t : ι}
    {body : (ι → BitVec (w * k)) → Nat → BitVec w}
    {file : ι → BitVec (w * k)}
    {value : Nat → BitVec w}
    (hBody :
      ∀ i < k, ∀ file', Untouched w k t file file' i →
        body file' i = value i) :
    ∃ v,
      forLanes w k t body file = Function.update file t v ∧
        ∀ i < k, laneBE w k v i = value i := by
  rcases forLanes_rounds hBody (Nat.le_refl k) with
    ⟨v, hFold, hLanes⟩
  refine ⟨v, hFold, ?_⟩
  intro i hI
  rw [hLanes i hI, if_pos hI]

end Lanes

end Ps3emu
