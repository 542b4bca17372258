import Mathlib.Tactic.Common

/-
  Masks whose bits are numbered from the left and which may
  wrap around the end of a word.

  Key definitions include:
    * `InMask`
    * `IsMask`
    * `Inserted`

  Key theorems include:
    * `inserted_iff`
    * `and_eq_iff`
-/

------------------------------------------------------------
-- Masks and Insertion
------------------------------------------------------------

namespace Ps3emu

namespace WrappingMask

variable {w : Nat}

/- The positions from `first` to `last`, around the end. -/
def InMask (first last j : Nat) : Prop :=
  if first ≤ last then first ≤ j ∧ j ≤ last
  else j ≤ last ∨ first ≤ j

instance (first last j : Nat) :
    Decidable (InMask first last j) :=
  inferInstanceAs (Decidable (ite _ _ _))

theorem inMask_of_le
    {first last j : Nat}
    (hLe : first ≤ last) :
    InMask first last j ↔ first ≤ j ∧ j ≤ last := by
  unfold InMask
  rw [if_pos hLe]

theorem inMask_of_lt
    {first last j : Nat}
    (hLt : last < first) :
    InMask first last j ↔ j ≤ last ∨ first ≤ j := by
  unfold InMask
  rw [if_neg (Nat.not_le.mpr hLt)]

/- A word whose one-bits are the positions of a mask. -/
def IsMask
    (first last : Nat)
    (m : BitVec w) : Prop :=
  ∀ j < w, m.getMsbD j = decide (InMask first last j)

/-
  The bits of `source` under the mask, and of `base`
  elsewhere.
-/
def Inserted
    (first last : Nat)
    (source base result : BitVec w) : Prop :=
  ∀ j < w,
    result.getMsbD j =
      if InMask first last j then source.getMsbD j
      else base.getMsbD j

theorem eq_of_getMsbD
    {x y : BitVec w}
    (hBits : ∀ j < w, x.getMsbD j = y.getMsbD j) :
    x = y := by
  apply BitVec.eq_of_getMsbD_eq
  intro i hi
  exact hBits i hi

variable {first last : Nat}

theorem getMsbD_insert
    {m : BitVec w}
    (hMask : IsMask first last m)
    (source base : BitVec w)
    {j : Nat}
    (hJ : j < w) :
    ((source &&& m) ||| (base &&& ~~~m)).getMsbD j =
      if InMask first last j then source.getMsbD j
      else base.getMsbD j := by
  rw [BitVec.getMsbD_or, BitVec.getMsbD_and,
    BitVec.getMsbD_and, BitVec.getMsbD_not, hMask j hJ]
  by_cases hIn : InMask first last j
  · simp [hIn]
  · simp [hIn, hJ]

/- Insertion under a mask is the only inserted word. -/
theorem inserted_iff
    {m : BitVec w}
    (hMask : IsMask first last m)
    (source base result : BitVec w) :
    Inserted first last source base result ↔
      result = (source &&& m) ||| (base &&& ~~~m) := by
  constructor
  · intro hInserted
    apply eq_of_getMsbD
    intro j hJ
    rw [hInserted j hJ, getMsbD_insert hMask source base hJ]
  · intro hResult j hJ
    rw [hResult, getMsbD_insert hMask source base hJ]

/- Without a base the other bits are zero. -/
theorem inserted_zero_iff
    {m : BitVec w}
    (hMask : IsMask first last m)
    (source result : BitVec w) :
    Inserted first last source 0#w result ↔
      result = source &&& m := by
  rw [inserted_iff hMask, BitVec.zero_and, BitVec.or_zero]

/- The base does not matter under a mask. -/
theorem insert_eq_insert_iff
    (source source' base m : BitVec w) :
    (source &&& m) ||| (base &&& ~~~m) =
        (source' &&& m) ||| (base &&& ~~~m) ↔
      source &&& m = source' &&& m := by
  constructor
  · intro hEqual
    have hUnder :=
      congrArg (fun result => result &&& m) hEqual
    apply BitVec.eq_of_getLsbD_eq
    intro i hi
    have hBit :=
      congrArg (fun result => result.getLsbD i) hUnder
    simp only [BitVec.getLsbD_and, BitVec.getLsbD_or,
      BitVec.getLsbD_not] at hBit ⊢
    cases hM : m.getLsbD i with
    | false => rw [Bool.and_false, Bool.and_false]
    | true =>
        rw [hM] at hBit
        simpa using hBit
  · intro hEqual
    rw [hEqual]

/-
  Two masks cut the same bits out of a word that has no
  one-bit where they differ.
-/
theorem and_eq_iff
    {first last first' last' : Nat}
    {m m' : BitVec w}
    (hMask : IsMask first last m)
    (hMask' : IsMask first' last' m')
    (source : BitVec w) :
    source &&& m = source &&& m' ↔
      ∀ j < w,
        ¬ (InMask first last j ↔ InMask first' last' j) →
          source.getMsbD j = false := by
  constructor
  · intro hEqual j hJ hDiffer
    have hBit := congrArg (fun x => x.getMsbD j) hEqual
    simp only [BitVec.getMsbD_and, hMask j hJ,
      hMask' j hJ] at hBit
    cases hSource : source.getMsbD j with
    | false => rfl
    | true =>
        rw [hSource, Bool.true_and, Bool.true_and,
          decide_eq_decide] at hBit
        exact absurd hBit hDiffer
  · intro hZero
    apply eq_of_getMsbD
    intro j hJ
    rw [BitVec.getMsbD_and, BitVec.getMsbD_and, hMask j hJ,
      hMask' j hJ]
    by_cases hSame :
        InMask first last j ↔ InMask first' last' j
    · rw [decide_eq_decide.mpr hSame]
    · rw [hZero j hJ hSame, Bool.false_and, Bool.false_and]

end WrappingMask

end Ps3emu
