import Mathlib.Algebra.Group.Nat.Defs
import Mathlib.Order.Nat
import Mathlib.Tactic.Common

/-
  `findGap`: the scan for an aligned gap over a range of
  cells.  Positions are distances from the start of the
  range.  `align_up` belongs to another library and is a
  parameter here; its documentation fixes the result where
  no bit is lost.

  Key definitions include:
    * `AlignUp`
    * `findGap`, `findGapLoop`
    * `FirstEmpty`
    * `FindsFirstWindow`, `ScanSuffices`

  Key theorems include:
    * `findGap_spec`
    * `findGap_zero`
    * `findsFirstWindow_iff`
-/

------------------------------------------------------------
-- Alignment
------------------------------------------------------------

namespace Ps3emu

/-
  `align_up` returns the smallest multiple of a power of two
  that is at least the value, if that fits in a word.
-/
structure AlignUp (alignUp : Nat → Nat → Nat) : Prop where
  eq :
    ∀ value k,
      value + 2 ^ k ≤ 2 ^ 32 →
      alignUp value (2 ^ k) =
        (value + (2 ^ k - 1)) / 2 ^ k * 2 ^ k

namespace AlignUp

variable {alignUp : Nat → Nat → Nat} {value k : Nat}

variable (hAlign : AlignUp alignUp)

include hAlign

theorem dvd
    (hFits : value + 2 ^ k ≤ 2 ^ 32) :
    2 ^ k ∣ alignUp value (2 ^ k) := by
  rw [hAlign.eq value k hFits]
  exact Nat.dvd_mul_left _ _

theorem lt_add
    (hFits : value + 2 ^ k ≤ 2 ^ 32) :
    alignUp value (2 ^ k) < value + 2 ^ k := by
  have hPos : 0 < 2 ^ k := Nat.two_pow_pos k
  rw [hAlign.eq value k hFits]
  have hLe :=
    Nat.div_mul_le_self (value + (2 ^ k - 1)) (2 ^ k)
  omega

/- No multiple lies between a value and its alignment. -/
theorem lt_of_lt
    {value k c : Nat}
    (hFits : value + 2 ^ k ≤ 2 ^ 32)
    (hDvd : 2 ^ k ∣ c)
    (hLt : c < alignUp value (2 ^ k)) :
    c < value := by
  have hPos : 0 < 2 ^ k := Nat.two_pow_pos k
  rw [hAlign.eq value k hFits] at hLt
  rcases hDvd with ⟨q, rfl⟩
  rw [Nat.mul_comm] at hLt
  have hQuotient := Nat.lt_of_mul_lt_mul_right hLt
  have hLe : (q + 1) * 2 ^ k ≤ value + (2 ^ k - 1) :=
    (Nat.le_div_iff_mul_le hPos).mp hQuotient
  rw [Nat.add_mul, Nat.one_mul, Nat.mul_comm] at hLe
  omega

/- An aligned value is its own alignment. -/
theorem eq_self
    (hFits : value + 2 ^ k ≤ 2 ^ 32)
    (hDvd : 2 ^ k ∣ value) :
    alignUp value (2 ^ k) = value := by
  have hPos : 0 < 2 ^ k := Nat.two_pow_pos k
  rcases hDvd with ⟨q, rfl⟩
  rw [hAlign.eq _ k hFits, Nat.mul_add_div hPos,
    Nat.div_eq_of_lt (by omega), Nat.add_zero, Nat.mul_comm]

end AlignUp

------------------------------------------------------------
-- Scan
------------------------------------------------------------

variable (alignUp : Nat → Nat → Nat) (isEmpty : Nat → Bool)

/-
  The loop `while (lower <= end)` with the number of its
  iterations that are left, up to the break.  The result is
  `current` and `count`.
-/
def findGapLoop
    (width alignment : Nat) :
    Nat → Nat → Nat → Nat → Nat × Nat
  | 0, _, current, count => (current, count)
  | left + 1, lower, current, count =>
      let current :=
        if count = 0 then alignUp current alignment
        else current
      let (current, count) :=
        if isEmpty current then (current, count + 1)
        else (lower, 0)
      if count = width then (current, count)
      else
        findGapLoop width alignment left (lower + 1) current
          count

/- `n` is the distance from `begin` to `end`. -/
def findGap (n width alignment : Nat) : Nat :=
  let (current, count) :=
    findGapLoop alignUp isEmpty width alignment (n + 1) 0 0 0
  if count = width then current else n

/- The first aligned cell that is empty. -/
structure FirstEmpty (alignment c : Nat) : Prop where
  empty : isEmpty c = true
  dvd : alignment ∣ c
  full : ∀ d < c, alignment ∣ d → isEmpty d = false

variable {alignUp isEmpty}

/-
  Once the scan has counted an empty cell it looks at no
  other, and counts one more in every iteration.
-/
theorem findGapLoop_counting
    {width alignment left lower c count : Nat}
    (hEmpty : isEmpty c = true)
    (hCount : 0 < count) :
    (findGapLoop alignUp isEmpty width alignment left lower c
        count).2 = width →
      count ≠ width →
        (findGapLoop alignUp isEmpty width alignment left
            lower c count).1 = c ∧
          count < width ∧ width ≤ count + left := by
  induction left generalizing lower count with
  | zero =>
      intro hEq hNe
      exact absurd hEq hNe
  | succ left ih =>
      intro hEq hNe
      have hNonzero : ¬ count = 0 := by omega
      simp only [findGapLoop, hNonzero, if_false, hEmpty,
        if_true] at hEq ⊢
      by_cases hDone : count + 1 = width
      · simp only [hDone, if_true]
        exact ⟨trivial, by omega, by omega⟩
      · simp only [hDone, if_false] at hEq ⊢
        rcases ih (by omega) hEq hDone with
          ⟨hCurrent, hLt, hLe⟩
        exact ⟨hCurrent, by omega, by omega⟩

/-
  While nothing is counted, the aligned cells that lie at
  least two below `lower` have been found full.
-/
theorem findGapLoop_searching
    {width k left lower : Nat}
    (hAlign : AlignUp alignUp)
    (hWidth : 0 < width)
    (hFits : lower + left + 2 ^ k ≤ 2 ^ 32)
    (hFull :
      ∀ d < lower - 1, 2 ^ k ∣ d → isEmpty d = false)
    (hEq :
      (findGapLoop alignUp isEmpty width (2 ^ k) left lower
        (lower - 1) 0).2 = width) :
    FirstEmpty isEmpty (2 ^ k)
        (findGapLoop alignUp isEmpty width (2 ^ k) left lower
          (lower - 1) 0).1 ∧
      ((findGapLoop alignUp isEmpty width (2 ^ k) left lower
            (lower - 1) 0).1 + width + 1 ≤
          lower + left + 2 ^ k - 1 ∨
        ((findGapLoop alignUp isEmpty width (2 ^ k) left
            lower (lower - 1) 0).1 = 0 ∧
          width ≤ lower + left)) := by
  induction left generalizing lower with
  | zero =>
      simp only [findGapLoop] at hEq
      omega
  | succ left ih =>
      have hBound : lower - 1 + 2 ^ k ≤ 2 ^ 32 := by omega
      simp only [findGapLoop, if_true] at hEq ⊢
      by_cases hEmpty :
          isEmpty (alignUp (lower - 1) (2 ^ k)) = true
      · -- the scan stops looking here
        have hFirst :
            FirstEmpty isEmpty (2 ^ k)
              (alignUp (lower - 1) (2 ^ k)) := by
          refine ⟨hEmpty, hAlign.dvd hBound, ?_⟩
          intro d hd hDvd
          exact hFull d (hAlign.lt_of_lt hBound hDvd hd) hDvd
        have hNear := hAlign.lt_add hBound
        have hZero :
            lower = 0 → alignUp (lower - 1) (2 ^ k) = 0 := by
          rintro rfl
          exact hAlign.eq_self hBound (Nat.dvd_zero _)
        generalize alignUp (lower - 1) (2 ^ k) = c at *
        simp only [hEmpty, if_true, Nat.zero_add] at hEq ⊢
        by_cases hOne : 1 = width
        · simp only [hOne, if_true]
          refine ⟨hFirst, ?_⟩
          omega
        · simp only [hOne, if_false] at hEq ⊢
          rcases findGapLoop_counting hEmpty
            (Nat.zero_lt_one) hEq hOne with
            ⟨hCurrent, hLt, hLe⟩
          rw [hCurrent]
          refine ⟨hFirst, ?_⟩
          omega
      · have hNonzero : ¬ 0 = width := by omega
        simp only [hEmpty, if_false, hNonzero,
          Bool.false_eq_true] at hEq ⊢
        have hNext : lower + 1 - 1 = lower := by omega
        have hFull' :
            ∀ d < lower + 1 - 1,
              2 ^ k ∣ d → isEmpty d = false := by
          intro d hd hDvd
          by_cases hOld : d < lower - 1
          · exact hFull d hOld hDvd
          · have hLast : d = lower - 1 := by omega
            have hSelf :=
              hAlign.eq_self hBound (hLast ▸ hDvd)
            rw [hSelf] at hEmpty
            rw [hLast]
            exact Bool.eq_false_iff.mpr hEmpty
        rw [hNext] at hFull'
        have hRest := @ih (lower + 1) (by omega)
        rw [hNext] at hRest
        have hFound := hRest hFull' hEq
        refine ⟨hFound.1, ?_⟩
        have hBounds := hFound.2
        omega

/-
  A gap that is found starts at the first empty aligned cell
  of the range, whatever the cells after it are, and passes
  the end by less than the alignment.
-/
theorem findGap_spec
    {n width k : Nat}
    (hAlign : AlignUp alignUp)
    (hWidth : 0 < width)
    (hFits : n + 1 + 2 ^ k ≤ 2 ^ 32)
    (hFound :
      findGap alignUp isEmpty n width (2 ^ k) ≠ n) :
    FirstEmpty isEmpty (2 ^ k)
        (findGap alignUp isEmpty n width (2 ^ k)) ∧
      (findGap alignUp isEmpty n width (2 ^ k) + width ≤
          n + 2 ^ k - 1 ∨
        (findGap alignUp isEmpty n width (2 ^ k) = 0 ∧
          width ≤ n + 1)) := by
  unfold findGap at hFound ⊢
  simp only at hFound ⊢
  split at hFound
  case isFalse => exact absurd rfl hFound
  case isTrue hCount =>
    rw [if_pos hCount]
    have hPos : 0 < 2 ^ k := Nat.two_pow_pos k
    rcases findGapLoop_searching hAlign hWidth
      (by omega) (by omega) hCount with ⟨hFirst, hBound⟩
    refine ⟨hFirst, ?_⟩
    simp only [Nat.zero_sub, Nat.zero_add] at hBound
    omega

/- A gap of no cells is not found at an empty first cell. -/
theorem findGap_zero
    {n k : Nat}
    (hAlign : AlignUp alignUp)
    (hFits : 2 ^ k ≤ 2 ^ 32)
    (hEmpty : isEmpty 0 = true) :
    findGap alignUp isEmpty n 0 (2 ^ k) = n := by
  have hZero : alignUp 0 (2 ^ k) = 0 :=
    hAlign.eq_self (by omega) (Nat.dvd_zero _)
  unfold findGap
  simp only [findGapLoop, if_true, hZero, hEmpty,
    Nat.zero_add, Nat.one_ne_zero, if_false]
  split
  case isFalse => rfl
  case isTrue hCount =>
    have hRest :=
      findGapLoop_counting hEmpty (Nat.zero_lt_one) hCount
        (Nat.one_ne_zero)
    omega

------------------------------------------------------------
-- First EmptyWindow
------------------------------------------------------------

variable (alignUp isEmpty)

/- The cells that the loop looks at, in order. -/
def findGapCells
    (width alignment : Nat) :
    Nat → Nat → Nat → Nat → List Nat
  | 0, _, _, _ => []
  | left + 1, lower, current, count =>
      let current :=
        if count = 0 then alignUp current alignment
        else current
      let (next, count) :=
        if isEmpty current then (current, count + 1)
        else (lower, 0)
      current ::
        if count = width then []
        else
          findGapCells width alignment left (lower + 1) next
            count

def findGapLooksAt (n width alignment : Nat) : List Nat :=
  findGapCells alignUp isEmpty width alignment (n + 1) 0 0 0

/- `align_up` without a bound on its result. -/
structure AlignsUp (alignUp : Nat → Nat → Nat) : Prop where
  dvd : ∀ value k, 2 ^ k ∣ alignUp value (2 ^ k)
  le : ∀ value k, value ≤ alignUp value (2 ^ k)
  lt_add : ∀ value k, alignUp value (2 ^ k) < value + 2 ^ k

/- An aligned window of empty cells inside the range. -/
structure EmptyWindow
    (n width alignment c : Nat) : Prop where
  dvd : alignment ∣ c
  inside : c + width ≤ n
  empty : ∀ d < width, isEmpty (c + d) = true

/-
  The result is `end` if and only if there is no window, else
  it is the first one, and no cell at or after `end` is looked
  at.
-/
structure FindsFirstWindow
    (n width alignment : Nat) : Prop where
  none :
    findGap alignUp isEmpty n width alignment = n ↔
      ¬ ∃ c, EmptyWindow isEmpty n width alignment c
  first :
    findGap alignUp isEmpty n width alignment ≠ n →
      EmptyWindow isEmpty n width alignment
          (findGap alignUp isEmpty n width alignment) ∧
        ∀ c, EmptyWindow isEmpty n width alignment c →
          findGap alignUp isEmpty n width alignment ≤ c
  inside :
    ∀ c ∈ findGapLooksAt alignUp isEmpty n width alignment,
      c < n

/- The iteration that counts an aligned cell for the first time. -/
def firstCount (alignment p : Nat) : Nat :=
  if p = 0 then 0 else p + 2 - alignment

/-
  The first empty aligned cell starts a window, or the range
  ends before it has been counted often enough.
-/
def CountsWindow (n width alignment p : Nat) : Prop :=
  EmptyWindow isEmpty n width alignment p ∨
    n + 1 < firstCount alignment p + width

/-
  The first empty aligned cell decides, and if there is none
  then the scan ends at an aligned cell inside the range.
-/
def ScanSuffices (n width alignment : Nat) : Prop :=
  (∃ p < n,
      FirstEmpty isEmpty alignment p ∧
        CountsWindow isEmpty n width alignment p) ∨
    ((∀ p < n, alignment ∣ p → isEmpty p = false) ∧
      0 < n ∧ alignment ∣ n - 1)

variable {alignUp isEmpty}

namespace AlignsUp

variable {value k p : Nat}

/- No multiple lies between a value and its alignment. -/
theorem le_of_dvd
    (hAlign : AlignsUp alignUp)
    (hDvd : 2 ^ k ∣ p)
    (hLe : value ≤ p) :
    alignUp value (2 ^ k) ≤ p := by
  by_contra hNot
  have hLt := hAlign.lt_add value k
  have hGap : 2 ^ k ∣ alignUp value (2 ^ k) - p :=
    Nat.dvd_sub (hAlign.dvd value k) hDvd
  have hLe' := Nat.le_of_dvd (by omega) hGap
  omega

/- An aligned value is its own alignment. -/
theorem eq_self
    (hAlign : AlignsUp alignUp)
    (hDvd : 2 ^ k ∣ p) :
    alignUp p (2 ^ k) = p :=
  Nat.le_antisymm (hAlign.le_of_dvd hDvd (Nat.le_refl p))
    (hAlign.le p k)

/- A value less than one alignment below a multiple. -/
theorem eq_of_lt
    (hAlign : AlignsUp alignUp)
    (hDvd : 2 ^ k ∣ p)
    (hLe : value ≤ p)
    (hLt : p < value + 2 ^ k) :
    alignUp value (2 ^ k) = p := by
  have hUpper := hAlign.le_of_dvd hDvd hLe
  have hLower := hAlign.le value k
  by_contra hNe
  have hGap : 2 ^ k ∣ p - alignUp value (2 ^ k) :=
    Nat.dvd_sub hDvd (hAlign.dvd value k)
  have hLe' := Nat.le_of_dvd (by omega) hGap
  omega

end AlignsUp

/- Counting goes on at one empty cell until it is done. -/
theorem findGapLoop_count
    {width alignment left lower c count : Nat}
    (hEmpty : isEmpty c = true)
    (hCount : 0 < count)
    (hLt : count < width) :
    findGapLoop alignUp isEmpty width alignment left lower c
        count =
      (c, min width (count + left)) := by
  induction left generalizing lower count with
  | zero =>
      rw [findGapLoop, Nat.add_zero, Nat.min_eq_right]
      omega
  | succ left ih =>
      have hNonzero : ¬ count = 0 := by omega
      simp only [findGapLoop, hNonzero, if_false, hEmpty,
        if_true]
      split
      case isTrue hDone =>
        rw [Nat.min_eq_left (by omega), hDone]
      case isFalse hMore =>
        rw [ih (by omega) (by omega), Nat.add_right_comm,
          Nat.add_assoc]

theorem findGapCells_count
    {width alignment left lower c count d : Nat}
    (hEmpty : isEmpty c = true)
    (hCount : 0 < count)
    (hMem :
      d ∈ findGapCells alignUp isEmpty width alignment left
        lower c count) :
    d = c := by
  induction left generalizing lower count with
  | zero => cases hMem
  | succ left ih =>
      have hNonzero : ¬ count = 0 := by omega
      simp only [findGapCells, hNonzero, if_false, hEmpty,
        if_true, List.mem_cons] at hMem
      rcases hMem with hHead | hTail
      · exact hHead
      · split at hTail
        case isTrue => cases hTail
        case isFalse => exact ih (by omega) hTail

theorem firstCount_le
    {k p : Nat}
    (hDvd : 2 ^ k ∣ p) :
    firstCount (2 ^ k) p ≤ p + 1 := by
  have hPos : 0 < 2 ^ k := Nat.two_pow_pos k
  rw [firstCount]
  split <;> omega

/- The aligned cell that an iteration looks at. -/
theorem alignUp_of_searching
    {k lower p : Nat}
    (hAlign : AlignsUp alignUp)
    (hDvd : 2 ^ k ∣ p)
    (hLower : lower ≤ firstCount (2 ^ k) p) :
    (lower = firstCount (2 ^ k) p ∧
        alignUp (lower - 1) (2 ^ k) = p) ∨
      (lower < firstCount (2 ^ k) p ∧
        alignUp (lower - 1) (2 ^ k) < p) := by
  have hPos : 0 < 2 ^ k := Nat.two_pow_pos k
  rw [firstCount] at hLower ⊢
  split at hLower
  case isTrue hZero =>
    subst hZero
    obtain rfl : lower = 0 := by omega
    exact .inl ⟨rfl, hAlign.eq_self hDvd⟩
  case isFalse hNonzero =>
    have hBelow := Nat.le_of_dvd (by omega) hDvd
    rw [if_neg hNonzero]
    by_cases hLast : lower = p + 2 - 2 ^ k
    · refine .inl ⟨hLast, ?_⟩
      exact hAlign.eq_of_lt hDvd (by omega) (by omega)
    · have hPrevious : 2 ^ k ∣ p - 2 ^ k :=
        Nat.dvd_sub hDvd (Nat.dvd_refl _)
      have hLe : alignUp (lower - 1) (2 ^ k) ≤ p - 2 ^ k :=
        hAlign.le_of_dvd hPrevious (by omega)
      exact .inr ⟨by omega, by omega⟩

/-
  The scan comes to the first empty aligned cell, and counts
  it in all of the iterations that are left.
-/
theorem findGapLoop_found
    {width k left lower p : Nat}
    (hAlign : AlignsUp alignUp)
    (hWidth : 0 < width)
    (hFirst : FirstEmpty isEmpty (2 ^ k) p)
    (hLower : lower ≤ firstCount (2 ^ k) p)
    (hLeft : firstCount (2 ^ k) p < lower + left) :
    findGapLoop alignUp isEmpty width (2 ^ k) left lower
        (lower - 1) 0 =
      (p, min width (lower + left - firstCount (2 ^ k) p)) := by
  induction left generalizing lower with
  | zero => omega
  | succ left ih =>
      have hNonzero : ¬ 0 = width := by omega
      rcases alignUp_of_searching hAlign hFirst.dvd hLower with
        ⟨hHere, hCell⟩ | ⟨hBefore, hCell⟩
      · simp only [findGapLoop, if_true, hCell, hFirst.empty,
          Nat.zero_add]
        split
        case isTrue hOne =>
          rw [Nat.min_eq_left (by omega), hOne]
        case isFalse hMore =>
          rw [findGapLoop_count hFirst.empty Nat.zero_lt_one
            (by omega)]
          congr 2
          omega
      · have hFull :=
          hFirst.full _ hCell (hAlign.dvd (lower - 1) k)
        have hRest := @ih (lower + 1) (by omega) (by omega)
        rw [Nat.add_sub_cancel] at hRest
        simp only [findGapLoop, if_true, hFull, hNonzero,
          if_false, Bool.false_eq_true]
        rw [hRest, Nat.add_right_comm, Nat.add_assoc]

theorem findGapCells_found
    {width k left lower p d : Nat}
    (hAlign : AlignsUp alignUp)
    (hWidth : 0 < width)
    (hFirst : FirstEmpty isEmpty (2 ^ k) p)
    (hLower : lower ≤ firstCount (2 ^ k) p)
    (hMem :
      d ∈ findGapCells alignUp isEmpty width (2 ^ k) left
        lower (lower - 1) 0) :
    d ≤ p := by
  induction left generalizing lower with
  | zero => cases hMem
  | succ left ih =>
      have hNonzero : ¬ 0 = width := by omega
      rcases alignUp_of_searching hAlign hFirst.dvd hLower with
        ⟨hHere, hCell⟩ | ⟨hBefore, hCell⟩
      · simp only [findGapCells, if_true, hCell, hFirst.empty,
          Nat.zero_add, List.mem_cons] at hMem
        rcases hMem with hHead | hTail
        · exact Nat.le_of_eq hHead
        · split at hTail
          case isTrue => cases hTail
          case isFalse =>
            exact
              Nat.le_of_eq
                (findGapCells_count hFirst.empty
                  Nat.zero_lt_one hTail)
      · have hFull :=
          hFirst.full _ hCell (hAlign.dvd (lower - 1) k)
        simp only [findGapCells, if_true, hFull, hNonzero,
          if_false, Bool.false_eq_true, List.mem_cons] at hMem
        rcases hMem with hHead | hTail
        · omega
        · exact @ih (lower + 1) (by omega) hTail

/- Without an empty cell nothing is counted. -/
theorem findGapLoop_full
    {n width k left lower : Nat}
    (hWidth : 0 < width)
    (hFull : ∀ v < n, isEmpty (alignUp v (2 ^ k)) = false)
    (hLower : lower - 1 < n)
    (hLeft : lower + left ≤ n + 1) :
    (findGapLoop alignUp isEmpty width (2 ^ k) left lower
        (lower - 1) 0).2 = 0 ∧
      ∀ d ∈ findGapCells alignUp isEmpty width (2 ^ k) left
          lower (lower - 1) 0,
        ∃ v < n, d = alignUp v (2 ^ k) := by
  induction left generalizing lower with
  | zero => exact ⟨rfl, fun d hd => absurd hd List.not_mem_nil⟩
  | succ left ih =>
      have hNonzero : ¬ 0 = width := by omega
      have hHere := hFull _ hLower
      simp only [findGapLoop, findGapCells, if_true, hHere,
        hNonzero, if_false, Bool.false_eq_true, List.mem_cons]
      cases left with
      | zero =>
          refine ⟨rfl, ?_⟩
          rintro d (rfl | hTail)
          · exact ⟨_, hLower, rfl⟩
          · cases hTail
      | succ left =>
          have hRest := @ih (lower + 1) (by omega) (by omega)
          rw [Nat.add_sub_cancel] at hRest
          refine ⟨hRest.1, ?_⟩
          rintro d (rfl | hTail)
          · exact ⟨_, hLower, rfl⟩
          · exact hRest.2 d hTail

/- A scan that finds nothing looks at the alignment of its end. -/
theorem exists_findGapCells_ge
    {n width k left lower : Nat}
    (hAlign : AlignsUp alignUp)
    (hWidth : 0 < width)
    (hFull : ∀ p < n, 2 ^ k ∣ p → isEmpty p = false)
    (hEnd : n ≤ alignUp (n - 1) (2 ^ k))
    (hLower : lower ≤ n)
    (hLeft : lower + left = n + 1) :
    ∃ d ∈ findGapCells alignUp isEmpty width (2 ^ k) left
        lower (lower - 1) 0,
      n ≤ d := by
  induction left generalizing lower with
  | zero => omega
  | succ left ih =>
      have hNonzero : ¬ 0 = width := by omega
      by_cases hPast : n ≤ alignUp (lower - 1) (2 ^ k)
      · refine ⟨_, ?_, hPast⟩
        simp only [findGapCells, if_true]
        exact List.mem_cons_self
      · have hHere :=
          hFull _ (Nat.not_le.mp hPast)
            (hAlign.dvd (lower - 1) k)
        have hLess : lower ≠ n := by
          rintro rfl
          exact hPast hEnd
        rcases @ih (lower + 1) (by omega) (by omega) with
          ⟨d, hd, hLe⟩
        refine ⟨d, ?_, hLe⟩
        simp only [findGapCells, if_true, hHere, hNonzero,
          if_false, Bool.false_eq_true]
        exact List.mem_cons_of_mem _ hd

section

variable {n width k p : Nat}

theorem findGap_of_firstEmpty
    (hAlign : AlignsUp alignUp)
    (hWidth : 0 < width)
    (hFirst : FirstEmpty isEmpty (2 ^ k) p)
    (hLt : p < n) :
    findGap alignUp isEmpty n width (2 ^ k) =
      if n + 1 < firstCount (2 ^ k) p + width then n else p := by
  have hCount := firstCount_le hFirst.dvd
  have hLoop :=
    @findGapLoop_found _ _ width k (n + 1) 0 p hAlign hWidth
      hFirst (Nat.zero_le _) (by omega)
  rw [Nat.zero_sub] at hLoop
  simp only [findGap, hLoop]
  by_cases hShort : n + 1 < firstCount (2 ^ k) p + width
  · rw [if_neg (by omega), if_pos hShort]
  · rw [if_pos (by omega), if_neg hShort]

/- A window starts at an empty aligned cell. -/
theorem EmptyWindow.le_of_firstEmpty
    {c : Nat}
    (hWindow : EmptyWindow isEmpty n width (2 ^ k) c)
    (hWidth : 0 < width)
    (hFirst : FirstEmpty isEmpty (2 ^ k) p) :
    p ≤ c := by
  by_contra hNot
  have hFull := hFirst.full c (Nat.not_le.mp hNot) hWindow.dvd
  have hEmpty := hWindow.empty 0 hWidth
  rw [Nat.add_zero, hFull] at hEmpty
  cases hEmpty

theorem finds_of_counts
    (hAlign : AlignsUp alignUp)
    (hWidth : 0 < width)
    (hFirst : FirstEmpty isEmpty (2 ^ k) p)
    (hLt : p < n)
    (hCounts : CountsWindow isEmpty n width (2 ^ k) p) :
    FindsFirstWindow alignUp isEmpty n width (2 ^ k) := by
  have hCount := firstCount_le hFirst.dvd
  have hGap := findGap_of_firstEmpty hAlign hWidth hFirst hLt
  have hInside :
      ∀ c ∈ findGapLooksAt alignUp isEmpty n width (2 ^ k),
        c < n := by
    intro c hc
    have hLe :=
      @findGapCells_found _ _ width k (n + 1) 0 p c hAlign
        hWidth hFirst (Nat.zero_le _) hc
    omega
  rcases hCounts with hWindow | hShort
  · have hLong := hWindow.inside
    rw [if_neg (by omega)] at hGap
    refine ⟨?_, ?_, hInside⟩
    · rw [hGap]
      constructor
      · intro hEq
        omega
      · intro hNone
        exact absurd ⟨p, hWindow⟩ hNone
    · intro _
      rw [hGap]
      exact
        ⟨hWindow, fun c hc => hc.le_of_firstEmpty hWidth hFirst⟩
  · rw [if_pos hShort] at hGap
    refine ⟨?_, ?_, hInside⟩
    · rw [hGap]
      refine ⟨fun _ => ?_, fun _ => rfl⟩
      rintro ⟨c, hc⟩
      have hLe := hc.le_of_firstEmpty hWidth hFirst
      have hIn := hc.inside
      omega
    · intro hNe
      exact absurd hGap hNe

theorem finds_of_full
    (hAlign : AlignsUp alignUp)
    (hWidth : 0 < width)
    (hFull : ∀ p < n, 2 ^ k ∣ p → isEmpty p = false)
    (hPos : 0 < n)
    (hDvd : 2 ^ k ∣ n - 1) :
    FindsFirstWindow alignUp isEmpty n width (2 ^ k) := by
  have hBelow : ∀ v < n, alignUp v (2 ^ k) < n := by
    intro v hv
    have hLe : alignUp v (2 ^ k) ≤ n - 1 :=
      hAlign.le_of_dvd hDvd (by omega)
    omega
  have hLoop :=
    @findGapLoop_full alignUp isEmpty n width k (n + 1) 0
      hWidth
      (fun v hv => hFull _ (hBelow v hv) (hAlign.dvd v k))
      hPos (Nat.le_of_eq (Nat.zero_add _))
  have hGap : findGap alignUp isEmpty n width (2 ^ k) = n := by
    rw [findGap]
    simp only [Nat.zero_sub] at hLoop
    simp only [hLoop.1]
    exact if_neg (by omega)
  refine ⟨?_, fun hNe => absurd hGap hNe, ?_⟩
  · refine ⟨fun _ => ?_, fun _ => hGap⟩
    rintro ⟨c, hc⟩
    have hIn := hc.inside
    have hEmpty := hc.empty 0 hWidth
    rw [Nat.add_zero, hFull c (by omega) hc.dvd] at hEmpty
    cases hEmpty
  · intro c hc
    rcases hLoop.2 c hc with ⟨v, hv, rfl⟩
    exact hBelow v hv

/-
  `findGap` finds the first window exactly where the first
  empty aligned cell decides.
-/
theorem findsFirstWindow_iff
    (hAlign : AlignsUp alignUp)
    (hWidth : 0 < width) :
    FindsFirstWindow alignUp isEmpty n width (2 ^ k) ↔
      ScanSuffices isEmpty n width (2 ^ k) := by
  constructor
  · intro hFinds
    by_cases hSome :
        ∃ p, p < n ∧ 2 ^ k ∣ p ∧ isEmpty p = true
    · -- the least such cell is the one that is counted
      have hLeast := Nat.find_spec hSome
      have hFirst :
          FirstEmpty isEmpty (2 ^ k) (Nat.find hSome) := by
        refine ⟨hLeast.2.2, hLeast.2.1, ?_⟩
        intro d hd hDvd
        have hNot := Nat.find_min hSome hd
        rw [← Bool.not_eq_true]
        exact fun hEmpty =>
          hNot ⟨hd.trans hLeast.1, hDvd, hEmpty⟩
      refine .inl ⟨_, hLeast.1, hFirst, ?_⟩
      have hGap :=
        findGap_of_firstEmpty hAlign hWidth hFirst hLeast.1
      by_cases hShort :
          n + 1 <
            firstCount (2 ^ k) (Nat.find hSome) + width
      · exact .inr hShort
      · rw [if_neg hShort] at hGap
        have hWindow :=
          (hFinds.first
            (by rw [hGap]; exact Nat.ne_of_lt hLeast.1)).1
        rw [hGap] at hWindow
        exact .inl hWindow
    · have hFull :
          ∀ p < n, 2 ^ k ∣ p → isEmpty p = false := by
        intro p hp hDvd
        rw [← Bool.not_eq_true]
        exact fun hEmpty => hSome ⟨p, hp, hDvd, hEmpty⟩
      refine .inr ⟨hFull, ?_⟩
      by_contra hNot
      have hEnd : n ≤ alignUp (n - 1) (2 ^ k) := by
        have hLe := hAlign.le (n - 1) k
        by_cases hZero : n = 0
        · omega
        · have hNe : alignUp (n - 1) (2 ^ k) ≠ n - 1 := by
            intro hEq
            have hDvd := hAlign.dvd (n - 1) k
            rw [hEq] at hDvd
            exact hNot ⟨by omega, hDvd⟩
          omega
      rcases
        @exists_findGapCells_ge _ _ n width k (n + 1) 0 hAlign
          hWidth hFull hEnd (Nat.zero_le _)
          (Nat.zero_add _) with
        ⟨d, hd, hLe⟩
      have hLt := hFinds.inside d hd
      omega
  · rintro (⟨p, hLt, hFirst, hCounts⟩ | ⟨hFull, hPos, hDvd⟩)
    · exact finds_of_counts hAlign hWidth hFirst hLt hCounts
    · exact finds_of_full hAlign hWidth hFull hPos hDvd

end

/- What the library function does to a value. -/
def alignUpNat (value alignment : Nat) : Nat :=
  (value + (alignment - 1)) / alignment * alignment

theorem alignsUp_alignUpNat : AlignsUp alignUpNat := by
  have hBounds :
      ∀ value k,
        value ≤ alignUpNat value (2 ^ k) ∧
          alignUpNat value (2 ^ k) < value + 2 ^ k := by
    intro value k
    have hPos : 0 < 2 ^ k := Nat.two_pow_pos k
    have hSplit :=
      Nat.div_add_mod' (value + (2 ^ k - 1)) (2 ^ k)
    have hMod := Nat.mod_lt (value + (2 ^ k - 1)) hPos
    rw [alignUpNat]
    omega
  exact
    ⟨fun value k => Nat.dvd_mul_left _ _,
      fun value k => (hBounds value k).1,
      fun value k => (hBounds value k).2⟩

theorem findsFirstWindow_iff_pair :
    FindsFirstWindow alignUpNat (fun c => decide (c < 2)) 2 2
        (2 ^ 0) ↔
      ScanSuffices (fun c => decide (c < 2)) 2 2 (2 ^ 0) :=
  findsFirstWindow_iff alignsUp_alignUpNat (by decide)

/- The second cell is full, and the first is counted twice. -/
theorem findGap_ignores_cells :
    ¬ FindsFirstWindow alignUpNat (fun c => decide (c = 0)) 2 2
        (2 ^ 0) := by
  intro hFinds
  have hGap :
      findGap alignUpNat (fun c => decide (c = 0)) 2 2 (2 ^ 0) =
        0 := by
    decide
  have hWindow := (hFinds.first (by rw [hGap]; decide)).1
  rw [hGap] at hWindow
  have hEmpty := hWindow.empty 1 (by decide)
  cases hEmpty

end Ps3emu
