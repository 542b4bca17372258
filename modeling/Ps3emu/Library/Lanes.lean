import Mathlib.Data.BitVec

/-
  Bit vectors as rows of lanes of one width, numbered from
  the low end or from the high end.

  Key definitions include:
    * `lane`, `laneBE`
    * `pack`
    * `zipLanes`, `mapLanes`

  Key theorems include:
    * `lane_pack`
    * `eq_of_lane`
    * `lane_lane`
    * `lane_ushiftRight`, `lane_shiftLeft`
-/

------------------------------------------------------------
-- Reading Lanes
------------------------------------------------------------

namespace Ps3emu

namespace Lanes

variable {n : Nat}

/- Lane `i` of width `w`, counted from the low end. -/
def lane
    (w : Nat)
    (x : BitVec n)
    (i : Nat) : BitVec w :=
  x.extractLsb' (w * i) w

/- Lane `i` of `k` lanes, counted from the high end. -/
def laneBE
    (w k : Nat)
    (x : BitVec n)
    (i : Nat) : BitVec w :=
  lane w x (k - 1 - i)

theorem getLsbD_lane
    (w : Nat)
    (x : BitVec n)
    (i j : Nat) :
    (lane w x i).getLsbD j =
      (decide (j < w) && x.getLsbD (w * i + j)) := by
  simp [lane]

/- A vector is determined by its lanes. -/
theorem eq_of_lane
    {w k : Nat}
    {x y : BitVec (w * k)}
    (hLanes : ∀ i < k, lane w x i = lane w y i) :
    x = y := by
  apply BitVec.eq_of_getLsbD_eq
  intro j hJ
  have hW : 0 < w := by
    apply Nat.pos_of_ne_zero
    rintro rfl
    simp at hJ
  have hBit :=
    congrArg (fun v => v.getLsbD (j % w))
      (hLanes (j / w) (Nat.div_lt_of_lt_mul hJ))
  simpa only [getLsbD_lane, Nat.mod_lt j hW,
    Nat.div_add_mod, decide_true, Bool.true_and] using hBit

/- The same, for a vector of a given width. -/
theorem eq_of_laneBE
    {w k : Nat}
    (hFull : w * k = n)
    {x y : BitVec n}
    (hLanes : ∀ i < k, laneBE w k x i = laneBE w k y i) :
    x = y := by
  subst hFull
  apply eq_of_lane
  intro i hI
  have hLane := hLanes (k - 1 - i) (by omega)
  have hIndex : k - 1 - (k - 1 - i) = i := by omega
  rwa [laneBE, laneBE, hIndex] at hLane

/- A lane of a lane is a smaller lane. -/
theorem lane_lane
    (v m : Nat)
    (x : BitVec n)
    {i j : Nat}
    (hJ : j < m) :
    lane v (lane (v * m) x i) j = lane v x (m * i + j) := by
  apply BitVec.eq_of_getLsbD_eq
  intro t hT
  have hIn : v * j + t < v * m := by
    have hLe : v * (j + 1) ≤ v * m :=
      Nat.mul_le_mul_left v hJ
    rw [Nat.mul_succ] at hLe
    omega
  have hPos : v * m * i + (v * j + t) = v * (m * i + j) + t := by
    rw [Nat.mul_add, Nat.mul_assoc, Nat.add_assoc]
  rw [getLsbD_lane, getLsbD_lane, getLsbD_lane, hPos]
  simp [hT, hIn]

/- Lanes of one width from the lanes inside them. -/
theorem lane_eq_of_sublanes
    {v m n' : Nat}
    {x : BitVec n}
    {y : BitVec n'}
    {i j : Nat}
    (hLanes :
      ∀ e < m,
        lane v x (m * i + e) = lane v y (m * j + e)) :
    lane (v * m) x i = lane (v * m) y j := by
  apply eq_of_lane
  intro e hE
  rw [lane_lane v m x hE, lane_lane v m y hE]
  exact hLanes e hE

------------------------------------------------------------
-- Building Vectors
------------------------------------------------------------

/- The vector with the lanes `f 0` to `f (k - 1)`. -/
def pack (w : Nat) :
    (k : Nat) → (Nat → BitVec w) → BitVec (w * k)
  | 0, _ => 0#0
  | k + 1, f =>
      (f k ++ pack w k f).cast (Nat.add_comm w (w * k))

theorem getLsbD_pack
    (w k : Nat)
    (f : Nat → BitVec w)
    {i j : Nat}
    (hI : i < k)
    (hJ : j < w) :
    (pack w k f).getLsbD (w * i + j) = (f i).getLsbD j := by
  induction k with
  | zero => omega
  | succ k ih =>
      rw [pack, BitVec.getLsbD_cast, BitVec.getLsbD_append]
      by_cases hLast : i = k
      · subst hLast
        have hNot : ¬ w * i + j < w * i := by omega
        have hSub : w * i + j - w * i = j := by omega
        simp [hNot, hSub]
      · have hBefore : i < k := by omega
        have hLt : w * i + j < w * k := by
          have hLe : w * (i + 1) ≤ w * k :=
            Nat.mul_le_mul_left w hBefore
          rw [Nat.mul_succ] at hLe
          omega
        rw [if_pos hLt, ih hBefore]

variable {i : Nat}

theorem lane_pack
    (w k : Nat)
    (f : Nat → BitVec w)
    (hI : i < k) :
    lane w (pack w k f) i = f i := by
  apply BitVec.eq_of_getLsbD_eq
  intro j hJ
  rw [getLsbD_lane, getLsbD_pack w k f hI hJ]
  simp [hJ]

theorem laneBE_pack
    (w k : Nat)
    (f : Nat → BitVec w)
    (hI : i < k) :
    laneBE w k (pack w k f) i = f (k - 1 - i) :=
  lane_pack w k f (by omega)

/- An operation on the lanes of one vector. -/
def mapLanes
    (w k : Nat)
    (op : BitVec w → BitVec w)
    (x : BitVec n) : BitVec (w * k) :=
  pack w k (fun i => op (lane w x i))

/- An operation on the lanes of two vectors. -/
def zipLanes
    (w k : Nat)
    (op : BitVec w → BitVec w → BitVec w)
    (x y : BitVec n) : BitVec (w * k) :=
  pack w k (fun i => op (lane w x i) (lane w y i))

theorem lane_mapLanes
    (w k : Nat)
    (op : BitVec w → BitVec w)
    (x : BitVec n)
    (hI : i < k) :
    lane w (mapLanes w k op x) i = op (lane w x i) :=
  lane_pack w k _ hI

theorem lane_zipLanes
    (w k : Nat)
    (op : BitVec w → BitVec w → BitVec w)
    (x y : BitVec n)
    (hI : i < k) :
    lane w (zipLanes w k op x y) i =
      op (lane w x i) (lane w y i) :=
  lane_pack w k _ hI

theorem laneBE_mapLanes
    (w k : Nat)
    (op : BitVec w → BitVec w)
    (x : BitVec n)
    (hI : i < k) :
    laneBE w k (mapLanes w k op x) i = op (laneBE w k x i) :=
  laneBE_pack w k _ hI

theorem laneBE_zipLanes
    (w k : Nat)
    (op : BitVec w → BitVec w → BitVec w)
    (x y : BitVec n)
    (hI : i < k) :
    laneBE w k (zipLanes w k op x y) i =
      op (laneBE w k x i) (laneBE w k y i) :=
  laneBE_pack w k _ hI

------------------------------------------------------------
-- Shifts and Concatenations
------------------------------------------------------------

@[simp] theorem lane_and
    (w : Nat)
    (x y : BitVec n)
    (i : Nat) :
    lane w (x &&& y) i = lane w x i &&& lane w y i := by
  apply BitVec.eq_of_getLsbD_eq
  intro j hJ
  rw [getLsbD_lane, BitVec.getLsbD_and, BitVec.getLsbD_and,
    getLsbD_lane, getLsbD_lane]
  simp [hJ]

@[simp] theorem lane_or
    (w : Nat)
    (x y : BitVec n)
    (i : Nat) :
    lane w (x ||| y) i = lane w x i ||| lane w y i := by
  apply BitVec.eq_of_getLsbD_eq
  intro j hJ
  rw [getLsbD_lane, BitVec.getLsbD_or, BitVec.getLsbD_or,
    getLsbD_lane, getLsbD_lane]
  simp [hJ]

@[simp] theorem lane_xor
    (w : Nat)
    (x y : BitVec n)
    (i : Nat) :
    lane w (x ^^^ y) i = lane w x i ^^^ lane w y i := by
  apply BitVec.eq_of_getLsbD_eq
  intro j hJ
  rw [getLsbD_lane, BitVec.getLsbD_xor, BitVec.getLsbD_xor,
    getLsbD_lane, getLsbD_lane]
  simp [hJ]

@[simp] theorem lane_zero
    (w i : Nat) :
    lane w (0#n) i = 0#w := by
  apply BitVec.eq_of_getLsbD_eq
  intro j hJ
  simp [getLsbD_lane]

/- Every lane of a complement inside the vector. -/
theorem lane_not
    (w : Nat)
    (x : BitVec n)
    (hI : w * (i + 1) ≤ n) :
    lane w (~~~x) i = ~~~(lane w x i) := by
  apply BitVec.eq_of_getLsbD_eq
  intro j hJ
  rw [Nat.mul_succ] at hI
  have hIn : w * i + j < n := by omega
  rw [getLsbD_lane, BitVec.getLsbD_not, BitVec.getLsbD_not,
    getLsbD_lane]
  simp [hJ, hIn]

/- A shift by whole lanes to the low end. -/
theorem lane_ushiftRight
    (w k : Nat)
    (x : BitVec n)
    (i : Nat) :
    lane w (x >>> (w * k)) i = lane w x (i + k) := by
  apply BitVec.eq_of_getLsbD_eq
  intro j hJ
  have hPos : w * k + (w * i + j) = w * (i + k) + j := by
    rw [Nat.mul_add]
    omega
  rw [getLsbD_lane, BitVec.getLsbD_ushiftRight, hPos,
    getLsbD_lane]

/- A shift by whole lanes to the high end. -/
theorem lane_shiftLeft
    (w k : Nat)
    (x : BitVec n)
    {i : Nat}
    (hI : w * (i + 1) ≤ n) :
    lane w (x <<< (w * k)) i =
      if i < k then 0#w else lane w x (i - k) := by
  apply BitVec.eq_of_getLsbD_eq
  intro j hJ
  rw [Nat.mul_succ] at hI
  have hIn : w * i + j < n := by omega
  rw [getLsbD_lane, BitVec.getLsbD_shiftLeft]
  split
  case isTrue hBelow =>
    have hLe : w * (i + 1) ≤ w * k :=
      Nat.mul_le_mul_left w hBelow
    rw [Nat.mul_succ] at hLe
    have hLt : w * i + j < w * k := by omega
    simp [hLt]
  case isFalse hAbove =>
    have hLe : w * k ≤ w * i :=
      Nat.mul_le_mul_left w (Nat.le_of_not_lt hAbove)
    have hNot : ¬ w * i + j < w * k := by omega
    have hPos : w * i + j - w * k = w * (i - k) + j := by
      rw [Nat.mul_sub]
      omega
    rw [getLsbD_lane, hPos]
    simp [hJ, hIn, hNot]

theorem lane_append_zero
    {m w : Nat}
    (x : BitVec m)
    (y : BitVec w) :
    lane w (x ++ y) 0 = y := by
  apply BitVec.eq_of_getLsbD_eq
  intro j hJ
  rw [getLsbD_lane, Nat.mul_zero, Nat.zero_add,
    BitVec.getLsbD_append]
  simp only [hJ, decide_true, Bool.true_and, if_true]

theorem lane_append_one
    {w : Nat}
    (x y : BitVec w) :
    lane w (x ++ y) 1 = x := by
  apply BitVec.eq_of_getLsbD_eq
  intro j hJ
  have hNot : ¬ w + j < w := by omega
  rw [getLsbD_lane, Nat.mul_one, BitVec.getLsbD_append]
  simp only [hJ, hNot, Nat.add_sub_cancel_left, decide_true,
    Bool.true_and, if_false]

/- A zero extension has one lane. -/
theorem lane_setWidth
    {w : Nat}
    (x : BitVec w)
    (hWider : w ≤ n)
    (i : Nat) :
    lane w (x.setWidth n) i = if i = 0 then x else 0#w := by
  apply BitVec.eq_of_getLsbD_eq
  intro j hJ
  rw [getLsbD_lane, BitVec.getLsbD_setWidth]
  split
  case isTrue hZero =>
    simp only [hZero, Nat.mul_zero, Nat.zero_add, hJ,
      Nat.lt_of_lt_of_le hJ hWider, decide_true,
      Bool.true_and]
  case isFalse hAbove =>
    have hLe : w * 1 ≤ w * i :=
      Nat.mul_le_mul_left w (Nat.pos_of_ne_zero hAbove)
    rw [BitVec.getLsbD_of_ge x _ (by omega)]
    simp

end Lanes

end Ps3emu
