import Ps3emu.Library.Lanes

/-
  The vector intrinsics of x86 on integers, by what they do
  to the lanes of their operands.

  Key definitions include:
    * `M128`, `M256`
    * `shuffleEpi8`, `shuffle256Epi8`, `blendvEpi8`
    * `saturate`, `addsEpi16`, `packusEpi16`
    * `Moves`, `Clears`

  Key theorems include:
    * `lane_shuffleEpi8`
    * `lane_shuffle_of_moves`, `lane_shuffle_of_clears`
    * `lane_pdep64`
-/

------------------------------------------------------------
-- Registers and Shuffles
------------------------------------------------------------

namespace Ps3emu

namespace Sse

open Lanes

abbrev M128 := BitVec 128

abbrev M256 := BitVec 256

/- `_mm_set1_epi8`, `_mm_set1_epi16`, `_mm_set1_epi32`. -/
def set1
    (w k : Nat)
    (v : BitVec w) : BitVec (w * k) :=
  pack w k (fun _ => v)

/- The highest byte comes first. -/
def setEpi8 (bytes : List (BitVec 8)) : M128 :=
  pack 8 16 (fun i => bytes.getD (15 - i) 0)

def set256Epi8 (bytes : List (BitVec 8)) : M256 :=
  pack 8 32 (fun i => bytes.getD (31 - i) 0)

def setEpi64x (hi lo : BitVec 64) : M128 :=
  hi ++ lo

variable {i : Nat}

theorem laneBE_set1
    (w k : Nat)
    (v : BitVec w)
    (hI : i < k) :
    laneBE w k (set1 w k v) i = v :=
  laneBE_pack w k _ hI

theorem lane_set1
    (w k : Nat)
    (v : BitVec w)
    (hI : i < k) :
    lane w (set1 w k v) i = v :=
  lane_pack w k _ hI

/- A control byte clears, or selects by its low four bits. -/
def shuffleEpi8 (a control : M128) : M128 :=
  pack 8 16 (fun i =>
    let c := lane 8 control i
    if c.msb then 0#8 else lane 8 a (c &&& 15#8).toNat)

/- Each half is shuffled by itself. -/
def shuffle256Epi8 (a control : M256) : M256 :=
  pack 8 32 (fun i =>
    let c := lane 8 control i
    if c.msb then 0#8
    else lane 8 a (16 * (i / 16) + (c &&& 15#8).toNat))

def blendvEpi8 (a b control : M128) : M128 :=
  pack 8 16 (fun i =>
    if (lane 8 control i).msb then lane 8 b i
    else lane 8 a i)

theorem lane_shuffleEpi8
    (a control : M128)
    (hI : i < 16) :
    lane 8 (shuffleEpi8 a control) i =
      if (lane 8 control i).msb then 0#8
      else lane 8 a (lane 8 control i &&& 15#8).toNat :=
  lane_pack 8 16 _ hI

theorem lane_shuffle256Epi8
    (a control : M256)
    (hI : i < 32) :
    lane 8 (shuffle256Epi8 a control) i =
      if (lane 8 control i).msb then 0#8
      else
        lane 8 a
          (16 * (i / 16) +
            (lane 8 control i &&& 15#8).toNat) :=
  lane_pack 8 32 _ hI

/- Bytes that were given highest first. -/
theorem lane_set256Epi8
    (bytes : List (BitVec 8))
    (hI : i < 32) :
    lane 8 (set256Epi8 bytes) i = bytes.getD (31 - i) 0 :=
  lane_pack 8 32 (fun i => bytes.getD (31 - i) 0) hI

theorem lane_blendvEpi8
    (a b control : M128)
    (hI : i < 16) :
    lane 8 (blendvEpi8 a b control) i =
      if (lane 8 control i).msb then lane 8 b i
      else lane 8 a i :=
  lane_pack 8 16 _ hI

/- Lane `i` of `k` bytes is taken from lane `j`. -/
def Moves
    (k : Nat)
    (control : M128)
    (i j : Nat) : Prop :=
  ∀ e < k,
    lane 8 control (k * i + e) = BitVec.ofNat 8 (k * j + e)

instance (k : Nat) (control : M128) (i j : Nat) :
    Decidable (Moves k control i j) := by
  unfold Moves
  infer_instance

/- Lane `i` of `k` bytes is cleared. -/
def Clears
    (k : Nat)
    (control : M128)
    (i : Nat) : Prop :=
  ∀ e < k, lane 8 control (k * i + e) = 255#8

instance (k : Nat) (control : M128) (i : Nat) :
    Decidable (Clears k control i) := by
  unfold Clears
  infer_instance

variable {j : Nat}

/- A control byte below 16 selects the byte of its number. -/
theorem select_ofNat
    (hJ : j < 16) :
    (BitVec.ofNat 8 j).msb = false ∧
      (BitVec.ofNat 8 j &&& 15#8).toNat = j := by
  revert hJ
  revert j
  decide

theorem lane_shuffle_of_moves
    {k : Nat}
    {a control : M128}
    (hMoves : Moves k control i j)
    (hI : k * (i + 1) ≤ 16)
    (hJ : k * (j + 1) ≤ 16) :
    lane (8 * k) (shuffleEpi8 a control) i =
      lane (8 * k) a j := by
  rw [Nat.mul_succ] at hI hJ
  apply lane_eq_of_sublanes
  intro e hE
  have hSelect := @select_ofNat (k * j + e) (by omega)
  rw [lane_shuffleEpi8 a control (by omega), hMoves e hE,
    hSelect.1, hSelect.2]
  rfl

theorem lane_shuffle_of_clears
    {k : Nat}
    {a control : M128}
    (hClears : Clears k control i)
    (hI : k * (i + 1) ≤ 16) :
    lane (8 * k) (shuffleEpi8 a control) i = 0#(8 * k) := by
  rw [Nat.mul_succ] at hI
  apply eq_of_lane
  intro e hE
  rw [lane_lane 8 k _ hE,
    lane_shuffleEpi8 a control (by omega), hClears e hE,
    lane_zero]
  rfl

------------------------------------------------------------
-- Arithmetic, Comparisons and Shifts
------------------------------------------------------------

/- `_mm_add_epi8`, `_mm_add_epi16`, `_mm_add_epi32`. -/
def add (w k : Nat) : M128 → M128 → BitVec (w * k) :=
  zipLanes w k (fun a b => a + b)

def sub (w k : Nat) : M128 → M128 → BitVec (w * k) :=
  zipLanes w k (fun a b => a - b)

theorem lane_sub
    (w k : Nat)
    (x y : M128)
    (hI : i < k) :
    lane w (sub w k x y) i = lane w x i - lane w y i :=
  lane_zipLanes w k _ x y hI

/- The low half of a product. -/
def mullo (w k : Nat) : M128 → M128 → BitVec (w * k) :=
  zipLanes w k (fun a b => a * b)

/- The high half of a signed product. -/
def mulhiEpi16 : M128 → M128 → M128 :=
  zipLanes 16 8 (fun a b =>
    (a.signExtend 32 * b.signExtend 32).extractLsb' 16 16)

/- The nearest number between two bounds. -/
def saturate (lo hi v : Int) : Int :=
  max lo (min hi v)

def addsEpi16 : M128 → M128 → M128 :=
  zipLanes 16 8 (fun a b =>
    BitVec.ofInt 16
      (saturate (-32768) 32767 (a.toInt + b.toInt)))

def subsEpi16 : M128 → M128 → M128 :=
  zipLanes 16 8 (fun a b =>
    BitVec.ofInt 16
      (saturate (-32768) 32767 (a.toInt - b.toInt)))

def minEpu8 : M128 → M128 → M128 :=
  zipLanes 8 16 (fun a b => if a.ult b then a else b)

def maxEpu8 : M128 → M128 → M128 :=
  zipLanes 8 16 (fun a b => if b.ult a then a else b)

def minEpi32 : M128 → M128 → M128 :=
  zipLanes 32 4 (fun a b => if a.slt b then a else b)

def maxEpi32 : M128 → M128 → M128 :=
  zipLanes 32 4 (fun a b => if b.slt a then a else b)

def cmpeq (w k : Nat) : M128 → M128 → BitVec (w * k) :=
  zipLanes w k (fun a b =>
    if a = b then BitVec.allOnes w else 0#w)

/- The operands are signed. -/
def cmpgt (w k : Nat) : M128 → M128 → BitVec (w * k) :=
  zipLanes w k (fun a b =>
    if b.slt a then BitVec.allOnes w else 0#w)

theorem lane_cmpgt
    (w k : Nat)
    (x y : M128)
    (hI : i < k) :
    lane w (cmpgt w k x y) i =
      if (lane w y i).slt (lane w x i) then BitVec.allOnes w
      else 0#w :=
  lane_zipLanes w k _ x y hI

def testAllOnes (a : M128) : Bool :=
  a == BitVec.allOnes 128

def andnot (a b : M128) : M128 :=
  ~~~a &&& b

/- Each lane is shifted by the same lane of the counts. -/
def sllv (w k : Nat) {n : Nat} :
    BitVec n → BitVec n → BitVec (w * k) :=
  zipLanes w k (fun a b => a <<< b.toNat)

def srlv (w k : Nat) {n : Nat} :
    BitVec n → BitVec n → BitVec (w * k) :=
  zipLanes w k (fun a b => a >>> b.toNat)

def srav (w k : Nat) {n : Nat} :
    BitVec n → BitVec n → BitVec (w * k) :=
  zipLanes w k (fun a b => a.sshiftRight b.toNat)

def slli (w k count : Nat) : M128 → BitVec (w * k) :=
  mapLanes w k (fun a => a <<< count)

def srli (w k count : Nat) : M128 → BitVec (w * k) :=
  mapLanes w k (fun a => a >>> count)

/- The count is in the low half of a register. -/
def sll (w k : Nat) (a count : M128) : BitVec (w * k) :=
  mapLanes w k (fun a => a <<< (lane 64 count 0).toNat) a

def srai (w k count : Nat) : M128 → BitVec (w * k) :=
  mapLanes w k (fun a => a.sshiftRight count)

/- Shifts of the whole register by bytes. -/
def bslli (a : M128) (count : Nat) : M128 :=
  a <<< (8 * count)

def bsrli (a : M128) (count : Nat) : M128 :=
  a >>> (8 * count)

------------------------------------------------------------
-- Conversions
------------------------------------------------------------

/- The `k` low lanes of width `w`, widened to `v` bits. -/
def cvtepu (w v k : Nat) (a : M128) : BitVec (v * k) :=
  pack v k (fun i => (lane w a i).setWidth v)

def cvtepi (w v k : Nat) (a : M128) : BitVec (v * k) :=
  pack v k (fun i => (lane w a i).signExtend v)

/- The lanes of `a` are below those of `b`. -/
def packusEpi16 (a b : M128) : M128 :=
  pack 8 16 (fun i =>
    let v := if i < 8 then lane 16 a i else lane 16 b (i - 8)
    BitVec.ofInt 8 (saturate 0 255 v.toInt))

def extracti128 (a : M256) (i : Nat) : M128 :=
  lane 128 a i

/- The low bits of `src` go to the bits set in `mask`. -/
def pdep64 (src mask : BitVec 64) : BitVec 64 :=
  pack 1 64 (fun j =>
    BitVec.ofBool
      (mask.getLsbD j &&
        src.getLsbD ((List.range j).countP mask.getLsbD)))

theorem getLsbD_pdep64
    (src mask : BitVec 64)
    (hJ : j < 64) :
    (pdep64 src mask).getLsbD j =
      (mask.getLsbD j &&
        src.getLsbD ((List.range j).countP mask.getLsbD)) := by
  have hIndex : 1 * j + 0 = j := by omega
  rw [pdep64, ← hIndex, getLsbD_pack 1 64 _ hJ (by decide),
    hIndex]
  simp

/- The mask has bit `b` of every lane. -/
structure Strided (w b : Nat) (mask : BitVec 64) : Prop where
  bit : ∀ j < 64, mask.getLsbD j = decide (j % w = b)
  count :
    ∀ i < 64 / w,
      (List.range (w * i + b)).countP mask.getLsbD = i

/- Every lane gets one bit. -/
theorem lane_pdep64
    {w b : Nat}
    {mask : BitVec 64}
    (hMask : Strided w b mask)
    (src : BitVec 64)
    (hI : w * (i + 1) ≤ 64)
    (hB : b < w) :
    lane w (pdep64 src mask) i =
      if src.getLsbD i then BitVec.twoPow w b else 0#w := by
  have hW : 0 < w := Nat.lt_of_le_of_lt (Nat.zero_le b) hB
  have hCount := hMask.count i
    ((Nat.le_div_iff_mul_le hW).mpr
      (by rwa [Nat.mul_comm] at hI))
  rw [Nat.mul_succ] at hI
  apply BitVec.eq_of_getLsbD_eq
  intro t hT
  rw [getLsbD_lane, getLsbD_pdep64 src mask (by omega),
    hMask.bit _ (by omega), Nat.mul_add_mod,
    Nat.mod_eq_of_lt hT]
  by_cases hBit : t = b
  · subst hBit
    rw [hCount]
    cases src.getLsbD i <;> simp [hT]
  · cases src.getLsbD i <;> simp [hT, hBit]

theorem lane_setEpi64x
    {w m : Nat}
    (hWidth : w * m = 64)
    (hi lo : BitVec 64)
    (i : Nat) :
    lane w (setEpi64x hi lo) i =
      if i < m then lane w lo i else lane w hi (i - m) := by
  apply BitVec.eq_of_getLsbD_eq
  intro j hJ
  rw [getLsbD_lane, setEpi64x, BitVec.getLsbD_append]
  by_cases hLow : i < m
  · have hLe : w * (i + 1) ≤ w * m :=
      Nat.mul_le_mul_left w hLow
    rw [Nat.mul_succ] at hLe
    rw [if_pos hLow, if_pos (by omega), getLsbD_lane]
  · have hLe : w * m ≤ w * i :=
      Nat.mul_le_mul_left w (Nat.le_of_not_lt hLow)
    have hPos : w * i + j - 64 = w * (i - m) + j := by
      rw [Nat.mul_sub]
      omega
    rw [if_neg hLow, if_neg (by omega), hPos, getLsbD_lane]

end Sse

end Ps3emu
