import Ps3emu.Ppu.BitField

/-
  Access to bits and to fields of bits.  The masks are made by
  shifts of an `int` or an `unsigned`, which have no result
  where they leave that type.

  Key definitions include:
    * `BitField`, `BitField.u`, `BitField.s`, `BitField.set`
    * `bitTest`, `bitSet`
    * `asmBbCall`, `dasmBbCall`
    * `Access.Lawful`, `Access.InRange`

  Key theorems include:
    * `BitField.set_eq`, `BitField.s_eq`
    * `bitSet_wide`
    * `Access.access_lawful_iff`
-/

------------------------------------------------------------
-- Fields
------------------------------------------------------------

namespace Ps3emu

namespace BitFields

open Ppu (mask)

/- `a << n`, which is defined for less than all bits. -/
def shiftInt
    (a : BitVec 32)
    (n : Nat) : Option (BitVec 32) :=
  if n < 32 then some (a <<< n) else none

/- `a - b` on `int`s, which must not overflow. -/
def subInt (a b : BitVec 32) : Option (BitVec 32) :=
  if BitVec.ssubOverflow a b then none else some (a - b)

/- `bextr` has the start and the length in its second operand. -/
def bextr
    (x : BitVec 32)
    (control : Nat) : BitVec 32 :=
  let start := control % 256
  let length := control / 256 % 256
  BitVec.ofNat 32 (x.toNat / 2 ^ start % 2 ^ length)

/- The bits from `pos` up to `next`, from the left. -/
structure BitField where
  pos : Nat
  next : Nat
  pos_lt : pos < next
  next_le : next ≤ 32

namespace BitField

variable (f : BitField)

def width : Nat :=
  f.next - f.pos

def u (v : BitVec 32) : BitVec 32 :=
  bextr v ((f.next - f.pos) <<< 8 ||| (32 - f.next))

def s (v : BitVec 32) : BitVec 32 :=
  let r := f.u v
  if r &&& (1#32 <<< (f.next - f.pos - 1)) ≠ 0#32 then
    (r.setWidth 64 |||
      (BitVec.allOnes 64 <<< (f.next - f.pos))).setWidth 32
  else r

def set (v u : BitVec 32) : Option (BitVec 32) := do
  let one ← shiftInt 1#32 f.width
  let low ← subInt one 1#32
  let field := (u &&& low) <<< (32 - f.width - f.pos)
  return ((v.setWidth 64 &&&
    ~~~(mask 32 f.pos (f.pos + f.width - 1))) |||
      field.setWidth 64).setWidth 32

/- A bit that is in the field, from the right. -/
def Covers (i : Nat) : Prop :=
  32 - f.next ≤ i ∧ i < 32 - f.pos

instance (i : Nat) : Decidable (f.Covers i) :=
  inferInstanceAs (Decidable (_ ∧ _))

theorem width_le : f.width ≤ 32 := by
  have hNext := f.next_le
  unfold width
  omega

theorem getLsbD_u
    (v : BitVec 32)
    (i : Nat) :
    (f.u v).getLsbD i =
      (decide (i < f.width) && v.getLsbD (32 - f.next + i)) := by
  have hPos := f.pos_lt
  have hNext := f.next_le
  have hControl :
      (f.next - f.pos) <<< 8 ||| (32 - f.next) =
        f.width * 256 + (32 - f.next) := by
    rw [← Nat.shiftLeft_add_eq_or_of_lt (by omega),
      Nat.shiftLeft_eq]
    rfl
  have hStart :
      (f.width * 256 + (32 - f.next)) % 256 = 32 - f.next := by
    omega
  have hLength :
      (f.width * 256 + (32 - f.next)) / 256 % 256 =
        f.width := by
    unfold width
    omega
  unfold u bextr
  rw [hControl]
  dsimp only
  rw [hStart, hLength, BitVec.getLsbD_ofNat,
    Nat.testBit_mod_two_pow, Nat.testBit_div_two_pow]
  have hBit :
      v.toNat.testBit (i + (32 - f.next)) =
        v.getLsbD (32 - f.next + i) := by
    rw [Nat.add_comm]
    rfl
  rw [hBit]
  by_cases hI : i < f.width
  · have hLt : i < 32 := by
      unfold width at hI
      omega
    simp [hI, hLt]
  · simp [hI]

/- What is below a power of two that an `int` can hold. -/
theorem low_eq (w : Nat) :
    (shiftInt 1#32 w).bind (fun one => subInt one 1#32) =
      if w < 31 then some (BitVec.ofNat 32 (2 ^ w - 1))
      else none := by
  have hSmall :
      ∀ n < 31,
        BitVec.ssubOverflow (1#32 <<< n) 1#32 = false ∧
          1#32 <<< n - 1#32 = BitVec.ofNat 32 (2 ^ n - 1) := by
    decide
  unfold shiftInt
  by_cases hW : w < 31
  · rcases hSmall w hW with ⟨hOverflow, hEq⟩
    rw [if_pos (by omega), if_pos hW, Option.bind_some, subInt,
      hOverflow, hEq]
    rfl
  · rw [if_neg hW]
    by_cases hLast : w = 31
    · rw [hLast]
      rfl
    · rw [if_neg (by omega)]
      rfl

theorem getLsbD_low
    {w : Nat}
    (hW : w ≤ 32)
    (i : Nat) :
    (BitVec.ofNat 32 (2 ^ w - 1)).getLsbD i =
      decide (i < w) := by
  rw [BitVec.getLsbD_ofNat, Nat.testBit_two_pow_sub_one]
  by_cases hI : i < w
  · simp [hI, Nat.lt_of_lt_of_le hI hW]
  · simp [hI]

theorem getLsbD_mask (i : Nat) :
    (mask 32 f.pos (f.pos + f.width - 1)).getLsbD i =
      decide (f.Covers i) := by
  have hPos := f.pos_lt
  have hNext := f.next_le
  have hLast : f.pos + f.width - 1 = f.next - 1 := by
    unfold width
    omega
  rw [hLast]
  unfold mask
  rw [if_neg (by omega),
    Ppu.getLsbD_maskRange (by omega) (by omega),
    decide_eq_decide]
  unfold Covers
  omega

/- A field of up to 30 bits is put in the place of the old. -/
theorem set_eq
    (hWidth : f.width < 31)
    (v u : BitVec 32) :
    ∃ y, f.set v u = some y ∧
      ∀ i < 32,
        y.getLsbD i =
          if f.Covers i then
            decide (i - (32 - f.next) < f.width) &&
              u.getLsbD (i - (32 - f.next))
          else v.getLsbD i := by
  have hLow := low_eq f.width
  rw [if_pos hWidth] at hLow
  rcases Option.bind_eq_some_iff.mp hLow with
    ⟨one, hOne, hSub⟩
  let field :=
    (u &&& BitVec.ofNat 32 (2 ^ f.width - 1)) <<<
      (32 - f.width - f.pos)
  refine
    ⟨((v.setWidth 64 &&&
        ~~~(mask 32 f.pos (f.pos + f.width - 1))) |||
          field.setWidth 64).setWidth 32, ?_, ?_⟩
  · unfold set
    rw [hOne]
    dsimp only [Option.bind_eq_bind, Option.bind_some]
    rw [hSub]
    rfl
  · intro i hI
    have hPos := f.pos_lt
    have hNext := f.next_le
    have hShift : 32 - f.width - f.pos = 32 - f.next := by
      unfold width
      omega
    simp only [BitVec.getLsbD_setWidth, BitVec.getLsbD_or,
      BitVec.getLsbD_and, BitVec.getLsbD_not,
      BitVec.getLsbD_shiftLeft, getLsbD_mask, hShift,
      getLsbD_low f.width_le, field]
    by_cases hCovers : f.Covers i
    · simp [hCovers, hI, show i < 64 by omega,
        show ¬ i < 32 - f.next from Nat.not_lt.mpr hCovers.1,
        Bool.and_comm]
    · by_cases hRight : i < 32 - f.next
      · simp [hCovers, hI, show i < 64 by omega, hRight]
      · have hLeft : ¬ i - (32 - f.next) < f.width := by
          unfold Covers at hCovers
          unfold width
          omega
        simp [hCovers, hI, show i < 64 by omega, hLeft]

theorem set_eq_none
    (hWidth : ¬ f.width < 31)
    (v u : BitVec 32) :
    f.set v u = none := by
  have hLow := low_eq f.width
  rw [if_neg hWidth] at hLow
  unfold set
  cases hOne : shiftInt 1#32 f.width with
  | none => rfl
  | some one =>
      rw [hOne, Option.bind_some] at hLow
      dsimp only [Option.bind_eq_bind, Option.bind_some]
      rw [hLow]
      rfl

/- The value, with its first bit as the sign. -/
theorem s_eq (v : BitVec 32) :
    f.s v = ((f.u v).setWidth f.width).signExtend 32 := by
  have hPos := f.pos_lt
  have hNext := f.next_le
  have hWidth : f.next - f.pos = f.width := rfl
  have hPlace : f.width - 1 < 32 := by omega
  have hSign :
      f.u v &&& (1#32 <<< (f.next - f.pos - 1)) ≠ 0#32 ↔
        (f.u v).getLsbD (f.width - 1) = true := by
    rw [hWidth, ← BitVec.twoPow_eq, BitVec.and_twoPow]
    cases (f.u v).getLsbD (f.width - 1) with
    | false => simp
    | true =>
        have hNonzero : BitVec.twoPow 32 (f.width - 1) ≠ 0#32 := by
          intro hZero
          have hBit := congrArg (·.getLsbD (f.width - 1)) hZero
          simp [hPlace] at hBit
        simpa using hNonzero
  have hMsb :
      ((f.u v).setWidth f.width).msb =
        (f.u v).getLsbD (f.width - 1) := by
    rw [BitVec.msb_eq_getLsbD_last, BitVec.getLsbD_setWidth]
    simp [show f.width - 1 < f.width by omega]
  unfold s
  apply BitVec.eq_of_getLsbD_eq
  intro i hI
  rw [BitVec.getLsbD_signExtend, hMsb, BitVec.getLsbD_setWidth]
  by_cases hSet : (f.u v).getLsbD (f.width - 1) = true
  · rw [if_pos (hSign.mpr hSet), hSet, hWidth]
    rw [BitVec.getLsbD_setWidth, BitVec.getLsbD_or,
      BitVec.getLsbD_shiftLeft, BitVec.getLsbD_allOnes]
    by_cases hLow : i < f.width
    · simp [hI, hLow, show i < 64 by omega]
    · have hRest : i - f.width < 64 := by omega
      simp only [hI, hLow, hRest, show i < 64 by omega,
        decide_true, decide_false, Bool.not_false, Bool.and_true,
        Bool.or_true, if_false]
  · rw [if_neg (fun hBit => hSet (hSign.mp hBit))]
    by_cases hLow : i < f.width
    · simp [hI, hLow]
    · rw [f.getLsbD_u, decide_eq_false hLow, Bool.false_and]
      simp [hI, hLow, hSet]

end BitField

------------------------------------------------------------
-- Single Bits and Block Calls
------------------------------------------------------------

def bitTest
    (number : BitVec 64)
    (width pos : Nat) : BitVec 8 :=
  let sh := width - pos - 1
  ((number &&& (1#64 <<< sh)) >>> sh).setWidth 8

/- The mask is an `unsigned`, and the value an `int`. -/
def bitSetWide
    (number : BitVec 64)
    (width pos : Nat)
    (val : Bool) : Option (BitVec 64) := do
  let sh := width - pos - 1
  let one ← shiftInt 1#32 sh
  let mask := ~~~one
  let bit ← shiftInt ((BitVec.ofBool val).setWidth 32) sh
  return (number &&& mask.setWidth 64) ||| bit.signExtend 64

/- The types that a container may have. -/
inductive Container where
  | byte
  | half
  | word
  | double
deriving DecidableEq

def Container.width : Container → Nat
  | .byte => 8
  | .half => 16
  | .word => 32
  | .double => 64

def bitSet
    {w : Nat}
    (number : BitVec w)
    (pos : Nat)
    (val : Bool) : Option (BitVec w) :=
  (bitSetWide (number.setWidth 64) w pos val).map
    (·.setWidth w)

/- Only the bit asked for is left, in the last place. -/
theorem bitTest_eq
    {w pos : Nat}
    (hPos : pos < w)
    (hW : w ≤ 64)
    (number : BitVec w) :
    bitTest (number.setWidth 64) w pos =
      (BitVec.ofBool (number.getMsbD pos)).setWidth 8 := by
  have hSh : w - pos - 1 < 64 := by omega
  have hMsb : number.getMsbD pos = number.getLsbD (w - pos - 1) := by
    rw [BitVec.getMsbD_eq_getLsbD, decide_eq_true hPos,
      Bool.true_and]
    congr 1
    omega
  unfold bitTest
  dsimp only
  rw [← BitVec.twoPow_eq, BitVec.and_twoPow,
    BitVec.getLsbD_setWidth, decide_eq_true hSh, Bool.true_and,
    hMsb]
  apply BitVec.eq_of_getLsbD_eq
  intro i hI
  cases number.getLsbD (w - pos - 1) with
  | false => simp
  | true =>
      have hShifted (j : Nat) :
          (BitVec.twoPow 64 (w - pos - 1)).getLsbD
              (w - pos - 1 + j) = decide (j = 0) := by
        rw [BitVec.getLsbD_twoPow, decide_eq_true hSh,
          Bool.true_and, decide_eq_decide]
        omega
      rw [if_pos rfl, BitVec.getLsbD_setWidth,
        BitVec.getLsbD_ushiftRight, hShifted,
        BitVec.getLsbD_setWidth]
      cases i with
      | zero => rfl
      | succ i => simp

/- What is written for a bit of the last 32. -/
theorem getLsbD_bitSetWide
    {width pos sh : Nat}
    (hEq : width - pos - 1 = sh)
    (hSh : sh < 32)
    (number : BitVec 64)
    (val : Bool) :
    ∃ y, bitSetWide number width pos val = some y ∧
      ∀ i < 64,
        y.getLsbD i =
          if i < 32 then
            if i = sh then val else number.getLsbD i
          else val && decide (sh = 31) := by
  refine
    ⟨(number &&& (~~~(1#32 <<< sh)).setWidth 64) |||
      ((BitVec.ofBool val).setWidth 32 <<< sh).signExtend 64,
      ?_, ?_⟩
  · unfold bitSetWide shiftInt
    simp only [hEq, if_pos hSh]
    rfl
  intro i hI
  have hOne (j : Nat) :
      (1#32 <<< sh).getLsbD j = decide (sh = j) := by
    rw [← BitVec.twoPow_eq, BitVec.getLsbD_twoPow,
      decide_eq_true hSh, Bool.true_and]
  have hBit (j : Nat) :
      ((BitVec.ofBool val).setWidth 32 <<< sh).getLsbD j =
        (val && decide (sh = j)) := by
    cases val with
    | false =>
        change (0#32 <<< sh).getLsbD j = _
        simp
    | true => exact hOne j
  rw [BitVec.getLsbD_or, BitVec.getLsbD_and,
    BitVec.getLsbD_setWidth, BitVec.getLsbD_not, hOne,
    BitVec.getLsbD_signExtend, BitVec.msb_eq_getLsbD_last, hBit,
    hBit]
  by_cases hLow : i < 32
  · by_cases hHere : i = sh
    · simp [hSh, hHere, show sh < 64 by omega]
    · simp [hI, hLow, hHere, Ne.symm hHere]
  · simp [hI, hLow]

theorem bitSetWide_eq_none
    {width pos : Nat}
    (hSh : ¬ width - pos - 1 < 32)
    (number : BitVec 64)
    (val : Bool) :
    bitSetWide number width pos val = none := by
  unfold bitSetWide shiftInt
  simp only [if_neg hSh]
  rfl

/- The fields of `BBCallForm`. -/
def opcdField : BitField :=
  ⟨0, 6, by decide, by decide⟩

def segmentField : BitField :=
  ⟨6, 17, by decide, by decide⟩

def labelField : BitField :=
  ⟨17, 32, by decide, by decide⟩

def asmBbCall
    (opcode segment label : BitVec 32) : Option (BitVec 32) :=
  if segment < 1#32 <<< 11 ∧ label < 1#32 <<< 15 then
    (opcdField.set 0#32 opcode).bind (fun v =>
      (segmentField.set v segment).bind (fun v =>
        labelField.set v label))
  else none

def dasmBbCall
    (opcode instr : BitVec 32) :
    Option (BitVec 32 × BitVec 32) :=
  if opcdField.u instr = opcode then
    some (segmentField.u instr, labelField.u instr)
  else none

------------------------------------------------------------
-- Access
------------------------------------------------------------

/- What is accessed, with values that fit. -/
inductive Access where
  | field
      (f : BitField)
      (v u : BitVec 32)
      (fits : u.toNat < 2 ^ f.width)
  | bit
      (c : Container)
      (number : BitVec c.width)
      (pos : Fin c.width)
      (val : Bool)
  | call
      (opcode segment label : BitVec 32)
      (segmentFits : segment.toNat < 2 ^ 11)
      (labelFits : label.toNat < 2 ^ 15)

namespace Access

/- What is written is read, and nothing else is changed. -/
def Lawful : Access → Prop
  | .field f v u _ =>
      ∃ y, f.set v u = some y ∧ f.u y = u ∧
        (f.s y).toInt = (u.setWidth f.width).toInt ∧
        ∀ i < 32, ¬ f.Covers i → y.getLsbD i = v.getLsbD i
  | .bit c number pos val =>
      ∃ y, bitSet number pos val = some y ∧
        ∀ i < c.width,
          bitTest (y.setWidth 64) c.width i =
            if i = pos then (BitVec.ofBool val).setWidth 8
            else bitTest (number.setWidth 64) c.width i
  | .call opcode segment label _ _ =>
      ∃ instr, asmBbCall opcode segment label = some instr ∧
        dasmBbCall opcode instr = some (segment, label)

/-
  Shifts stay within their types: a field leaves out two bits
  of its container, and a bit of a `uint64_t` is in the second
  half, the first of which is what the sign of the value is.
-/
def InRange : Access → Prop
  | .field f _ _ _ => f.width < 31
  | .bit c number pos val =>
      c.width ≤ 32 ∨
        (32 ≤ pos.val ∧
          ∀ i < 32,
            number.getMsbD i = (val && decide (pos.val = 32)))
  | .call opcode _ _ _ _ => opcode.toNat < 2 ^ 6

end Access

/- Reads what has just been written. -/
theorem BitField.u_of_set
    {f : BitField}
    {v u y : BitVec 32}
    (hFits : u.toNat < 2 ^ f.width)
    (hBits :
      ∀ i < 32,
        y.getLsbD i =
          if f.Covers i then
            decide (i - (32 - f.next) < f.width) &&
              u.getLsbD (i - (32 - f.next))
          else v.getLsbD i) :
    f.u y = u := by
  have hPos := f.pos_lt
  have hNext := f.next_le
  apply BitVec.eq_of_getLsbD_eq
  intro i hI
  rw [f.getLsbD_u]
  by_cases hWidth : i < f.width
  · have hCovers : f.Covers (32 - f.next + i) := by
      unfold width at hWidth
      unfold Covers
      omega
    have hLt : 32 - f.next + i < 32 := by
      unfold width at hWidth
      omega
    rw [hBits _ hLt, if_pos hCovers, Nat.add_sub_cancel_left,
      decide_eq_true hWidth, Bool.true_and, Bool.true_and]
  · rw [decide_eq_false hWidth, Bool.false_and]
    exact
      (Nat.testBit_lt_two_pow
        (Nat.lt_of_lt_of_le hFits
          (Nat.pow_le_pow_right (by omega) (by omega)))).symm

/- Does not notice a field that is somewhere else. -/
theorem BitField.u_of_apart
    {f g : BitField}
    {v u y : BitVec 32}
    (hApart : f.next ≤ g.pos ∨ g.next ≤ f.pos)
    (hBits :
      ∀ i < 32,
        y.getLsbD i =
          if g.Covers i then
            decide (i - (32 - g.next) < g.width) &&
              u.getLsbD (i - (32 - g.next))
          else v.getLsbD i) :
    f.u y = f.u v := by
  have hNext := f.next_le
  apply BitVec.eq_of_getLsbD_eq
  intro i hI
  rw [f.getLsbD_u, f.getLsbD_u]
  by_cases hWidth : i < f.width
  · have hPos := f.pos_lt
    have hOther := g.pos_lt
    have hOtherNext := g.next_le
    unfold width at hWidth
    have hOutside : ¬ g.Covers (32 - f.next + i) := by
      unfold Covers
      omega
    rw [hBits _ (by omega), if_neg hOutside]
  · rw [decide_eq_false hWidth, Bool.false_and, Bool.false_and]

theorem BitField.u_lt
    (f : BitField)
    (v : BitVec 32) :
    (f.u v).toNat < 2 ^ f.width := by
  apply Nat.lt_pow_two_of_testBit
  intro i hI
  change (f.u v).getLsbD i = false
  rw [f.getLsbD_u, decide_eq_false (Nat.not_lt.mpr hI),
    Bool.false_and]

theorem field_lawful_iff
    {f : BitField}
    {v u : BitVec 32}
    (hFits : u.toNat < 2 ^ f.width) :
    (Access.field f v u hFits).Lawful ↔ f.width < 31 := by
  constructor
  · rintro ⟨y, hSet, -⟩
    by_contra hWidth
    rw [f.set_eq_none hWidth] at hSet
    cases hSet
  · intro hWidth
    rcases f.set_eq hWidth v u with ⟨y, hSet, hBits⟩
    have hU := BitField.u_of_set hFits hBits
    refine ⟨y, hSet, hU, ?_, ?_⟩
    · rw [f.s_eq, hU,
        BitVec.toInt_signExtend_of_le f.width_le]
    · intro i hI hOutside
      rw [hBits i hI, if_neg hOutside]

theorem getMsbD_eq
    {w i : Nat}
    (hI : i < w)
    (v : BitVec w) :
    v.getMsbD i = v.getLsbD (w - i - 1) := by
  rw [BitVec.getMsbD_eq_getLsbD, decide_eq_true hI,
    Bool.true_and]
  congr 1
  omega

/- A container of up to 32 bits, or the second half of one. -/
theorem bitSet_iff
    {w pos : Nat}
    (hPos : pos < w)
    (hW : w ≤ 32 ∨ w = 64)
    (number : BitVec w)
    (val : Bool) :
    (∃ y, bitSet number pos val = some y ∧
        ∀ i < w,
          y.getMsbD i =
            if i = pos then val else number.getMsbD i) ↔
      w ≤ 32 ∨
        (32 ≤ pos ∧
          ∀ i < 32,
            number.getMsbD i = (val && decide (pos = 32))) := by
  by_cases hSh : w - pos - 1 < 32
  · rcases getLsbD_bitSetWide rfl hSh (number.setWidth 64) val
      with ⟨y, hSet, hBits⟩
    have hNumber (i : Nat) (hI : i < w) :
        (y.setWidth w).getMsbD i =
          if w - i - 1 < 32 then
            if i = pos then val else number.getMsbD i
          else val && decide (w - pos - 1 = 31) := by
      rw [getMsbD_eq hI, getMsbD_eq hI, BitVec.getLsbD_setWidth,
        hBits _ (by omega), BitVec.getLsbD_setWidth,
        decide_eq_true (by omega), Bool.true_and,
        decide_eq_true (by omega), Bool.true_and]
      have hSame : w - i - 1 = w - pos - 1 ↔ i = pos := by omega
      simp only [hSame]
    have hSome : bitSet number pos val = some (y.setWidth w) := by
      rw [bitSet, hSet]
      rfl
    constructor
    · rintro ⟨y', hSet', hAll⟩
      obtain rfl := Option.some.inj (hSome.symm.trans hSet')
      rcases hW with hW | rfl
      · exact .inl hW
      · refine .inr ⟨by omega, ?_⟩
        intro i hI
        have hBit := hAll i (by omega)
        rw [hNumber i (by omega), if_neg (by omega),
          if_neg (by omega)] at hBit
        rw [← hBit]
        congr 1
        rw [decide_eq_decide]
        omega
    · intro hRange
      refine ⟨_, hSome, ?_⟩
      intro i hI
      rw [hNumber i hI]
      by_cases hLow : w - i - 1 < 32
      · rw [if_pos hLow]
      · rw [if_neg hLow, if_neg (by omega)]
        rcases hRange with hW | ⟨-, hHigh⟩
        · omega
        · rw [hHigh i (by omega)]
          congr 1
          rw [decide_eq_decide]
          omega
  · constructor
    · rintro ⟨y, hSet, -⟩
      rw [bitSet, bitSetWide_eq_none hSh] at hSet
      cases hSet
    · intro hRange
      omega

theorem bit_lawful_iff
    (c : Container)
    (number : BitVec c.width)
    (pos : Fin c.width)
    (val : Bool) :
    (Access.bit c number pos val).Lawful ↔
      (Access.bit c number pos val).InRange := by
  have hW : c.width ≤ 32 ∨ c.width = 64 := by
    cases c <;> simp [Container.width]
  have hInj (a b : Bool) :
      (BitVec.ofBool a).setWidth 8 = (BitVec.ofBool b).setWidth 8 ↔
        a = b := by
    revert a b
    decide
  refine Iff.trans ?_ (bitSet_iff pos.isLt hW number val)
  refine exists_congr (fun y => and_congr_right (fun _ => ?_))
  refine forall₂_congr (fun i hI => ?_)
  rw [bitTest_eq hI (by omega), bitTest_eq hI (by omega),
    ← apply_ite (fun b => (BitVec.ofBool b).setWidth 8)]
  exact hInj _ _

/- The three fields fill the word, each in its own place. -/
theorem call_lawful_iff
    {opcode segment label : BitVec 32}
    (hSegment : segment.toNat < 2 ^ 11)
    (hLabel : label.toNat < 2 ^ 15) :
    (Access.call opcode segment label hSegment hLabel).Lawful ↔
      opcode.toNat < 2 ^ 6 := by
  rcases opcdField.set_eq (by decide) 0#32 opcode with
    ⟨v, hOpcd, hV⟩
  rcases segmentField.set_eq (by decide) v segment with
    ⟨v', hSegm, hV'⟩
  rcases labelField.set_eq (by decide) v' label with
    ⟨instr, hLab, hInstr⟩
  have hAsm : asmBbCall opcode segment label = some instr := by
    unfold asmBbCall
    rw [if_pos ⟨hSegment, hLabel⟩, hOpcd, Option.bind_some,
      hSegm, Option.bind_some, hLab]
  have hReadSegment : segmentField.u instr = segment := by
    rw [BitField.u_of_apart (.inl (by decide)) hInstr]
    exact BitField.u_of_set hSegment hV'
  have hReadLabel : labelField.u instr = label :=
    BitField.u_of_set hLabel hInstr
  have hReadOpcd : opcdField.u instr = opcdField.u v := by
    rw [BitField.u_of_apart (.inl (by decide)) hInstr,
      BitField.u_of_apart (.inl (by decide)) hV']
  constructor
  · rintro ⟨instr', hAsm', hDasm⟩
    obtain rfl := Option.some.inj (hAsm.symm.trans hAsm')
    unfold dasmBbCall at hDasm
    split at hDasm
    · rename_i hOpcode
      rw [← hOpcode]
      exact opcdField.u_lt instr
    · cases hDasm
  · intro hFits
    refine ⟨instr, hAsm, ?_⟩
    have hOpcode : opcdField.u v = opcode :=
      BitField.u_of_set hFits hV
    rw [dasmBbCall, if_pos (hReadOpcd.trans hOpcode),
      hReadSegment, hReadLabel]

namespace Access

/-
  Every access is lawful whose shifts stay within their types.
-/
theorem access_lawful_iff (a : Access) :
    a.Lawful ↔ a.InRange := by
  cases a with
  | field f v u fits => exact field_lawful_iff fits
  | bit c number pos val => exact bit_lawful_iff c number pos val
  | call opcode segment label segmentFits labelFits =>
      exact call_lawful_iff segmentFits labelFits

/- The field that is all of its container. -/
def whole : BitField :=
  ⟨0, 32, by decide, by decide⟩

/- Nor does the first bit stay when the last one is set. -/
theorem whole_not_lawful :
    ¬ (Access.field whole 0#32 1#32 (by decide)).Lawful ∧
      ¬ (Access.bit .double (1#64 <<< 63) ⟨63, by decide⟩
          true).Lawful := by
  constructor
  · rintro ⟨y, hSet, -⟩
    cases hSet
  · rintro ⟨y, hSet, hAll⟩
    cases hSet
    exact absurd (hAll 0 (by decide)) (by decide)

end Access

end BitFields

end Ps3emu
