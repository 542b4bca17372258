import Mathlib.Tactic.Common
import Ps3emu.Library.Interleave

/-
  Swizzled textures: the bits of the coordinates of a texel
  take turns in its address, until a coordinate has no more.

  Key definitions include:
    * `SwizzledTextureIterator`
    * `swizzleAddress`, `unswizzle`
    * `turns`, `position`
    * `Swizzles`

  Key theorems include:
    * `swizzleAddress_eq`
    * `testBit_swizzleAddress`
    * `bijective_iff`
    * `swizzles_iff`
-/

------------------------------------------------------------
-- The Iterator and Its Purpose
------------------------------------------------------------

namespace Ps3emu

namespace Swizzle

inductive Axis where
  | width | height | depth
deriving DecidableEq

/- One value for each axis. -/
def Axis.get {A : Type} (x y z : A) : Axis → A
  | .width => x
  | .height => y
  | .depth => z

/- The logarithms of the sizes. -/
structure SwizzledTextureIterator where
  lg2Width : Nat
  lg2Height : Nat
  lg2Depth : Nat

/- The variables of the loop of `swizzleAddress`. -/
structure Progress where
  offset : BitVec 32
  shift : Nat
  coordinate : Axis → BitVec 32
  bits : Axis → Nat

namespace Progress

/-
  The next bit of a coordinate.  A shift by the width of the
  type or more is undefined.
-/
def put (s : Progress) (c : Axis) : Option Progress :=
  if s.shift < 32 then
    some
      { offset :=
          s.offset ||| ((s.coordinate c &&& 1) <<< s.shift)
        shift := s.shift + 1
        coordinate :=
          Function.update s.coordinate c (s.coordinate c >>> 1)
        bits := Function.update s.bits c (s.bits c - 1) }
  else none

/- `if (w) {...}`, and the same for the others. -/
def take (s : Progress) (c : Axis) : Option Progress :=
  if s.bits c = 0 then some s else s.put c

end Progress

/- `while (w | h | d)`. -/
def swizzleLoop : Nat → Progress → Option (BitVec 32)
  | 0, _ => none
  | n + 1, s =>
      if s.bits .width = 0 ∧ s.bits .height = 0 ∧
          s.bits .depth = 0 then
        some s.offset
      else
        (((s.take .width).bind (fun s => s.take .height)).bind
            (fun s => s.take .depth)).bind
          (fun s => swizzleLoop n s)

/- `x |= ((offset >> (i * 2)) & 1) << i`, for `n` bits. -/
def gather
    (offset : BitVec 32)
    (n : Nat) : Option (BitVec 32) :=
  (List.range n).foldlM
    (fun x i =>
      if i * 2 < 32 then
        some (x ||| (((offset >>> (i * 2)) &&& 1) <<< i))
      else none)
    0

namespace SwizzledTextureIterator

def start
    (it : SwizzledTextureIterator)
    (x y z : BitVec 32) : Progress where
  offset := 0
  shift := 0
  coordinate := Axis.get x y z
  bits := Axis.get it.lg2Width it.lg2Height it.lg2Depth

def swizzleAddress
    (it : SwizzledTextureIterator)
    (x y z : BitVec 32) : Option (BitVec 32) :=
  swizzleLoop (it.lg2Width + it.lg2Height + it.lg2Depth + 1)
    (it.start x y z)

/- The place of a texel in the rows of the texture. -/
def linearOffset
    (it : SwizzledTextureIterator)
    (u v : BitVec 32) : BitVec 32 :=
  (v <<< it.lg2Width) ||| u

def unswizzle
    (it : SwizzledTextureIterator)
    (u v : BitVec 32) : Option (BitVec 32 × BitVec 32) :=
  if it.lg2Width < 32 then
    let offset := it.linearOffset u v
    (gather offset it.lg2Width).bind (fun x =>
      (gather (offset >>> 1) it.lg2Height).map (fun y =>
        (x, y)))
  else none

def InBox
    (it : SwizzledTextureIterator)
    (x y z : BitVec 32) : Prop :=
  x.toNat < 2 ^ it.lg2Width ∧ y.toNat < 2 ^ it.lg2Height ∧
    z.toNat < 2 ^ it.lg2Depth

/- The bits of an address. -/
def bits (it : SwizzledTextureIterator) : Nat :=
  it.lg2Width + it.lg2Height + it.lg2Depth

/- The texels are mapped one-to-one onto the addresses. -/
structure Bijective (it : SwizzledTextureIterator) : Prop where
  within :
    ∀ x y z, it.InBox x y z →
      ∃ a,
        it.swizzleAddress x y z = some a ∧
          a.toNat < 2 ^ it.bits
  injective :
    ∀ x y z x' y' z', it.InBox x y z → it.InBox x' y' z' →
      it.swizzleAddress x y z = it.swizzleAddress x' y' z' →
        x = x' ∧ y = y' ∧ z = z'
  onto :
    ∀ n < 2 ^ it.bits,
      ∃ x y z a,
        it.InBox x y z ∧ it.swizzleAddress x y z = some a ∧
          a.toNat = n

/- The texel at an address is the one that `unswizzle` finds. -/
def UnswizzleInverts (it : SwizzledTextureIterator) : Prop :=
  ∀ x y u v, it.InBox x y 0 → it.InBox u v 0 →
    (it.unswizzle u v = some (x, y) ↔
      it.swizzleAddress x y 0 = some (it.linearOffset u v))

def Swizzles (it : SwizzledTextureIterator) : Prop :=
  it.Bijective ∧ (it.lg2Depth = 0 → it.UnswizzleInverts)

end SwizzledTextureIterator

------------------------------------------------------------
-- Turns
------------------------------------------------------------

/- The axes with bits that remain. -/
def round (bits : Axis → Nat) : List Axis :=
  [Axis.width, Axis.height, Axis.depth].filter
    (fun c => bits c ≠ 0)

/- The axes in the order in which their bits are placed. -/
def turns : Nat → (Axis → Nat) → List Axis
  | 0, _ => []
  | n + 1, bits => round bits ++ turns n (fun c => bits c - 1)

/- Where the bit of a coordinate is placed. -/
def position (bits : Axis → Nat) (c : Axis) (i : Nat) : Nat :=
  c.get
    (i + min i (bits .height) + min i (bits .depth))
    (min (i + 1) (bits .width) + i + min i (bits .depth))
    (min (i + 1) (bits .width) + min (i + 1) (bits .height) +
      i)

theorem count_round
    (bits : Axis → Nat)
    (c : Axis) :
    (round bits).count c = min 1 (bits c) := by
  cases c <;>
    cases hW : bits .width <;> cases hH : bits .height <;>
      cases hD : bits .depth <;>
        simp [round, hW, hH, hD]

theorem length_round (bits : Axis → Nat) :
    (round bits).length =
      min 1 (bits .width) + min 1 (bits .height) +
        min 1 (bits .depth) := by
  cases hW : bits .width <;> cases hH : bits .height <;>
    cases hD : bits .depth <;>
      simp [round, hW, hH, hD]

variable {c : Axis} {bits : Axis → Nat}

/- A turn of the first round. -/
theorem round_split
    (hBits : 0 < bits c) :
    ∃ before after,
      round bits = before ++ c :: after ∧
        before.count c = 0 ∧
          before.length = position bits c 0 := by
  have hNe := Nat.ne_of_gt hBits
  cases c with
  | width =>
      refine ⟨[], [Axis.height, .depth].filter
        (fun c => bits c ≠ 0), ?_, rfl, rfl⟩
      simp [round, hNe]
  | height =>
      refine ⟨[Axis.width].filter (fun c => bits c ≠ 0),
        [Axis.depth].filter (fun c => bits c ≠ 0), ?_, ?_, ?_⟩
      · cases hW : bits .width <;> simp [round, hNe, hW]
      · cases hW : bits .width <;> simp [hW]
      · cases hW : bits .width <;>
          simp [hW, position, Axis.get]
  | depth =>
      refine ⟨[Axis.width, .height].filter
        (fun c => bits c ≠ 0), [], ?_, ?_, ?_⟩
      · cases hW : bits .width <;>
          cases hH : bits .height <;>
            simp [round, hNe, hW, hH]
      · cases hW : bits .width <;>
          cases hH : bits .height <;> simp [hW, hH]
      · cases hW : bits .width <;>
          cases hH : bits .height <;>
            simp [hW, hH, position, Axis.get]

theorem count_turns
    (n : Nat)
    (bits : Axis → Nat)
    (c : Axis) :
    (turns n bits).count c = min n (bits c) := by
  induction n generalizing bits with
  | zero => exact (Nat.zero_min _).symm
  | succ n ih =>
      rw [turns, List.count_append, count_round, ih]
      omega

/- One of the turns up to a bound is in the first round. -/
theorem min_round (n b : Nat) :
    min 1 b + min n (b - 1) = min (n + 1) b := by
  omega

theorem length_turns
    (n : Nat)
    (bits : Axis → Nat) :
    (turns n bits).length =
      min n (bits .width) + min n (bits .height) +
        min n (bits .depth) := by
  induction n generalizing bits with
  | zero => simp [turns]
  | succ n ih =>
      rw [turns, List.length_append, length_round, ih,
        ← min_round n (bits .width),
        ← min_round n (bits .height),
        ← min_round n (bits .depth)]
      ac_rfl

/- The first round shifts the bits of the others. -/
theorem position_succ
    {i : Nat}
    (hBits : i + 1 < bits c) :
    min 1 (bits .width) + min 1 (bits .height) +
          min 1 (bits .depth) +
        position (fun c => bits c - 1) c i =
      position bits c (i + 1) := by
  have hOne : min 1 (bits c) = 1 :=
    Nat.min_eq_left (by omega)
  cases c with
  | width =>
      simp only [position, Axis.get, hOne,
        ← min_round i (bits .height),
        ← min_round i (bits .depth)]
      ac_rfl
  | height =>
      simp only [position, Axis.get, hOne,
        ← min_round (i + 1) (bits .width),
        ← min_round i (bits .depth)]
      ac_rfl
  | depth =>
      simp only [position, Axis.get, hOne,
        ← min_round (i + 1) (bits .width),
        ← min_round (i + 1) (bits .height)]
      ac_rfl

variable {n : Nat}

/- Every bit of a coordinate has its turn, at its position. -/
theorem turns_split
    {i : Nat}
    (hN : i < n)
    (hBits : i < bits c) :
    ∃ before after,
      turns n bits = before ++ c :: after ∧
        before.count c = i ∧
          before.length = position bits c i := by
  induction i generalizing n bits with
  | zero =>
      cases n with
      | zero => cases hN
      | succ n =>
          rcases round_split hBits with
            ⟨before, after, hRound, hCount, hLength⟩
          refine
            ⟨before, after ++ turns n (fun c => bits c - 1),
              ?_, hCount, hLength⟩
          rw [turns, hRound, List.append_assoc,
            List.cons_append]
  | succ i ih =>
      cases n with
      | zero => cases hN
      | succ n =>
          have hRest :
              ∃ before after,
                turns n (fun c => bits c - 1) =
                    before ++ c :: after ∧
                  before.count c = i ∧
                    before.length =
                      position (fun c => bits c - 1) c i := by
            apply ih
            · omega
            · omega
          rcases hRest with
            ⟨before, after, hTurns, hCount, hLength⟩
          refine
            ⟨round bits ++ before, after, ?_, ?_, ?_⟩
          · rw [turns, hTurns, List.append_assoc]
          · rw [List.count_append, count_round, hCount]
            omega
          · rw [List.length_append, length_round, hLength]
            exact position_succ hBits

------------------------------------------------------------
-- The Loop
------------------------------------------------------------

namespace Progress

variable {s t : Progress}

/- Bits go as turns are taken. -/
theorem bits_of_foldlM
    {cs : List Axis}
    (hPut : cs.foldlM put s = some t)
    (c : Axis) :
    t.bits c = s.bits c - cs.count c := by
  induction cs generalizing s with
  | nil =>
      obtain rfl := Option.some.inj hPut
      rfl
  | cons d cs ih =>
      rw [List.foldlM_cons] at hPut
      rcases Option.bind_eq_some_iff.mp hPut with
        ⟨u, hFirst, hRest⟩
      rw [put, Option.ite_none_right_eq_some] at hFirst
      obtain rfl := Option.some.inj hFirst.2
      rw [ih hRest, List.count_cons]
      dsimp only
      by_cases hSame : c = d
      · rw [hSame, Function.update_self,
          if_pos (beq_self_eq_true d)]
        omega
      · rw [Function.update_of_ne hSame,
          if_neg (fun hEq => hSame (beq_iff_eq.mp hEq).symm)]
        omega

/- The next axis has its turn if it has bits. -/
theorem foldlM_take
    (cs : List Axis)
    (c : Axis)
    (hNew : c ∉ cs) :
    (cs.foldlM put s).bind (fun t => t.take c) =
      (cs ++ [c].filter (fun c => s.bits c ≠ 0)).foldlM put
        s := by
  rw [List.foldlM_append]
  cases hCs : cs.foldlM put s with
  | none => rfl
  | some t =>
      have hBits := bits_of_foldlM hCs c
      rw [List.count_eq_zero_of_not_mem hNew, Nat.sub_zero]
        at hBits
      change t.take c = _
      rw [take, hBits]
      by_cases hZero : s.bits c = 0
      · simp [hZero]
      · simp [hZero]

/- A round of the loop. -/
theorem take_round (s : Progress) :
    ((s.take .width).bind (fun s => s.take .height)).bind
        (fun s => s.take .depth) =
      (round s.bits).foldlM put s := by
  have hWidth :
      s.take .width =
        ([Axis.width].filter (fun c => s.bits c ≠ 0)).foldlM
          put s := by
    exact @foldlM_take s [] .width List.not_mem_nil
  have hRound :
      round s.bits =
        ([Axis.width].filter (fun c => s.bits c ≠ 0) ++
            [Axis.height].filter (fun c => s.bits c ≠ 0)) ++
          [Axis.depth].filter (fun c => s.bits c ≠ 0) := by
    rw [← List.filter_append, ← List.filter_append]
    rfl
  rw [hWidth, foldlM_take, foldlM_take, hRound]
  · simp
  · simp

end Progress

theorem turns_of_done
    (hDone : ∀ c, bits c = 0)
    (n : Nat) :
    turns n bits = [] := by
  apply List.eq_nil_of_length_eq_zero
  simp only [length_turns, hDone, Nat.min_zero]

/- The loop takes the turns one after another. -/
theorem swizzleLoop_eq
    {n : Nat}
    {s : Progress}
    (hBits : ∀ c, s.bits c ≤ n) :
    swizzleLoop (n + 1) s =
      ((turns n s.bits).foldlM Progress.put s).map
        (fun t => t.offset) := by
  induction n generalizing s with
  | zero =>
      have hDone : ∀ c, s.bits c = 0 :=
        fun c => Nat.le_zero.mp (hBits c)
      rw [swizzleLoop, if_pos ⟨hDone _, hDone _, hDone _⟩]
      rfl
  | succ n ih =>
      rw [swizzleLoop]
      split
      case isTrue hDone =>
        have hAll : ∀ c, s.bits c = 0 := by
          intro c
          cases c with
          | width => exact hDone.1
          | height => exact hDone.2.1
          | depth => exact hDone.2.2
        rw [turns_of_done hAll]
        rfl
      case isFalse hMore =>
        rw [Progress.take_round, turns, List.foldlM_append]
        cases hRound : (round s.bits).foldlM Progress.put s with
        | none => rfl
        | some t =>
            have hT : t.bits = fun c => s.bits c - 1 := by
              funext c
              rw [Progress.bits_of_foldlM hRound, count_round]
              omega
            rw [← hT]
            apply ih
            intro c
            have hC := hBits c
            rw [hT]
            dsimp only
            omega

theorem toNat_or_shiftLeft
    {a x : BitVec 32}
    {n : Nat}
    (hA : a.toNat < 2 ^ n)
    (hN : n < 32) :
    (a ||| ((x &&& 1) <<< n)).toNat =
      a.toNat + 2 ^ n * (x.toNat % 2) := by
  have hBit : (x &&& 1).toNat = x.toNat % 2 := by
    rw [BitVec.toNat_and]
    exact Nat.and_one_is_mod _
  have hLow : x.toNat % 2 < 2 ^ (32 - n) :=
    Nat.lt_of_lt_of_le (Nat.mod_lt _ Nat.two_pos)
      (Nat.pow_le_pow_right Nat.two_pos (by omega) :
        2 ^ 1 ≤ _)
  have hShift :
      ((x &&& 1) <<< n).toNat = (x.toNat % 2) <<< n := by
    rw [BitVec.toNat_shiftLeft, hBit, Nat.shiftLeft_eq,
      Nat.mod_eq_of_lt]
    calc
      x.toNat % 2 * 2 ^ n < 2 ^ (32 - n) * 2 ^ n :=
        Nat.mul_lt_mul_of_pos_right hLow (Nat.two_pow_pos n)
      _ = 2 ^ 32 := by
        rw [← Nat.pow_add, Nat.sub_add_cancel (Nat.le_of_lt hN)]
  rw [BitVec.toNat_or, hShift, Nat.or_comm,
    ← Nat.shiftLeft_add_eq_or_of_lt hA, Nat.shiftLeft_eq,
    Nat.add_comm, Nat.mul_comm]

/- What the turns place, if there are places for them. -/
theorem foldlM_put
    {cs : List Axis}
    {s : Progress}
    (hOffset : s.offset.toNat < 2 ^ s.shift)
    (hShift : s.shift ≤ 32) :
    (cs.foldlM Progress.put s).map (fun t => t.offset) =
      if s.shift + cs.length ≤ 32 then
        some
          (BitVec.ofNat 32
            (s.offset.toNat +
              2 ^ s.shift *
                Interleave.encode cs
                  (fun c => (s.coordinate c).toNat)))
      else none := by
  induction cs generalizing s with
  | nil =>
      rw [List.length_nil, Nat.add_zero, if_pos hShift]
      simp [Interleave.encode]
  | cons c cs ih =>
      rw [List.foldlM_cons, List.length_cons, Progress.put]
      split
      case isTrue hLt =>
        have hToNat := @toNat_or_shiftLeft s.offset
          (s.coordinate c) s.shift hOffset hLt
        have hBit := Nat.mod_lt (s.coordinate c).toNat
          Nat.two_pos
        refine (ih ?_ ?_).trans ?_
        · dsimp only
          rw [hToNat, Nat.pow_succ]
          rcases Nat.mod_two_eq_zero_or_one
            (s.coordinate c).toNat with hZero | hOne
          · rw [hZero]
            omega
          · rw [hOne]
            omega
        · exact hLt
        · have hRest :
              (fun d =>
                  (Function.update s.coordinate c
                    (s.coordinate c >>> 1) d).toNat) =
                Function.update
                  (fun d => (s.coordinate d).toNat) c
                  ((s.coordinate c).toNat / 2) := by
            funext d
            by_cases hSame : d = c
            · rw [hSame, Function.update_self,
                Function.update_self, BitVec.toNat_ushiftRight]
              exact Nat.shiftRight_eq_div_pow _ 1
            · rw [Function.update_of_ne hSame,
                Function.update_of_ne hSame]
          dsimp only
          rw [hToNat, hRest, Interleave.encode, Nat.mul_add,
            Nat.pow_succ, Nat.add_assoc, Nat.mul_assoc,
            Nat.add_assoc, Nat.add_comm 1]
      case isFalse hGe =>
        rw [if_neg (by omega)]
        rfl

------------------------------------------------------------
-- Addresses
------------------------------------------------------------

namespace SwizzledTextureIterator

variable {it : SwizzledTextureIterator} {x y z a u v : BitVec 32}

/- The bits of each axis. -/
def lg2 (it : SwizzledTextureIterator) : Axis → Nat :=
  Axis.get it.lg2Width it.lg2Height it.lg2Depth

/- All of the turns. -/
def order (it : SwizzledTextureIterator) : List Axis :=
  turns it.bits it.lg2

theorem lg2_le
    (it : SwizzledTextureIterator)
    (c : Axis) :
    it.lg2 c ≤ it.bits := by
  cases c <;> simp only [lg2, Axis.get, bits] <;> omega

theorem count_order
    (it : SwizzledTextureIterator)
    (c : Axis) :
    it.order.count c = it.lg2 c := by
  rw [order, count_turns]
  exact Nat.min_eq_right (it.lg2_le c)

theorem length_order (it : SwizzledTextureIterator) :
    it.order.length = it.bits := by
  have hW := it.lg2_le .width
  have hH := it.lg2_le .height
  have hD := it.lg2_le .depth
  rw [order, length_turns, Nat.min_eq_right hW,
    Nat.min_eq_right hH, Nat.min_eq_right hD]
  rfl

/- The bits of the coordinates, as far as there are places. -/
theorem swizzleAddress_eq
    (it : SwizzledTextureIterator)
    (x y z : BitVec 32) :
    it.swizzleAddress x y z =
      if it.bits ≤ 32 then
        some
          (BitVec.ofNat 32
            (Interleave.encode it.order
              (Axis.get x.toNat y.toNat z.toNat)))
      else none := by
  have hCoordinates :
      (fun c => (Axis.get x y z c).toNat) =
        Axis.get x.toNat y.toNat z.toNat := by
    funext c
    cases c <;> rfl
  have hPlaced :=
    @foldlM_put it.order (it.start x y z) Nat.one_pos
      (Nat.zero_le 32)
  have hLoop :
      it.swizzleAddress x y z =
        (it.order.foldlM Progress.put (it.start x y z)).map
          (fun t => t.offset) :=
    @swizzleLoop_eq it.bits (it.start x y z) it.lg2_le
  rw [hLoop, hPlaced, length_order]
  change (if 0 + it.bits ≤ 32 then some (BitVec.ofNat 32
    (0 + 2 ^ 0 * Interleave.encode it.order
      (fun c => (Axis.get x y z c).toNat))) else none) = _
  rw [hCoordinates, Nat.zero_add, Nat.zero_add, Nat.pow_zero,
    Nat.one_mul]

theorem swizzleAddress_eq_some (hBits : it.bits ≤ 32) :
    it.swizzleAddress x y z = some a ↔
      Interleave.encode it.order
          (Axis.get x.toNat y.toNat z.toNat) =
        a.toNat := by
  have hLt :=
    Interleave.encode_lt it.order
      (Axis.get x.toNat y.toNat z.toNat)
  have hPow : 2 ^ it.order.length ≤ 2 ^ 32 := by
    rw [length_order]
    exact Nat.pow_le_pow_right Nat.two_pos hBits
  rw [swizzleAddress_eq, if_pos hBits, Option.some.injEq,
    ← BitVec.toNat_inj, BitVec.toNat_ofNat, Nat.mod_eq_of_lt]
  exact Nat.lt_of_lt_of_le hLt hPow

theorem exists_address
    (hBits : it.bits ≤ 32)
    (x y z : BitVec 32) :
    ∃ a,
      it.swizzleAddress x y z = some a ∧
        a.toNat < 2 ^ it.bits := by
  refine ⟨_, (it.swizzleAddress_eq x y z).trans
    (if_pos hBits), ?_⟩
  rw [BitVec.toNat_ofNat, ← length_order]
  exact
    Nat.lt_of_le_of_lt (Nat.mod_le _ _)
      (Interleave.encode_lt _ _)

theorem InBox.lt
    (hBox : it.InBox x y z)
    (c : Axis) :
    Axis.get x.toNat y.toNat z.toNat c <
      2 ^ it.order.count c := by
  rw [count_order]
  cases c with
  | width => exact hBox.1
  | height => exact hBox.2.1
  | depth => exact hBox.2.2

/- The coordinate that the bits of an address make. -/
theorem exists_coordinate
    (hBits : it.bits ≤ 32)
    (n : Nat)
    (c : Axis) :
    ∃ x : BitVec 32,
      x.toNat = Interleave.decode it.order n c ∧
        x.toNat < 2 ^ it.lg2 c := by
  have hLt := Interleave.decode_lt it.order n c
  rw [count_order] at hLt
  have hPow : 2 ^ it.lg2 c ≤ 2 ^ 32 :=
    Nat.pow_le_pow_right Nat.two_pos
      (Nat.le_trans (it.lg2_le c) hBits)
  have hToNat :
      (BitVec.ofNat 32 (Interleave.decode it.order n c)).toNat =
        Interleave.decode it.order n c :=
    (BitVec.toNat_ofNat _ _).trans
      (Nat.mod_eq_of_lt (Nat.lt_of_lt_of_le hLt hPow))
  refine ⟨_, hToNat, ?_⟩
  rw [hToNat]
  exact hLt

theorem exists_texel
    (hBits : it.bits ≤ 32)
    (hA : a.toNat < 2 ^ it.bits) :
    ∃ x y z,
      it.InBox x y z ∧ it.swizzleAddress x y z = some a := by
  rcases exists_coordinate hBits a.toNat .width with
    ⟨x, hX, hXLt⟩
  rcases exists_coordinate hBits a.toNat .height with
    ⟨y, hY, hYLt⟩
  rcases exists_coordinate hBits a.toNat .depth with
    ⟨z, hZ, hZLt⟩
  have hSame :
      Axis.get x.toNat y.toNat z.toNat =
        Interleave.decode it.order a.toNat := by
    funext c
    cases c with
    | width => exact hX
    | height => exact hY
    | depth => exact hZ
  refine ⟨x, y, z, ⟨hXLt, hYLt, hZLt⟩, ?_⟩
  rw [swizzleAddress_eq_some hBits, hSame]
  apply Interleave.encode_decode
  rw [length_order]
  exact hA

theorem swizzleAddress_injective
    {x' y' z' : BitVec 32}
    (hBits : it.bits ≤ 32)
    (hBox : it.InBox x y z)
    (hBox' : it.InBox x' y' z')
    (hEq : it.swizzleAddress x y z = it.swizzleAddress x' y' z') :
    x = x' ∧ y = y' ∧ z = z' := by
  rcases exists_address hBits x' y' z' with ⟨a, hA, -⟩
  rw [hA, swizzleAddress_eq_some hBits] at hEq
  rw [swizzleAddress_eq_some hBits] at hA
  have hSame :=
    Interleave.encode_injective hBox.lt hBox'.lt
      (hEq.trans hA.symm)
  exact
    ⟨BitVec.eq_of_toNat_eq (congrFun hSame .width),
      BitVec.eq_of_toNat_eq (congrFun hSame .height),
      BitVec.eq_of_toNat_eq (congrFun hSame .depth)⟩

/- The texels are mapped one-to-one if addresses fit. -/
theorem bijective_iff (it : SwizzledTextureIterator) :
    it.Bijective ↔ it.bits ≤ 32 := by
  constructor
  · intro hBijective
    rcases hBijective.onto 0 (Nat.two_pow_pos _) with
      ⟨x, y, z, a, -, hAddress, -⟩
    by_contra hBits
    rw [swizzleAddress_eq, if_neg hBits] at hAddress
    cases hAddress
  · intro hBits
    have hPow : 2 ^ it.bits ≤ 2 ^ 32 :=
      Nat.pow_le_pow_right Nat.two_pos hBits
    refine
      ⟨fun x y z _ => exists_address hBits x y z,
        fun _ _ _ _ _ _ => swizzleAddress_injective hBits, ?_⟩
    intro n hN
    have hToNat : (BitVec.ofNat 32 n).toNat = n :=
      (BitVec.toNat_ofNat _ _).trans
        (Nat.mod_eq_of_lt (Nat.lt_of_lt_of_le hN hPow))
    rcases exists_texel hBits (hToNat.symm ▸ hN) with
      ⟨x, y, z, hBox, hAddress⟩
    exact ⟨x, y, z, _, hBox, hAddress, hToNat⟩

/- The bit of a coordinate is at its position. -/
theorem testBit_swizzleAddress
    (hAddress : it.swizzleAddress x y z = some a)
    {c : Axis}
    {i : Nat}
    (hI : i < it.lg2 c) :
    a.getLsbD (position it.lg2 c i) =
      (Axis.get x y z c).getLsbD i := by
  have hBits : it.bits ≤ 32 := by
    by_contra hBits
    rw [swizzleAddress_eq, if_neg hBits] at hAddress
    cases hAddress
  rw [swizzleAddress_eq_some hBits] at hAddress
  have hN := Nat.lt_of_lt_of_le hI (it.lg2_le c)
  rcases turns_split hN hI with
    ⟨before, after, hOrder, hCount, hLength⟩
  change it.order = _ at hOrder
  rw [BitVec.getLsbD, ← hAddress, hOrder, ← hLength,
    Interleave.testBit_encode, hCount]
  cases c <;> rfl

end SwizzledTextureIterator

------------------------------------------------------------
-- Rows
------------------------------------------------------------

theorem getLsbD_place
    {offset : BitVec 32}
    (hN : n < 32)
    (k i : Nat) :
    (((offset >>> k) &&& 1) <<< n).getLsbD i =
      (decide (i = n) && offset.getLsbD k) := by
  simp only [BitVec.getLsbD_shiftLeft, BitVec.getLsbD_and,
    BitVec.getLsbD_ushiftRight]
  rcases Nat.lt_trichotomy i n with hLt | rfl | hGt
  · simp [hLt, Nat.ne_of_lt hLt]
  · simp [hN]
  · have hNe : i - n ≠ 0 := by omega
    simp [Nat.ne_of_gt hGt, hNe]

/- One bit in two. -/
theorem getLsbD_gather
    {offset x : BitVec 32}
    (hGather : gather offset n = some x)
    (i : Nat) :
    x.getLsbD i = (decide (i < n) && offset.getLsbD (i * 2)) := by
  induction n generalizing x with
  | zero =>
      obtain rfl := Option.some.inj hGather
      simp
  | succ n ih =>
      rw [gather, List.range_succ, List.foldlM_append]
        at hGather
      rcases Option.bind_eq_some_iff.mp hGather with
        ⟨old, hInit, hLast⟩
      rw [List.foldlM_cons] at hLast
      rcases Option.bind_eq_some_iff.mp hLast with
        ⟨new, hBody, hNil⟩
      obtain rfl := Option.some.inj hNil
      rw [Option.ite_none_right_eq_some] at hBody
      rcases hBody with ⟨hLt, hNew⟩
      rw [← Option.some.inj hNew, BitVec.getLsbD_or, ih hInit,
        getLsbD_place (by omega)]
      rcases Nat.lt_trichotomy i n with hLow | rfl | hHigh
      · simp [hLow, Nat.ne_of_lt hLow, Nat.lt_succ_of_lt hLow]
      · simp
      · have hNot : ¬ i < n + 1 := by omega
        simp [Nat.ne_of_gt hHigh, hNot, Nat.lt_asymm hHigh]

theorem exists_gather
    (offset : BitVec 32)
    (hN : n ≤ 16) :
    ∃ x, gather offset n = some x := by
  induction n with
  | zero => exact ⟨0, rfl⟩
  | succ n ih =>
      rcases ih (by omega) with ⟨old, hInit⟩
      rw [gather] at hInit
      rw [gather, List.range_succ, List.foldlM_append, hInit]
      refine
        ⟨old ||| (((offset >>> (n * 2)) &&& 1) <<< n), ?_⟩
      change (if n * 2 < 32 then some _ else none) >>= _ = _
      rw [if_pos (by omega)]
      rfl

namespace SwizzledTextureIterator

variable {it : SwizzledTextureIterator} {x y z a u v : BitVec 32}

theorem toNat_linearOffset
    (hBits : it.bits ≤ 32)
    (hBox : it.InBox u v 0) :
    (it.linearOffset u v).toNat =
      v.toNat * 2 ^ it.lg2Width + u.toNat := by
  have hFits :
      v.toNat * 2 ^ it.lg2Width < 2 ^ 32 := by
    calc
      v.toNat * 2 ^ it.lg2Width <
          2 ^ it.lg2Height * 2 ^ it.lg2Width :=
        Nat.mul_lt_mul_of_pos_right hBox.2.1
          (Nat.two_pow_pos _)
      _ = 2 ^ (it.lg2Height + it.lg2Width) :=
        (Nat.pow_add _ _ _).symm
      _ ≤ 2 ^ 32 := by
        apply Nat.pow_le_pow_right Nat.two_pos
        unfold bits at hBits
        omega
  rw [linearOffset, BitVec.toNat_or, BitVec.toNat_shiftLeft,
    Nat.shiftLeft_eq, Nat.mod_eq_of_lt hFits,
    ← Nat.shiftLeft_eq, ← Nat.shiftLeft_add_eq_or_of_lt hBox.1]

theorem toNat_linearOffset_lt
    (hDepth : it.lg2Depth = 0)
    (hBits : it.bits ≤ 32)
    (hBox : it.InBox u v 0) :
    (it.linearOffset u v).toNat < 2 ^ it.bits := by
  have hEnd :
      (v.toNat + 1) * 2 ^ it.lg2Width ≤
        2 ^ it.lg2Height * 2 ^ it.lg2Width :=
    Nat.mul_le_mul_right _ hBox.2.1
  have hU := hBox.1
  have hPow :
      2 ^ it.bits = 2 ^ it.lg2Height * 2 ^ it.lg2Width := by
    rw [bits, hDepth, Nat.add_zero, Nat.add_comm, Nat.pow_add]
  rw [toNat_linearOffset hBits hBox, hPow]
  rw [Nat.succ_mul] at hEnd
  omega

/- Every address is the place of a texel in some row. -/
theorem exists_linearOffset
    (hDepth : it.lg2Depth = 0)
    (hBits : it.bits ≤ 32)
    (hA : a.toNat < 2 ^ it.bits) :
    ∃ u v, it.InBox u v 0 ∧ it.linearOffset u v = a := by
  have hPow :
      2 ^ it.bits = 2 ^ it.lg2Width * 2 ^ it.lg2Height := by
    rw [bits, hDepth, Nat.add_zero, Nat.pow_add]
  have hU : a.toNat % 2 ^ it.lg2Width < 2 ^ it.lg2Width :=
    Nat.mod_lt _ (Nat.two_pow_pos _)
  have hV : a.toNat / 2 ^ it.lg2Width < 2 ^ it.lg2Height := by
    apply Nat.div_lt_of_lt_mul
    rw [← hPow]
    exact hA
  have hToNatU :
      (BitVec.ofNat 32 (a.toNat % 2 ^ it.lg2Width)).toNat =
        a.toNat % 2 ^ it.lg2Width :=
    (BitVec.toNat_ofNat _ _).trans
      (Nat.mod_eq_of_lt
        (Nat.lt_of_le_of_lt (Nat.mod_le _ _) a.isLt))
  have hToNatV :
      (BitVec.ofNat 32 (a.toNat / 2 ^ it.lg2Width)).toNat =
        a.toNat / 2 ^ it.lg2Width :=
    (BitVec.toNat_ofNat _ _).trans
      (Nat.mod_eq_of_lt
        (Nat.lt_of_le_of_lt (Nat.div_le_self _ _) a.isLt))
  have hBox :
      it.InBox
        (BitVec.ofNat 32 (a.toNat % 2 ^ it.lg2Width))
        (BitVec.ofNat 32 (a.toNat / 2 ^ it.lg2Width)) 0 := by
    refine ⟨?_, ?_, Nat.two_pow_pos _⟩
    · rw [hToNatU]
      exact hU
    · rw [hToNatV]
      exact hV
  refine ⟨_, _, hBox, ?_⟩
  apply BitVec.eq_of_toNat_eq
  rw [toNat_linearOffset hBits hBox, hToNatU, hToNatV]
  exact Nat.div_add_mod' _ _

theorem getLsbD_of_lt
    {n i : Nat}
    (hX : x.toNat < 2 ^ n)
    (hI : n ≤ i) :
    x.getLsbD i = false := by
  apply Nat.testBit_eq_false_of_lt
  exact
    Nat.lt_of_lt_of_le hX
      (Nat.pow_le_pow_right Nat.two_pos hI)

/-
  Where the axes take turns to the end, the bits of the
  width are the even ones and those of the height the odd.
-/
theorem unswizzle_of_turns
    (hDepth : it.lg2Depth = 0)
    (hBits : it.bits ≤ 32)
    (hShape :
      it.lg2Width = it.lg2Height ∨
        it.lg2Width = it.lg2Height + 1)
    (hBox : it.InBox x y z)
    (hAddress :
      it.swizzleAddress x y z = some (it.linearOffset u v)) :
    it.unswizzle u v = some (x, y) := by
  unfold bits at hBits
  rcases exists_gather (it.linearOffset u v)
    (show it.lg2Width ≤ 16 by omega) with ⟨x', hX⟩
  rcases exists_gather (it.linearOffset u v >>> 1)
    (show it.lg2Height ≤ 16 by omega) with ⟨y', hY⟩
  have hXEq : x' = x := by
    apply BitVec.eq_of_getLsbD_eq
    intro i hI
    rw [getLsbD_gather hX]
    by_cases hLow : i < it.lg2Width
    · have hPosition :
          position it.lg2 .width i = i * 2 := by
        change i + min i it.lg2Height + min i it.lg2Depth = _
        omega
      have hBit :=
        @testBit_swizzleAddress it x y z _ hAddress .width i
          hLow
      rw [hPosition] at hBit
      rw [hBit, decide_eq_true hLow, Bool.true_and]
      rfl
    · rw [decide_eq_false hLow, Bool.false_and,
        getLsbD_of_lt hBox.1 (by omega)]
  have hYEq : y' = y := by
    apply BitVec.eq_of_getLsbD_eq
    intro i hI
    rw [getLsbD_gather hY, BitVec.getLsbD_ushiftRight]
    by_cases hLow : i < it.lg2Height
    · have hPosition :
          position it.lg2 .height i = 1 + i * 2 := by
        change
          min (i + 1) it.lg2Width + i + min i it.lg2Depth = _
        omega
      have hBit :=
        @testBit_swizzleAddress it x y z _ hAddress .height i
          hLow
      rw [hPosition] at hBit
      rw [hBit, decide_eq_true hLow, Bool.true_and]
      rfl
    · rw [decide_eq_false hLow, Bool.false_and,
        getLsbD_of_lt hBox.2.1 (by omega)]
  have hWidth : it.lg2Width < 32 := by omega
  rw [unswizzle, if_pos hWidth]
  simp only [hX, hY, Option.bind_some, Option.map_some, hXEq,
    hYEq]

theorem unswizzleInverts_of_turns
    (hDepth : it.lg2Depth = 0)
    (hBits : it.bits ≤ 32)
    (hShape :
      it.lg2Width = it.lg2Height ∨
        it.lg2Width = it.lg2Height + 1) :
    it.UnswizzleInverts := by
  intro x y u v hBox hRow
  constructor
  · intro hFound
    have hLt := toNat_linearOffset_lt hDepth hBits hRow
    rcases exists_texel hBits hLt with
      ⟨x', y', z', hBox', hAddress⟩
    have hOther :=
      unswizzle_of_turns hDepth hBits hShape hBox' hAddress
    have hPair := Option.some.inj (hFound.symm.trans hOther)
    have hZ : z' = 0 := by
      have hLtZ := hBox'.2.2
      rw [hDepth] at hLtZ
      exact BitVec.eq_of_toNat_eq (Nat.lt_one_iff.mp hLtZ)
    rw [hZ] at hAddress
    rcases Prod.mk.inj hPair with ⟨rfl, rfl⟩
    exact hAddress
  · exact unswizzle_of_turns hDepth hBits hShape hBox

/- What a found texel says about the bits of its place. -/
theorem bits_of_unswizzle
    (hFound : it.unswizzle u v = some (x, y))
    (i : Nat) :
    x.getLsbD i =
        (decide (i < it.lg2Width) &&
          (it.linearOffset u v).getLsbD (i * 2)) ∧
      y.getLsbD i =
        (decide (i < it.lg2Height) &&
          (it.linearOffset u v).getLsbD (1 + i * 2)) := by
  rw [unswizzle, Option.ite_none_right_eq_some] at hFound
  rcases Option.bind_eq_some_iff.mp hFound.2 with
    ⟨x', hX, hMap⟩
  rcases Option.map_eq_some_iff.mp hMap with ⟨y', hY, hPair⟩
  rcases Prod.mk.inj hPair with ⟨rfl, rfl⟩
  refine ⟨getLsbD_gather hX i, ?_⟩
  rw [getLsbD_gather hY, BitVec.getLsbD_ushiftRight]

theorem toNat_twoPow
    {n i : Nat}
    (hI : i < n)
    (hN : n ≤ 32) :
    (BitVec.twoPow 32 i).toNat < 2 ^ n := by
  rw [BitVec.toNat_twoPow_of_lt (by omega)]
  exact Nat.pow_lt_pow_right Nat.one_lt_two hI

/- A found texel is at the address of its place. -/
theorem UnswizzleInverts.exists_address
    (hInverts : it.UnswizzleInverts)
    (hDepth : it.lg2Depth = 0)
    (hBits : it.bits ≤ 32)
    (hBox : it.InBox x y 0) :
    ∃ u v,
      it.swizzleAddress x y 0 = some (it.linearOffset u v) ∧
        (it.linearOffset u v).toNat < 2 ^ it.bits ∧
          it.unswizzle u v = some (x, y) := by
  rcases SwizzledTextureIterator.exists_address hBits x y 0 with
    ⟨a, hAddress, hLt⟩
  rcases exists_linearOffset hDepth hBits hLt with
    ⟨u, v, hRow, rfl⟩
  exact
    ⟨u, v, hAddress, hLt,
      (hInverts x y u v hBox hRow).mpr hAddress⟩

/- A second bit of the width comes where one is left out. -/
theorem UnswizzleInverts.not_wide
    (hInverts : it.UnswizzleInverts)
    (hDepth : it.lg2Depth = 0)
    (hBits : it.bits ≤ 32) :
    it.lg2Width ≤ it.lg2Height + 1 := by
  by_contra hWide
  have hSum := hBits
  unfold bits at hSum
  have hBox :
      it.InBox (BitVec.twoPow 32 (it.lg2Height + 1)) 0 0 :=
    ⟨toNat_twoPow (by omega) (by omega), Nat.two_pow_pos _,
      Nat.two_pow_pos _⟩
  rcases hInverts.exists_address hDepth hBits hBox with
    ⟨u, v, hAddress, hLt, hFound⟩
  have hBit :=
    (bits_of_unswizzle hFound (it.lg2Height + 1)).1
  have hNone :
      (it.linearOffset u v).getLsbD
          ((it.lg2Height + 1) * 2) =
        false := by
    by_cases hMore : it.lg2Height + 2 < it.lg2Width
    · have hPosition :
          position it.lg2 .width (it.lg2Height + 2) =
            (it.lg2Height + 1) * 2 := by
        change
          it.lg2Height + 2 +
                min (it.lg2Height + 2) it.lg2Height +
              min (it.lg2Height + 2) it.lg2Depth =
            _
        omega
      rw [← hPosition, testBit_swizzleAddress hAddress hMore]
      simp [Axis.get]
    · apply getLsbD_of_lt hLt
      unfold bits
      omega
  rw [hNone, Bool.and_false, BitVec.getLsbD_twoPow] at hBit
  simp only [decide_true, Bool.and_true, decide_eq_false_iff_not]
    at hBit
  omega

theorem UnswizzleInverts.not_high
    (hInverts : it.UnswizzleInverts)
    (hDepth : it.lg2Depth = 0)
    (hBits : it.bits ≤ 32) :
    it.lg2Height ≤ it.lg2Width := by
  by_contra hHigh
  have hSum := hBits
  unfold bits at hSum
  have hBox :
      it.InBox 0 (BitVec.twoPow 32 it.lg2Width) 0 :=
    ⟨Nat.two_pow_pos _, toNat_twoPow (by omega) (by omega),
      Nat.two_pow_pos _⟩
  rcases hInverts.exists_address hDepth hBits hBox with
    ⟨u, v, hAddress, hLt, hFound⟩
  have hBit := (bits_of_unswizzle hFound it.lg2Width).2
  have hNone :
      (it.linearOffset u v).getLsbD (1 + it.lg2Width * 2) =
        false := by
    by_cases hMore : it.lg2Width + 1 < it.lg2Height
    · have hPosition :
          position it.lg2 .height (it.lg2Width + 1) =
            1 + it.lg2Width * 2 := by
        change
          min (it.lg2Width + 1 + 1) it.lg2Width +
                (it.lg2Width + 1) +
              min (it.lg2Width + 1) it.lg2Depth =
            _
        omega
      rw [← hPosition, testBit_swizzleAddress hAddress hMore]
      simp [Axis.get]
    · apply getLsbD_of_lt hLt
      unfold bits
      omega
  rw [hNone, Bool.and_false, BitVec.getLsbD_twoPow] at hBit
  simp only [decide_true, Bool.and_true, decide_eq_false_iff_not]
    at hBit
  omega

/-
  The map of texels is one-to-one exactly if addresses have
  enough bits.  It is inverted exactly for the shapes whose
  axes take turns to the end.
-/
theorem swizzles_iff (it : SwizzledTextureIterator) :
    it.Swizzles ↔
      it.lg2Width + it.lg2Height + it.lg2Depth ≤ 32 ∧
        (it.lg2Depth = 0 →
          it.lg2Width = it.lg2Height ∨
            it.lg2Width = it.lg2Height + 1) := by
  rw [Swizzles, bijective_iff]
  apply and_congr_right
  intro hBits
  apply forall_congr'
  intro hDepth
  constructor
  · intro hInverts
    have hWide := hInverts.not_wide hDepth hBits
    have hHigh := hInverts.not_high hDepth hBits
    omega
  · exact unswizzleInverts_of_turns hDepth hBits

/- Two texels by four: the second bit of the height is lost. -/
theorem swizzles_fails : ¬ Swizzles ⟨1, 2, 0⟩ := by
  intro hSwizzles
  have hTexel :=
    (hSwizzles.2 rfl 0 2 0 2 ⟨by decide, by decide, by decide⟩
      ⟨by decide, by decide, by decide⟩).mpr
  revert hTexel
  decide

end SwizzledTextureIterator

end Swizzle

end Ps3emu
