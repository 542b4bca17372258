import Mathlib.Data.List.Basic
import Mathlib.Tactic.IntervalCases
import Ps3emu.Memory.Address

/-
  The blocks of compressed textures, as the shader of
  `RsxTextureReader` decodes them.

  Key definitions include:
    * `decodeDXT1Color`, `takeIndices`
    * `decodeBlock`
    * `Block.texel`
    * `Block.Plain`

  Key theorems include:
    * `takeIndices_eq`
    * `colour_iff`, `alpha_iff`
    * `decodeBlock_iff`
-/

------------------------------------------------------------
-- Shader
------------------------------------------------------------

namespace Ps3emu

namespace BlockTexture

structure UVec4 where
  r : Nat
  g : Nat
  b : Nat
  a : Nat
deriving DecidableEq

def ext8 (val bits : Nat) : Nat :=
  (val <<< (8 - bits)) ||| (val >>> (2 * bits - 8))

def bitfieldExtract
    (val : BitVec 32)
    (offset bits : Nat) : Nat :=
  (val.extractLsb' offset bits).toNat

def readRGB565 (val : BitVec 32) : UVec4 where
  r := ext8 (bitfieldExtract val 11 5) 5
  g := ext8 (bitfieldExtract val 5 6) 6
  b := ext8 (bitfieldExtract val 0 5) 5
  a := 0xff

/- An operation on each of the three colours. -/
def mix
    (f : Nat → Nat → Nat)
    (x y : UVec4) : UVec4 where
  r := f x.r y.r
  g := f x.g y.g
  b := f x.b y.b
  a := 0xff

/- The array `c` that it fills.  No channel exceeds a byte. -/
def decodeDXT1Color
    (word : BitVec 32)
    (force4Colors : Bool) : List UVec4 :=
  let u16_0 := word &&& 0xffff#32
  let u16_1 := word >>> 16
  let c0 := readRGB565 u16_0
  let c1 := readRGB565 u16_1
  if force4Colors = true ∨ u16_0 > u16_1 then
    [c0, c1, mix (fun a b => (2 * a + b) / 3) c0 c1,
      mix (fun a b => (2 * a + b) / 3) c1 c0]
  else
    [c0, c1, mix (fun a b => (a + b) / 2) c0 c1, ⟨0, 0, 0, 0⟩]

/-
  A loop that takes an index from the low bits of a word for
  each turn, and what is left of the word.
-/
def takeIndices
    (bits : Nat) :
    Nat → BitVec 32 → List Nat × BitVec 32
  | 0, w => ([], w)
  | n + 1, w =>
      let rest := takeIndices bits n (w >>> bits)
      ((w &&& BitVec.ofNat 32 (2 ^ bits - 1)).toNat :: rest.1,
        rest.2)

/- The array `a` of the interpolated alpha values. -/
def alphaTable (w0 : BitVec 32) : List Nat :=
  let a0 := (w0 &&& 0xff#32).toNat
  let a1 := ((w0 >>> 8) &&& 0xff#32).toNat
  if a0 > a1 then
    [a0, a1, (6 * a0 + 1 * a1) / 7, (5 * a0 + 2 * a1) / 7,
      (4 * a0 + 3 * a1) / 7, (3 * a0 + 4 * a1) / 7,
      (2 * a0 + 5 * a1) / 7, (1 * a0 + 6 * a1) / 7]
  else
    [a0, a1, (4 * a0 + 1 * a1) / 5, (3 * a0 + 2 * a1) / 5,
      (2 * a0 + 3 * a1) / 5, (1 * a0 + 4 * a1) / 5, 0, 0xff]

/- The alphas of texels, with their colours. -/
def withAlpha
    (colours : List UVec4)
    (alphas : List Nat) : List UVec4 :=
  colours.zipWith (fun c a => { c with a := a }) alphas

def colours (c : List UVec4) (w : BitVec 32) : List UVec4 :=
  (takeIndices 2 16 w).1.map (fun k => c.getD k ⟨0, 0, 0, 0⟩)

def decodeDXT1 (w0 w1 : BitVec 32) : List UVec4 :=
  colours (decodeDXT1Color w0 false) w1

def nibbles (w : BitVec 32) : List Nat :=
  [ext8 (w &&& 0xf#32).toNat 4,
    ext8 ((w >>> 4) &&& 0xf#32).toNat 4,
    ext8 ((w >>> 8) &&& 0xf#32).toNat 4,
    ext8 ((w >>> 12) &&& 0xf#32).toNat 4,
    ext8 ((w >>> 16) &&& 0xf#32).toNat 4,
    ext8 ((w >>> 20) &&& 0xf#32).toNat 4,
    ext8 ((w >>> 24) &&& 0xf#32).toNat 4,
    ext8 (w >>> 28).toNat 4]

def decodeDXT23 (w0 w1 w2 w3 : BitVec 32) : List UVec4 :=
  withAlpha (colours (decodeDXT1Color w2 true) w3)
    (nibbles w0 ++ nibbles w1)

def decodeDXT45 (w0 w1 w2 w3 : BitVec 32) : List UVec4 :=
  let first := takeIndices 3 5 (w0 >>> 16)
  let second := takeIndices 3 11 (first.2 ||| (w1 <<< 1))
  withAlpha (colours (decodeDXT1Color w2 false) w3)
    ((first.1 ++ second.1).map
      (fun k => (alphaTable w0).getD k 0))

/- The three formats, each with its little-endian block. -/
inductive Block where
  | dxt1 (colour : BitVec 64)
  | dxt23 (alpha colour : BitVec 64)
  | dxt45 (alpha colour : BitVec 64)

/- The words at the first and the second half of eight bytes. -/
def low (b : BitVec 64) : BitVec 32 := b.extractLsb' 0 32
def high (b : BitVec 64) : BitVec 32 := b.extractLsb' 32 32

def decodeBlock : Block → List UVec4
  | .dxt1 c => decodeDXT1 (low c) (high c)
  | .dxt23 a c => decodeDXT23 (low a) (high a) (low c) (high c)
  | .dxt45 a c => decodeDXT45 (low a) (high a) (low c) (high c)

------------------------------------------------------------
-- Specification and Words
------------------------------------------------------------

/- A field of a block, as a number. -/
def fieldOf (b : BitVec 64) (pos bits : Nat) : Nat :=
  b.toNat / 2 ^ pos % 2 ^ bits

/- A channel of some bits, with its high bits repeated. -/
def expand (bits v : Nat) : Nat :=
  v * 2 ^ (8 - bits) + v / 2 ^ (2 * bits - 8)

def endpoint (e : Nat) : UVec4 where
  r := expand 5 (e / 2 ^ 11)
  g := expand 6 (e / 2 ^ 5 % 2 ^ 6)
  b := expand 5 (e % 2 ^ 5)
  a := 255

/- The four colours of the two endpoints, by the mode. -/
def palette (four : Prop) [Decidable four] (e₀ e₁ : Nat) :
    List UVec4 :=
  [endpoint e₀, endpoint e₁,
    if four then
      mix (fun a b => (2 * a + b) / 3) (endpoint e₀) (endpoint e₁)
    else
      mix (fun a b => (a + b) / 2) (endpoint e₀) (endpoint e₁),
    if four then
      mix (fun a b => (a + 2 * b) / 3) (endpoint e₀) (endpoint e₁)
    else ⟨0, 0, 0, 0⟩]

/- Eight values from the first alpha to the second one. -/
def alphas (a₀ a₁ : Nat) : List Nat :=
  if a₁ < a₀ then
    [a₀, a₁, (6 * a₀ + a₁) / 7, (5 * a₀ + 2 * a₁) / 7,
      (4 * a₀ + 3 * a₁) / 7, (3 * a₀ + 4 * a₁) / 7,
      (2 * a₀ + 5 * a₁) / 7, (a₀ + 6 * a₁) / 7]
  else
    [a₀, a₁, (4 * a₀ + a₁) / 5, (3 * a₀ + 2 * a₁) / 5,
      (2 * a₀ + 3 * a₁) / 5, (a₀ + 4 * a₁) / 5, 0, 255]

def endpoint₀ (c : BitVec 64) : Nat := fieldOf c 0 16
def endpoint₁ (c : BitVec 64) : Nat := fieldOf c 16 16

def selector (c : BitVec 64) (i : Nat) : Nat :=
  fieldOf c (32 + 2 * i) 2

def colourOf
    (four : Prop) [Decidable four]
    (c : BitVec 64)
    (i : Nat) : UVec4 :=
  (palette four (endpoint₀ c) (endpoint₁ c)).getD
    (selector c i) ⟨0, 0, 0, 0⟩

def alphasOf (a : BitVec 64) : List Nat :=
  alphas (fieldOf a 0 8) (fieldOf a 8 8)

def alphaIndex (a : BitVec 64) (i : Nat) : Nat :=
  fieldOf a (16 + 3 * i) 3

/- The texel of a block in the definition of the format. -/
def Block.texel : Block → Nat → UVec4
  | .dxt1 c, i => colourOf (endpoint₁ c < endpoint₀ c) c i
  | .dxt23 a c, i =>
      { colourOf True c i with
        a := expand 4 (fieldOf a (4 * i) 4) }
  | .dxt45 a c, i =>
      { colourOf True c i with
        a := (alphasOf a).getD (alphaIndex a i) 0 }

def Decodes (b : Block) : Prop :=
  ∀ i < 16, (decodeBlock b)[i]? = some (b.texel i)

/-
  The order of the endpoints does not show, and the highest
  bit of the last index does not either.
-/
def Block.Plain : Block → Prop
  | .dxt1 _ | .dxt23 _ _ => True
  | .dxt45 a c =>
      (endpoint₁ c < endpoint₀ c ∨
          ∀ i < 16,
            selector c i < 2 ∨
              (selector c i = 2 ∧
                endpoint₀ c = endpoint₁ c) ∨
                endpoint₀ c = 0 ∧ endpoint₁ c = 0) ∧
        (alphaIndex a 15 < 4 ∨
          (alphasOf a).getD (alphaIndex a 15) 0 =
            (alphasOf a).getD (alphaIndex a 15 - 4) 0)

theorem toNat_low (b : BitVec 64) :
    (low b).toNat = b.toNat % 2 ^ 32 := by
  rw [low, BitVec.extractLsb'_toNat, Nat.shiftRight_zero]

theorem toNat_high (b : BitVec 64) :
    (high b).toNat = b.toNat / 2 ^ 32 := by
  rw [high, BitVec.extractLsb'_toNat,
    Nat.shiftRight_eq_div_pow]
  omega

theorem toNat_mask
    (w : BitVec 32)
    {bits : Nat}
    (hBits : bits ≤ 32) :
    (w &&& BitVec.ofNat 32 (2 ^ bits - 1)).toNat =
      w.toNat % 2 ^ bits := by
  have hPow : 2 ^ bits ≤ 2 ^ 32 :=
    Nat.pow_le_pow_right (by decide) hBits
  have hPos := Nat.two_pow_pos bits
  rw [BitVec.toNat_and, BitVec.toNat_ofNat,
    Nat.mod_eq_of_lt (by omega), Nat.and_two_pow_sub_one_eq_mod]

/- The index of each turn, and the word after the loop. -/
theorem takeIndices_eq
    {bits : Nat}
    (hBits : bits ≤ 32)
    (n : Nat)
    (w : BitVec 32) :
    takeIndices bits n w =
      ((List.range n).map (fun i =>
          w.toNat / 2 ^ (bits * i) % 2 ^ bits),
        w >>> (bits * n)) := by
  induction n generalizing w with
  | zero => rfl
  | succ n ih =>
      rw [takeIndices, ih, toNat_mask w hBits]
      dsimp only
      rw [List.range_succ_eq_map, List.map_cons, List.map_map,
        ← BitVec.shiftRight_add, Nat.mul_succ, Nat.add_comm,
        Nat.mul_zero, Nat.pow_zero, Nat.div_one]
      congr 2
      apply List.map_congr_left
      intro i _
      simp only [Function.comp_apply, BitVec.toNat_ushiftRight,
        Nat.shiftRight_eq_div_pow, Nat.div_div_eq_div_mul,
        ← Nat.pow_add, Nat.mul_succ, Nat.add_comm]

theorem ext8_eq
    {bits v : Nat}
    (hLow : 4 ≤ bits)
    (hHigh : bits ≤ 8)
    (hV : v < 2 ^ bits) :
    ext8 v bits = expand bits v := by
  have hLt : v >>> (2 * bits - 8) < 2 ^ (8 - bits) := by
    rw [Nat.shiftRight_eq_div_pow, Nat.div_lt_iff_lt_mul
      (Nat.two_pow_pos _), ← Nat.pow_add]
    have hSum : 8 - bits + (2 * bits - 8) = bits := by omega
    rwa [hSum]
  rw [ext8, ← Nat.shiftLeft_add_eq_or_of_lt hLt, expand,
    Nat.shiftLeft_eq, Nat.shiftRight_eq_div_pow]

------------------------------------------------------------
-- Tables
------------------------------------------------------------

theorem readRGB565_eq
    {w : BitVec 32}
    (hW : w.toNat < 2 ^ 16) :
    readRGB565 w = endpoint w.toNat := by
  have hField :
      ∀ offset bits,
        bitfieldExtract w offset bits =
          w.toNat / 2 ^ offset % 2 ^ bits := by
    intro offset bits
    rw [bitfieldExtract, BitVec.extractLsb'_toNat,
      Nat.shiftRight_eq_div_pow]
  rw [readRGB565, endpoint, hField, hField, hField,
    ext8_eq (by decide) (by decide) (Nat.mod_lt _ (by decide)),
    ext8_eq (by decide) (by decide) (Nat.mod_lt _ (by decide)),
    ext8_eq (by decide) (by decide) (Nat.mod_lt _ (by decide)),
    Nat.mod_eq_of_lt (a := w.toNat / 2 ^ 11) (by omega),
    Nat.pow_zero, Nat.div_one]

theorem decodeDXT1Color_eq
    (c : BitVec 64)
    (force : Bool) :
    decodeDXT1Color (low c) force =
      palette (force = true ∨ endpoint₁ c < endpoint₀ c)
        (endpoint₀ c) (endpoint₁ c) := by
  have hFirst :
      (low c &&& 0xffff#32).toNat = endpoint₀ c := by
    have hMask := @toNat_mask (low c) 16 (by decide)
    rw [toNat_low] at hMask
    rw [endpoint₀, fieldOf, Nat.pow_zero, Nat.div_one]
    exact hMask.trans (by omega)
  have hSecond : (low c >>> 16).toNat = endpoint₁ c := by
    rw [BitVec.toNat_ushiftRight, toNat_low,
      Nat.shiftRight_eq_div_pow, endpoint₁, fieldOf]
    omega
  have hLt₀ : endpoint₀ c < 2 ^ 16 := Nat.mod_lt _ (by decide)
  have hLt₁ : endpoint₁ c < 2 ^ 16 := Nat.mod_lt _ (by decide)
  have hSwap :
      mix (fun a b => (2 * a + b) / 3)
          (endpoint (endpoint₁ c)) (endpoint (endpoint₀ c)) =
        mix (fun a b => (a + 2 * b) / 3)
          (endpoint (endpoint₀ c)) (endpoint (endpoint₁ c)) := by
    simp only [mix, Nat.add_comm]
  have hOrder :
      (force = true ∨ low c &&& 0xffff#32 > low c >>> 16) ↔
        (force = true ∨ endpoint₁ c < endpoint₀ c) := by
    rw [gt_iff_lt, BitVec.lt_def, hFirst, hSecond]
  rw [decodeDXT1Color, palette, readRGB565_eq (by omega),
    readRGB565_eq (by omega), hFirst, hSecond, hSwap]
  by_cases hFour : force = true ∨ endpoint₁ c < endpoint₀ c
  · rw [if_pos (hOrder.mpr hFour), if_pos hFour, if_pos hFour]
  · rw [if_neg (fun h => hFour (hOrder.mp h)), if_neg hFour,
      if_neg hFour]

theorem colours_eq
    (p : List UVec4)
    (c : BitVec 64) :
    colours p (high c) =
      (List.range 16).map (fun i =>
        p.getD (selector c i) ⟨0, 0, 0, 0⟩) := by
  rw [colours, takeIndices_eq (by decide), List.map_map]
  apply List.map_congr_left
  intro i _
  rw [Function.comp_apply, toNat_high, Nat.div_div_eq_div_mul,
    ← Nat.pow_add]
  rfl

theorem alphaTable_eq (a : BitVec 64) :
    alphaTable (low a) = alphasOf a := by
  have hFirst : (low a &&& 0xff#32).toNat = fieldOf a 0 8 := by
    have hMask := @toNat_mask (low a) 8 (by decide)
    rw [toNat_low] at hMask
    rw [fieldOf, Nat.pow_zero, Nat.div_one]
    exact hMask.trans (by omega)
  have hSecond :
      ((low a >>> 8) &&& 0xff#32).toNat = fieldOf a 8 8 := by
    have hMask :=
      @toNat_mask (low a >>> 8) 8 (by decide)
    rw [BitVec.toNat_ushiftRight, toNat_low,
      Nat.shiftRight_eq_div_pow] at hMask
    rw [fieldOf]
    exact hMask.trans (by omega)
  rw [alphaTable, alphasOf, alphas, hFirst, hSecond,
    Nat.one_mul, Nat.one_mul]

/- The index of a texel, without the bit that is shifted out. -/
def takenIndex (a : BitVec 64) (i : Nat) : Nat :=
  if i = 15 then alphaIndex a i % 4 else alphaIndex a i

theorem indices_eq (a : BitVec 64) :
    (takeIndices 3 5 (low a >>> 16)).1 ++
        (takeIndices 3 11
          ((takeIndices 3 5 (low a >>> 16)).2 |||
            (high a <<< 1))).1 =
      (List.range 16).map (takenIndex a) := by
  have hRest :
      ((low a >>> 16 >>> (3 * 5)) ||| (high a <<< 1)).toNat =
        a.toNat / 2 ^ 31 % 2 ^ 32 := by
    have hTop :
        (high a <<< 1).toNat =
          (a.toNat / 2 ^ 32 % 2 ^ 31) <<< 1 := by
      rw [BitVec.toNat_shiftLeft, toNat_high, Nat.shiftLeft_eq,
        Nat.shiftLeft_eq]
      omega
    have hBit :
        (low a >>> 16 >>> (3 * 5)).toNat =
          a.toNat % 2 ^ 32 / 2 ^ 31 := by
      rw [BitVec.toNat_ushiftRight, BitVec.toNat_ushiftRight,
        toNat_low, Nat.shiftRight_eq_div_pow,
        Nat.shiftRight_eq_div_pow, Nat.div_div_eq_div_mul,
        ← Nat.pow_add]
    rw [BitVec.toNat_or, hTop, hBit, Nat.or_comm,
      ← Nat.shiftLeft_add_eq_or_of_lt (by omega),
      Nat.shiftLeft_eq]
    omega
  have hRange :
      List.range 16 =
        List.range 5 ++ (List.range 11).map (fun x => 5 + x) :=
    rfl
  rw [takeIndices_eq (by decide), takeIndices_eq (by decide),
    hRest, BitVec.toNat_ushiftRight, toNat_low, hRange,
    List.map_append, List.map_map]
  congr 1
  · apply List.map_congr_left
    intro i hI
    have hLt := List.mem_range.mp hI
    rw [takenIndex, if_neg (by omega), alphaIndex, fieldOf,
      Nat.shiftRight_eq_div_pow]
    interval_cases i <;> omega
  · apply List.map_congr_left
    intro i hI
    have hLt := List.mem_range.mp hI
    rw [Function.comp_apply, takenIndex, alphaIndex, fieldOf]
    by_cases hLast : i = 10
    · subst hLast
      rw [if_pos rfl]
      omega
    · rw [if_neg (by omega)]
      interval_cases i <;> omega

theorem nibbles_eq (w : BitVec 32) :
    nibbles w =
      (List.range 8).map (fun i =>
        expand 4 (w.toNat / 2 ^ (4 * i) % 2 ^ 4)) := by
  have hNibble :
      ∀ v : BitVec 32,
        ext8 (v &&& 0xf#32).toNat 4 =
          expand 4 (v.toNat % 2 ^ 4) := by
    intro v
    have hMask := @toNat_mask v 4 (by decide)
    have hLt : v.toNat % 2 ^ 4 < 2 ^ 4 :=
      Nat.mod_lt _ (by decide)
    rw [← ext8_eq (by decide) (by decide) hLt, ← hMask]
    rfl
  have hLast :
      ext8 (w >>> 28).toNat 4 =
        expand 4 ((w >>> 28).toNat % 2 ^ 4) := by
    have hLt := w.isLt
    have hTop : (w >>> 28).toNat < 2 ^ 4 := by
      rw [BitVec.toNat_ushiftRight, Nat.shiftRight_eq_div_pow]
      omega
    rw [Nat.mod_eq_of_lt hTop,
      ext8_eq (by decide) (by decide) hTop]
  rw [nibbles, hLast]
  simp only [hNibble, BitVec.toNat_ushiftRight,
    Nat.shiftRight_eq_div_pow]
  simp [List.range_succ]

/- What the shader stores for a texel. -/
def stored : Block → Nat → UVec4
  | .dxt1 c, i => colourOf (endpoint₁ c < endpoint₀ c) c i
  | .dxt23 a c, i =>
      { colourOf True c i with
        a := expand 4 (fieldOf a (4 * i) 4) }
  | .dxt45 a c, i =>
      { colourOf (endpoint₁ c < endpoint₀ c) c i with
        a := (alphasOf a).getD (takenIndex a i) 0 }

theorem palette_congr
    {p q : Prop} [Decidable p] [Decidable q]
    (hIff : p ↔ q)
    (e₀ e₁ : Nat) :
    palette p e₀ e₁ = palette q e₀ e₁ := by
  rw [palette, palette]
  by_cases hP : p
  · rw [if_pos hP, if_pos hP, if_pos (hIff.mp hP),
      if_pos (hIff.mp hP)]
  · have hQ : ¬ q := fun h => hP (hIff.mpr h)
    rw [if_neg hP, if_neg hP, if_neg hQ, if_neg hQ]

theorem withAlpha_map
    (f : Nat → UVec4)
    (g : Nat → Nat)
    (l : List Nat) :
    withAlpha (l.map f) (l.map g) =
      l.map (fun i => { f i with a := g i }) := by
  rw [withAlpha, List.zipWith_map, List.zipWith_self]

theorem decodeBlock_eq (b : Block) :
    decodeBlock b = (List.range 16).map (stored b) := by
  cases b with
  | dxt1 c =>
      rw [decodeBlock, decodeDXT1, decodeDXT1Color_eq,
        colours_eq]
      apply List.map_congr_left
      intro i _
      rw [stored, colourOf,
        palette_congr (q := endpoint₁ c < endpoint₀ c) (by simp)]
  | dxt23 a c =>
      have hNibbles :
          nibbles (low a) ++ nibbles (high a) =
            (List.range 16).map (fun i =>
              expand 4 (fieldOf a (4 * i) 4)) := by
        have hRange :
            List.range 16 =
              List.range 8 ++
                (List.range 8).map (fun x => 8 + x) :=
          rfl
        rw [nibbles_eq, nibbles_eq, hRange, List.map_append,
          List.map_map, toNat_low, toNat_high]
        congr 1
        all_goals
          apply List.map_congr_left
          intro i hI
          have hLt := List.mem_range.mp hI
          simp only [Function.comp_apply, fieldOf]
          congr 1
          interval_cases i <;> omega
      rw [decodeBlock, decodeDXT23, decodeDXT1Color_eq,
        colours_eq, hNibbles, withAlpha_map]
      apply List.map_congr_left
      intro i _
      rw [stored, colourOf, palette_congr (q := True) (by simp)]
  | dxt45 a c =>
      rw [decodeBlock, decodeDXT45, decodeDXT1Color_eq,
        colours_eq, indices_eq, List.map_map, withAlpha_map]
      apply List.map_congr_left
      intro i _
      rw [stored, colourOf, Function.comp_apply, alphaTable_eq,
        palette_congr (q := endpoint₁ c < endpoint₀ c) (by simp)]

------------------------------------------------------------
-- Correctness
------------------------------------------------------------

theorem decodes_iff_stored (b : Block) :
    Decodes b ↔ ∀ i < 16, stored b i = b.texel i := by
  unfold Decodes
  rw [decodeBlock_eq]
  refine forall₂_congr fun i hI => ?_
  rw [List.getElem?_map, List.getElem?_range hI,
    Option.map_some, Option.some.injEq]

/- Channels of two endpoints are far from each other. -/
theorem expand_lt
    {bits u v : Nat}
    (hBits : bits = 5 ∨ bits = 6)
    (hLt : u < v) :
    expand bits u + 4 ≤ expand bits v := by
  unfold expand
  rcases hBits with rfl | rfl <;> omega

theorem thirds_ne
    {x y : Nat}
    (hFar : x + 4 ≤ y) :
    (2 * x + y) / 3 ≠ (x + y) / 2 := by
  omega

/- The first channel in which two endpoints differ. -/
theorem endpoint_differs
    {e₀ e₁ : Nat}
    (hLt : e₀ < e₁) :
    (endpoint e₀).r + 4 ≤ (endpoint e₁).r ∨
      (endpoint e₀).g + 4 ≤ (endpoint e₁).g ∨
        (endpoint e₀).b + 4 ≤ (endpoint e₁).b := by
  unfold endpoint
  by_cases hRed : e₀ / 2 ^ 11 < e₁ / 2 ^ 11
  · exact .inl (expand_lt (.inl rfl) hRed)
  · by_cases hGreen : e₀ / 2 ^ 5 % 2 ^ 6 < e₁ / 2 ^ 5 % 2 ^ 6
    · exact .inr (.inl (expand_lt (.inr rfl) hGreen))
    · exact .inr (.inr (expand_lt (.inl rfl) (by omega)))

/- A dark channel has no bit at all. -/
theorem expand_small
    {bits v : Nat}
    (hBits : bits = 5 ∨ bits = 6)
    (hLt : expand bits v < 4) :
    v = 0 := by
  have hZero : expand bits 0 = 0 := by
    rw [expand, Nat.zero_mul, Nat.zero_div]
  by_contra hV
  have hFar := expand_lt hBits (Nat.pos_of_ne_zero hV)
  omega

/- The modes give a selector one colour. -/
theorem colour_iff
    {e₀ e₁ k : Nat}
    (hOrder : e₀ ≤ e₁)
    (hK : k < 4)
    (x : Nat) :
    { (palette (e₁ < e₀) e₀ e₁).getD k ⟨0, 0, 0, 0⟩ with
        a := x } =
      { (palette True e₀ e₁).getD k ⟨0, 0, 0, 0⟩ with
        a := x } ↔
    k < 2 ∨ (k = 2 ∧ e₀ = e₁) ∨ e₀ = 0 ∧ e₁ = 0 := by
  rw [palette, palette, if_neg (by omega), if_neg (by omega),
    if_pos trivial, if_pos trivial]
  match k, hK with
  | 0, _ => simp
  | 1, _ => simp
  | 2, _ =>
      simp only [List.getD_cons_succ, List.getD_cons_zero, mix,
        UVec4.mk.injEq, and_true]
      constructor
      · rintro ⟨hRed, hGreen, hBlue⟩
        right
        left
        refine ⟨trivial, ?_⟩
        by_contra hNe
        rcases endpoint_differs (by omega : e₀ < e₁) with
          hFar | hFar | hFar
        · exact thirds_ne hFar hRed.symm
        · exact thirds_ne hFar hGreen.symm
        · exact thirds_ne hFar hBlue.symm
      · intro hPlain
        have hEq : e₀ = e₁ := by omega
        subst hEq
        omega
  | 3, _ =>
      simp only [List.getD_cons_succ, List.getD_cons_zero, mix,
        UVec4.mk.injEq, and_true]
      constructor
      · rintro ⟨hRed, hGreen, hBlue⟩
        right
        right
        simp only [endpoint] at hRed hGreen hBlue
        have hRed₀ := expand_small (v := e₀ / 2 ^ 11)
          (.inl rfl) (by omega)
        have hRed₁ := expand_small (v := e₁ / 2 ^ 11)
          (.inl rfl) (by omega)
        have hGreen₀ := expand_small (v := e₀ / 2 ^ 5 % 2 ^ 6)
          (.inr rfl) (by omega)
        have hGreen₁ := expand_small (v := e₁ / 2 ^ 5 % 2 ^ 6)
          (.inr rfl) (by omega)
        have hBlue₀ := expand_small (v := e₀ % 2 ^ 5)
          (.inl rfl) (by omega)
        have hBlue₁ := expand_small (v := e₁ % 2 ^ 5)
          (.inl rfl) (by omega)
        omega
      · intro hPlain
        have hZero : e₀ = 0 ∧ e₁ = 0 := by omega
        rw [hZero.left, hZero.right]
        decide

/- Two indices give one alpha after the bit is lost. -/
theorem alpha_iff
    (l : List Nat)
    {i : Nat}
    (hI : i < 8) :
    l.getD (i % 4) 0 = l.getD i 0 ↔
      (i < 4 ∨ l.getD i 0 = l.getD (i - 4) 0) := by
  by_cases hLt : i < 4
  · simp [Nat.mod_eq_of_lt hLt, hLt]
  · have hMod : i % 4 = i - 4 := by omega
    rw [hMod, or_iff_right hLt]
    exact eq_comm

theorem selector_lt (c : BitVec 64) (i : Nat) :
    selector c i < 4 :=
  Nat.mod_lt _ (by decide)

theorem alphaIndex_lt (a : BitVec 64) (i : Nat) :
    alphaIndex a i < 8 :=
  Nat.mod_lt _ (by decide)

/- A texel's colour and its alpha are decoded apart. -/
theorem withAlpha_eq_iff
    (c d : UVec4)
    (x y : Nat) :
    ({ c with a := x } : UVec4) = { d with a := y } ↔
      ({ c with a := x } : UVec4) = { d with a := x } ∧
        x = y := by
  simp only [UVec4.mk.injEq, and_true]
  tauto

theorem colours_iff
    (c : BitVec 64)
    (i x : Nat) :
    ({ colourOf (endpoint₁ c < endpoint₀ c) c i with
        a := x } : UVec4) =
      { colourOf True c i with a := x } ↔
    endpoint₁ c < endpoint₀ c ∨
      selector c i < 2 ∨
        (selector c i = 2 ∧ endpoint₀ c = endpoint₁ c) ∨
          endpoint₀ c = 0 ∧ endpoint₁ c = 0 := by
  by_cases hOrder : endpoint₁ c < endpoint₀ c
  · have hSame :
        palette (endpoint₁ c < endpoint₀ c)
            (endpoint₀ c) (endpoint₁ c) =
          palette True (endpoint₀ c) (endpoint₁ c) :=
      palette_congr (iff_true_intro hOrder) _ _
    rw [colourOf, colourOf, hSame]
    exact iff_of_true rfl (.inl hOrder)
  · rw [or_iff_right hOrder]
    exact colour_iff (by omega) (selector_lt c i) x

/- A block is decoded to its texels just when it is plain. -/
theorem decodeBlock_iff (b : Block) :
    Decodes b ↔ b.Plain := by
  rw [decodes_iff_stored]
  cases b with
  | dxt1 c => exact iff_of_true (fun _ _ => rfl) trivial
  | dxt23 a c => exact iff_of_true (fun _ _ => rfl) trivial
  | dxt45 a c =>
      simp only [stored, Block.texel, Block.Plain]
      constructor
      · intro hDecodes
        have hTexel i hI :=
          (withAlpha_eq_iff _ _ _ _).mp (hDecodes i hI)
        constructor
        · by_cases hOrder : endpoint₁ c < endpoint₀ c
          · exact .inl hOrder
          · right
            intro i hI
            exact ((colours_iff c i _).mp
              (hTexel i hI).left).resolve_left hOrder
        · have hLast := (hTexel 15 (by decide)).right
          rw [takenIndex, if_pos rfl] at hLast
          exact (alpha_iff _ (alphaIndex_lt a 15)).mp hLast
      · rintro ⟨hColour, hAlpha⟩ i hI
        apply (withAlpha_eq_iff _ _ _ _).mpr
        constructor
        · apply (colours_iff c i _).mpr
          exact hColour.imp_right (fun h => h i hI)
        · rw [takenIndex]
          by_cases hLast : i = 15
          · subst hLast
            rw [if_pos rfl]
            exact (alpha_iff _ (alphaIndex_lt a 15)).mpr hAlpha
          · rw [if_neg hLast]

/- Equal endpoints are black, and the last selector shows it. -/
theorem dxt45_not_decodes :
    ¬ Decodes (.dxt45 0x00ff#64 0xc0000000ffff0000#64) := by
  rw [decodes_iff_stored]
  decide

end BlockTexture

end Ps3emu
