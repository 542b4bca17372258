import Mathlib.Algebra.BigOperators.Intervals
import Mathlib.Algebra.Order.BigOperators.Group.Finset
import Ps3emu.Library.Masks
import Ps3emu.Rsx.Swizzle

/-
  The levels of textures, as the shaders of `RsxTextureReader`
  find them in memory.

  Key definitions include:
    * `getLevel`, `getImageSize`, `main`
    * `RsxTextureInfo.Addressed`
    * `Regular`
    * `RsxTextureInfo.Plain`

  Key theorems include:
    * `main_eq_some`
    * `levelRight_of_regular`, `exists_levelWrong`
    * `addressed_iff`
-/

------------------------------------------------------------
-- Shader
------------------------------------------------------------

namespace Ps3emu

namespace TextureLevels

open Swizzle

/- The formats that the shader reads. -/
inductive GcmTextureFormat where
  | b8
  | a1r5g5b5
  | r5g5b5a1
  | a4r4g4b4
  | r5g6b5
  | d1r5g5b5
  | r6g5b5
  | depth16
  | a8r8g8b8
  | d8r8g8b8
  | y16x16Float
  | w16z16y16x16Float
  | w32z32y32x32Float

def getTexelSize : GcmTextureFormat → Nat
  | .a8r8g8b8 | .d8r8g8b8 | .y16x16Float => 4
  | .a1r5g5b5 | .r5g5b5a1 | .a4r4g4b4 | .r5g6b5 | .d1r5g5b5
  | .r6g5b5 | .depth16 => 2
  | .b8 => 1
  | .w16z16y16x16Float => 8
  | .w32z32y32x32Float => 16

structure RsxTextureInfo where
  pitch : BitVec 32
  width : BitVec 16
  height : BitVec 16
  mipmap : BitVec 8
  format : GcmTextureFormat
  linear : Bool
  fragmentCubemap : Bool

structure TextureInfoUniform where
  format : GcmTextureFormat
  pitch : Nat
  width : Nat
  height : Nat
  levels : Nat
  isSwizzled : Bool
  texelSize : Nat
  cube : Bool

def loadTexture (info : RsxTextureInfo) :
    TextureInfoUniform where
  format := info.format
  pitch :=
    if info.linear then info.pitch.toNat
    else getTexelSize info.format * info.width.toNat
  width := info.width.toNat
  height := info.height.toNat
  levels := info.mipmap.toNat
  isSwizzled := !info.linear
  texelSize := getTexelSize info.format
  cube := info.fragmentCubemap

/- The variables that `getLevel` is given by reference. -/
structure LevelSearch where
  y : Nat
  offset : Nat
  levelWidth : Nat
  levelHeight : Nat
  levelPitch : Nat

/- A `uint` keeps 32 bits of sums and products. -/
def uint (n : Nat) : Nat := n % 2 ^ 32

/- The turns of the loop from a level on. -/
def getLevel
    (i : TextureInfoUniform) :
    Nat → Nat → LevelSearch → Option (Nat × LevelSearch)
  | 0, _, _ => none
  | n + 1, level, s =>
      if s.y < s.levelHeight then some (level, s)
      else
        let levelWidth := max (s.levelWidth / 2) 1
        getLevel i n (level + 1)
          { y := s.y - s.levelHeight
            offset :=
              uint (s.offset + s.levelPitch * s.levelHeight)
            levelWidth := levelWidth
            levelHeight := max (s.levelHeight / 2) 1
            levelPitch :=
              if i.isSwizzled then uint (levelWidth * i.texelSize)
              else s.levelPitch }

def imageSizeLoop
    (i : TextureInfoUniform) : Nat → Nat → Nat → Nat → Nat
  | 0, _, _, offset => offset
  | n + 1, pitch, height, offset =>
      imageSizeLoop i n
        (if i.isSwizzled then max (pitch / 2) 1 else pitch)
        (max (height / 2) 1) (uint (offset + pitch * height))

def getImageSize
    (i : TextureInfoUniform)
    (pitch height : Nat) : Nat :=
  imageSizeLoop i i.levels pitch height 0

def align (n alignment : BitVec 32) : BitVec 32 :=
  (n + alignment - 1) &&& ~~~(alignment - 1)

def getLayerOffset
    (i : TextureInfoUniform)
    (z pitch height : Nat) : Nat :=
  if i.cube then
    let size := BitVec.ofNat 32 (getImageSize i pitch height)
    uint ((align size 128).toNat * z)
  else 0

/- The factor of `src.x` for a format. -/
def sourceStep : GcmTextureFormat → Nat
  | .a8r8g8b8 | .d8r8g8b8 => 4
  | .a1r5g5b5 | .r5g5b5a1 | .a4r4g4b4 | .r5g6b5 | .d1r5g5b5
  | .r6g5b5 => 2
  | .b8 => 1
  | .w32z32y32x32Float => 16
  | .w16z16y16x16Float => 8
  | .y16x16Float => 4
  | .depth16 => 2

/-
  A texel that is stored to an image, and the byte it is read
  from.  The shader's `swizzleAddress` has the same loop as the
  iterator's.
-/
structure Texel where
  level : Nat
  dest : Nat × Nat
  byteIndex : Option Nat

def source
    (i : TextureInfoUniform)
    (x y : Nat) : Option (Nat × Nat) :=
  if i.isSwizzled then
    let logw := Nat.log2 i.width
    let logh := Nat.log2 i.height
    let it : SwizzledTextureIterator := ⟨logw, logh, 0⟩
    (it.swizzleAddress (BitVec.ofNat 32 x) (BitVec.ofNat 32 y)
      0).map (fun swizzled =>
        (swizzled.toNat % 2 ^ logw, swizzled.toNat / 2 ^ logw))
  else some (x, y)

/- For the position `x`, `y` and a layer.  None is discarded. -/
def main
    (i : TextureInfoUniform)
    (z x y : Nat) : Option Texel :=
  match getLevel i i.levels 0
      ⟨y, 0, i.width, i.height, i.pitch⟩ with
  | none => none
  | some (level, s) =>
      if s.levelWidth ≤ x then none
      else
        some
          { level := level
            dest := (x, s.y)
            byteIndex :=
              (source i x s.y).map (fun src =>
                uint (s.offset +
                  getLayerOffset i z i.pitch i.height +
                  (src.2 * s.levelPitch +
                    src.1 * sourceStep i.format))) }

------------------------------------------------------------
-- Specification
------------------------------------------------------------

/- A side of a level is half of the one before it. -/
def side (n : Nat) : Nat → Nat
  | 0 => n
  | k + 1 => max (side n k / 2) 1

namespace RsxTextureInfo

variable (t : RsxTextureInfo)

def levels : Nat := t.mipmap.toNat

def texelSize : Nat := getTexelSize t.format

def levelWidth (k : Nat) : Nat := side t.width.toNat k

def levelHeight (k : Nat) : Nat := side t.height.toNat k

def levelPitch (k : Nat) : Nat :=
  if t.linear then t.pitch.toNat
  else t.levelWidth k * t.texelSize

/- The levels lie one after another. -/
def levelBase (k : Nat) : Nat :=
  ∑ j ∈ Finset.range k, t.levelPitch j * t.levelHeight j

/- Their rows are on top of each other. -/
def levelTop (k : Nat) : Nat :=
  ∑ j ∈ Finset.range k, t.levelHeight j

def imageSize : Nat := t.levelBase t.levels

def layerBase (z : Nat) : Nat :=
  if t.fragmentCubemap then (t.imageSize + 127) / 128 * 128 * z
  else 0

/- The order of the texels of a level. -/
def levelIterator (k : Nat) : SwizzledTextureIterator :=
  ⟨Nat.log2 (t.levelWidth k), Nat.log2 (t.levelHeight k), 0⟩

/- The place of a texel in its level. -/
def texelOffset (k u v : Nat) : Option Nat :=
  if t.linear then some (v * t.levelPitch k + u * t.texelSize)
  else
    ((t.levelIterator k).swizzleAddress (BitVec.ofNat 32 u)
      (BitVec.ofNat 32 v) 0).map
        (fun s => t.texelSize * s.toNat)

/- The texel at a coordinate of a level. -/
def texel (z k u v : Nat) : Texel where
  level := k
  dest := (u, v)
  byteIndex :=
    (t.texelOffset k u v).map (fun o =>
      uint (t.levelBase k + t.layerBase z + o))

structure Addressed : Prop where
  imageSize :
    getImageSize (loadTexture t) (loadTexture t).pitch
      t.height.toNat = uint t.imageSize
  layers :
    ∀ z,
      getLayerOffset (loadTexture t) z (loadTexture t).pitch
        t.height.toNat = uint (t.layerBase z)
  texels :
    ∀ z x y s,
      main (loadTexture t) z x y = some s ↔
        ∃ k v,
          k < t.levels ∧ x < t.levelWidth k ∧
            v < t.levelHeight k ∧ y = t.levelTop k + v ∧
              s = t.texel z k x v

/- The sides of swizzled textures are powers of two. -/
def PowersOfTwo : Prop :=
  t.linear = false →
    ∃ a b, t.width.toNat = 2 ^ a ∧ t.height.toNat = 2 ^ b

end RsxTextureInfo

/-
  The logarithms of the sides of which so many levels are read
  in their own order.
-/
def Regular (a b levels : Nat) : Prop :=
  levels ≤ 1 ∨ a ≤ 1 ∨ b = 0 ∨
    (a = 2 ∧ (b ≤ 2 ∨ levels ≤ 2)) ∨
      (a = 3 ∧ b = 2) ∨ (levels ≤ 2 ∧ b = (a + 1) / 2)

/- The texture is linear, or it has few levels and is regular. -/
def RsxTextureInfo.Plain (t : RsxTextureInfo) : Prop :=
  t.linear = true ∨
    (t.levels ≤ Nat.log2 t.width.toNat + 1 ∨ t.texelSize = 1) ∧
      Regular (Nat.log2 t.width.toNat)
        (Nat.log2 t.height.toNat) t.levels

------------------------------------------------------------
-- Interleaving
------------------------------------------------------------

/- The bits of two coordinates take turns. -/
def interleaved : Nat → Nat → Nat → Nat → Nat
  | 0, _, _, y => y
  | _ + 1, 0, x, _ => x
  | a + 1, b + 1, x, y =>
      x % 2 + 2 * (y % 2) + 4 * interleaved a b (x / 2) (y / 2)

theorem interleaved_row
    {a x : Nat}
    (hX : x < 2 ^ a)
    (y : Nat)
    (hY : y < 2 ^ 0) :
    interleaved a 0 x y = x := by
  cases a with
  | zero =>
      rw [Nat.pow_zero] at hX hY
      rw [interleaved]
      omega
  | succ a => rfl

theorem interleaved_origin (a b : Nat) :
    interleaved a b 0 0 = 0 := by
  induction a generalizing b with
  | zero => rfl
  | succ a ih =>
      cases b with
      | zero => rfl
      | succ b => rw [interleaved, ih]

theorem interleaved_lt
    {a b x y : Nat}
    (hX : x < 2 ^ a)
    (hY : y < 2 ^ b) :
    interleaved a b x y < 2 ^ (a + b) := by
  induction a, b, x, y using interleaved.induct with
  | case1 b x y => rwa [interleaved, Nat.zero_add]
  | case2 a x y => exact hX
  | case3 a b x y ih =>
      rw [Nat.pow_succ] at hX hY
      have hRest := ih (by omega) (by omega)
      have hPow : 2 ^ (a + 1 + (b + 1)) = 4 * 2 ^ (a + b) := by
        rw [Nat.add_add_add_comm, Nat.pow_add, Nat.mul_comm]
      rw [interleaved, hPow]
      omega

theorem encode_turns
    {n a b x y : Nat}
    (hA : a ≤ n)
    (hB : b ≤ n)
    (hX : x < 2 ^ a)
    (hY : y < 2 ^ b) :
    Interleave.encode (turns n (Axis.get a b 0))
        (Axis.get x y 0) =
      interleaved a b x y := by
  induction n generalizing a b x y with
  | zero =>
      obtain rfl := Nat.le_zero.mp hA
      obtain rfl := Nat.le_zero.mp hB
      rw [Nat.pow_zero] at hY
      rw [turns, Interleave.encode, interleaved]
      omega
  | succ n ih =>
      have hBits :
          (fun c => Axis.get a b 0 c - 1) =
            Axis.get (a - 1) (b - 1) 0 := by
        funext c
        cases c <;> rfl
      have hShare :
          ∀ c, (Axis.get x y 0 c) /
              2 ^ (Swizzle.round (Axis.get a b 0)).count c =
            Axis.get (x / 2 ^ min 1 a) (y / 2 ^ min 1 b) 0 c := by
        intro c
        rw [count_round]
        cases c with
        | width => rfl
        | height => rfl
        | depth => exact Nat.zero_div _
      have hHalf :
          ∀ {m z : Nat}, z < 2 ^ m →
            z / 2 ^ min 1 m < 2 ^ (m - 1) := by
        intro m z hZ
        cases m with
        | zero => rwa [Nat.min_zero, Nat.pow_zero, Nat.div_one]
        | succ m =>
            rw [Nat.pow_succ] at hZ
            rw [Nat.min_eq_left (by omega), Nat.pow_one,
              Nat.add_sub_cancel]
            omega
      rw [turns, Interleave.encode_append, hBits,
        funext hShare, length_round,
        ih (by omega) (by omega) (hHalf hX) (hHalf hY)]
      cases a with
      | zero =>
          cases b with
          | zero => simp [Swizzle.round, Axis.get, Interleave.encode]
          | succ b =>
              simp [Swizzle.round, Axis.get, Interleave.encode,
                interleaved]
              omega
      | succ a =>
          cases b with
          | zero =>
              have hRow : interleaved a 0 (x / 2) y = x / 2 :=
                interleaved_row (by omega) y hY
              simp [Swizzle.round, Axis.get, Interleave.encode,
                interleaved, hRow]
              omega
          | succ b =>
              simp [Swizzle.round, Axis.get, Interleave.encode,
                interleaved]

/- The address of a texel, when it fits. -/
theorem swizzleAddress_interleaved
    {a b x y : Nat}
    (hBits : a + b ≤ 32)
    (hX : x < 2 ^ a)
    (hY : y < 2 ^ b) :
    ∃ s,
      SwizzledTextureIterator.swizzleAddress ⟨a, b, 0⟩
          (BitVec.ofNat 32 x) (BitVec.ofNat 32 y) 0 =
        some s ∧
      s.toNat = interleaved a b x y := by
  have hWord :
      ∀ {m z : Nat}, m ≤ 32 → z < 2 ^ m →
        (BitVec.ofNat 32 z).toNat = z := by
    intro m z hM hZ
    have hPow := Nat.pow_le_pow_right Nat.two_pos hM
    rw [BitVec.toNat_ofNat]
    exact Nat.mod_eq_of_lt (by omega)
  have hTurns :=
    @encode_turns (a + b) a b x y (by omega) (by omega) hX hY
  refine ⟨BitVec.ofNat 32 (interleaved a b x y), ?_,
    hWord hBits (interleaved_lt hX hY)⟩
  rw [SwizzledTextureIterator.swizzleAddress_eq,
    if_pos (by exact hBits), hWord (by omega) hX,
    hWord (by omega) hY]
  exact congrArg (fun n => some (BitVec.ofNat 32 n)) hTurns

/- Where a bit of the first coordinate is placed. -/
theorem interleaved_left
    {a c : Nat}
    (hC : c < a)
    (b : Nat) :
    interleaved a b (2 ^ c) 0 = 2 ^ (c + min c b) := by
  induction c generalizing a b with
  | zero =>
      obtain ⟨a, rfl⟩ := Nat.exists_eq_add_of_le' hC
      cases b with
      | zero => rfl
      | succ b =>
          rw [interleaved, Nat.zero_min]
          exact congrArg (fun n => 1 + 4 * n)
            (interleaved_origin a b)
  | succ c ih =>
      obtain ⟨a, rfl⟩ : ∃ d, a = d + 1 := ⟨a - 1, by omega⟩
      cases b with
      | zero => rw [Nat.min_zero, interleaved, Nat.add_zero]
      | succ b =>
          have hRest := ih (Nat.lt_of_succ_lt_succ hC) b
          have hPlace :
              c + 1 + min (c + 1) (b + 1) = c + min c b + 2 := by
            omega
          rw [interleaved, Nat.pow_succ, Nat.mul_mod_left,
            Nat.mul_div_cancel _ Nat.two_pos, hRest, hPlace,
            Nat.pow_add _ _ 2]
          omega

theorem interleaved_right
    {b c : Nat}
    (hC : c < b)
    (a : Nat) :
    interleaved a b 0 (2 ^ c) = 2 ^ (c + min (c + 1) a) := by
  induction c generalizing a b with
  | zero =>
      obtain ⟨b, rfl⟩ := Nat.exists_eq_add_of_le' hC
      cases a with
      | zero => rfl
      | succ a =>
          rw [interleaved, Nat.min_eq_left (by omega)]
          exact congrArg (fun n => 2 + 4 * n)
            (interleaved_origin a b)
  | succ c ih =>
      obtain ⟨b, rfl⟩ : ∃ d, b = d + 1 := ⟨b - 1, by omega⟩
      cases a with
      | zero => rw [Nat.min_zero, interleaved, Nat.add_zero]
      | succ a =>
          have hRest := ih (Nat.lt_of_succ_lt_succ hC) a
          have hPlace :
              c + 1 + min (c + 1 + 1) (a + 1) =
                c + min (c + 1) a + 2 := by
            omega
          rw [interleaved, Nat.pow_succ, Nat.mul_mod_left,
            Nat.mul_div_cancel _ Nat.two_pos, hRest, hPlace,
            Nat.pow_add _ _ 2]
          omega

theorem interleaved_one
    {b x y : Nat}
    (hX : x < 2)
    (hY : y < 2 ^ b) :
    interleaved 1 b x y = x + 2 * y := by
  cases b with
  | zero =>
      rw [interleaved_row (by omega) y hY]
      omega
  | succ b =>
      rw [interleaved, interleaved]
      omega

------------------------------------------------------------
-- Regular Sides
------------------------------------------------------------

/-
  The address as the shader splits it, with rows that are as
  wide as the texture, and puts it together, with narrow ones.
-/
def skewed (wide narrow s : Nat) : Nat :=
  s / wide * narrow + s % wide

theorem skewed_of_lt
    {wide s : Nat}
    (hLt : s < wide)
    (narrow : Nat) :
    skewed wide narrow s = s := by
  rw [skewed, Nat.div_eq_of_lt hLt, Nat.mod_eq_of_lt hLt,
    Nat.zero_mul, Nat.zero_add]

theorem skewed_self (wide s : Nat) :
    skewed wide wide s = s :=
  Nat.div_add_mod' s wide

theorem skewed_step
    {r : Nat}
    (hR : r < 4)
    (wide narrow s : Nat) :
    skewed (4 * wide) (4 * narrow) (r + 4 * s) =
      r + 4 * skewed wide narrow s := by
  have hDiv : (r + 4 * s) / (4 * wide) = s / wide := by
    rw [← Nat.div_div_eq_div_mul]
    congr 1
    omega
  have hMod : (r + 4 * s) % (4 * wide) = r + 4 * (s % wide) := by
    rw [Nat.mod_mul]
    have hQuotient : (r + 4 * s) / 4 = s := by omega
    rw [hQuotient]
    omega
  rw [skewed, skewed, hDiv, hMod, Nat.mul_left_comm]
  omega

/- The texels of a level are found in their own order. -/
def LevelRight (a b k : Nat) : Prop :=
  ∀ x < 2 ^ (a - k), ∀ y < 2 ^ (b - k),
    skewed (2 ^ a) (2 ^ (a - k)) (interleaved a b x y) =
      interleaved (a - k) (b - k) x y

theorem levelRight_zero (a b : Nat) : LevelRight a b 0 :=
  fun _ _ _ _ => skewed_self _ _

/- A level of one texel. -/
theorem levelRight_last
    {a b k : Nat}
    (hA : a ≤ k)
    (hB : b ≤ k) :
    LevelRight a b k := by
  intro x hX y hY
  rw [Nat.sub_eq_zero_of_le hA, Nat.pow_zero,
    Nat.lt_one_iff] at hX
  rw [Nat.sub_eq_zero_of_le hB, Nat.pow_zero,
    Nat.lt_one_iff] at hY
  rw [hX, hY, interleaved_origin, interleaved_origin]
  exact skewed_of_lt (Nat.two_pow_pos a) _

theorem levelRight_row (a k : Nat) : LevelRight a 0 k := by
  intro x hX y hY
  have hPow : 2 ^ (a - k) ≤ 2 ^ a :=
    Nat.pow_le_pow_right Nat.two_pos (Nat.sub_le a k)
  rw [Nat.zero_sub] at hY ⊢
  rw [interleaved_row (by omega) y hY, interleaved_row hX y hY]
  exact skewed_of_lt (by omega) _

/- Textures with a width of one and two. -/
theorem levelRight_column
    {a : Nat}
    (hA : a ≤ 1)
    (b k : Nat) :
    LevelRight a b k := by
  by_cases hK : k = 0
  · rw [hK]
    exact levelRight_zero a b
  · intro x hX y hY
    have hPow : 2 ^ (b - k) ≤ 2 ^ b :=
      Nat.pow_le_pow_right Nat.two_pos (Nat.sub_le b k)
    have hNarrow : a - k = 0 := by omega
    rw [hNarrow] at hX ⊢
    rw [Nat.pow_zero] at hX ⊢
    rw [interleaved]
    obtain rfl | rfl : a = 0 ∨ a = 1 := by omega
    · rw [interleaved]
      exact skewed_self 1 y
    · rw [interleaved_one (by omega) (by omega), skewed]
      omega

/- The first small level of textures with a width of four. -/
theorem levelRight_four (b : Nat) : LevelRight 2 b 1 := by
  intro x hX y hY
  cases b with
  | zero => exact levelRight_row 2 1 x hX y hY
  | succ b =>
      rw [Nat.add_sub_cancel] at hY ⊢
      have hX' : x < 2 := hX
      rw [interleaved_one hX' hY, interleaved,
        interleaved_one (by omega) (by omega), skewed]
      omega

/-
  The first small level when the bits of both coordinates just
  fill a row.
-/
theorem skewed_interleaved
    {m a b x y : Nat}
    (hM : m = 2 * b ∨ m = 2 * b + 1)
    (hA : b ≤ a)
    (hX : x < 2 ^ a)
    (hY : y < 2 ^ b) :
    skewed (2 ^ (m + 1)) (2 ^ m)
        (interleaved (a + 1) (b + 1) x y) =
      interleaved a b x y := by
  induction b generalizing m a x y with
  | zero =>
      rw [interleaved, interleaved_row hX y hY,
        interleaved_row (by omega) (y / 2) (by omega), skewed]
      rw [Nat.pow_zero] at hY
      rcases hM with rfl | rfl <;> omega
  | succ b ih =>
      obtain ⟨a, rfl⟩ := Nat.exists_eq_add_of_le' hA
      obtain ⟨n, rfl⟩ : ∃ n, m = n + 2 := ⟨m - 2, by omega⟩
      rw [← Nat.add_assoc] at hX ⊢
      rw [Nat.pow_succ] at hX hY
      have hRest := @ih n (a + b) (x / 2) (y / 2) (by omega)
        (by omega) (by omega) (by omega)
      have hWide : 2 ^ (n + 2 + 1) = 4 * 2 ^ (n + 1) := by
        rw [Nat.add_right_comm, Nat.pow_add _ _ 2, Nat.mul_comm]
      have hNarrow : 2 ^ (n + 2) = 4 * 2 ^ n := by
        rw [Nat.pow_add, Nat.mul_comm]
      rw [hWide, hNarrow, interleaved,
        skewed_step (by omega), hRest, interleaved]

theorem levelRight_of_regular
    {a b n k : Nat}
    (hRegular : Regular a b n)
    (hK : k < n) :
    LevelRight a b k := by
  by_cases hZero : k = 0
  · rw [hZero]
    exact levelRight_zero a b
  by_cases hLast : a ≤ k ∧ b ≤ k
  · exact levelRight_last hLast.left hLast.right
  rcases hRegular with
    hN | hA | rfl | ⟨rfl, hMore⟩ | ⟨rfl, rfl⟩ | ⟨hN, rfl⟩
  · omega
  · exact levelRight_column hA b k
  · exact levelRight_row a k
  · obtain rfl : k = 1 := by omega
    exact levelRight_four b
  · unfold LevelRight
    obtain rfl | rfl : k = 1 ∨ k = 2 := by omega
    · decide
    · decide
  · obtain rfl : k = 1 := by omega
    cases a with
    | zero => exact levelRight_column (by omega) _ 1
    | succ a =>
        intro x hX y hY
        have hHeight : (a + 1 + 1) / 2 = a / 2 + 1 := by omega
        rw [hHeight] at hY ⊢
        exact skewed_interleaved (by omega) (by omega) hX hY

/- A texel near the start of a level is not. -/
def LevelWrong (a b k : Nat) : Prop :=
  ∃ x < 2 ^ (a - k), ∃ y < 2 ^ (b - k), ∃ p q,
    skewed (2 ^ a) (2 ^ (a - k)) (interleaved a b x y) =
        2 ^ p ∧
      interleaved (a - k) (b - k) x y = 2 ^ q ∧
        p ≠ q ∧ p ≤ 16 ∧ q ≤ 16

/- Where the shader reads the bit of an address. -/
def placed (a k p : Nat) : Nat :=
  if p < a then p else p - k

theorem skewed_bit
    {a k : Nat}
    (hK : k ≤ a)
    (p : Nat) :
    skewed (2 ^ a) (2 ^ (a - k)) (2 ^ p) =
      2 ^ placed a k p := by
  unfold placed
  by_cases hP : p < a
  · rw [if_pos hP, skewed_of_lt]
    exact Nat.pow_lt_pow_right (by decide) hP
  · have hSplit : 2 ^ p = 2 ^ a * 2 ^ (p - a) := by
      rw [← Nat.pow_add]
      congr 1
      omega
    have hSum : p - a + (a - k) = p - k := by omega
    rw [if_neg hP, skewed, hSplit, Nat.mul_mod_right,
      Nat.mul_div_cancel_left _ (Nat.two_pow_pos a),
      ← Nat.pow_add, hSum, Nat.add_zero]

theorem levelWrong_left
    {a b c k : Nat}
    (hC : c < a - k)
    (hNe : placed a k (c + min c b) ≠ c + min c (b - k))
    (hP : placed a k (c + min c b) ≤ 16)
    (hQ : c + min c (b - k) ≤ 16) :
    LevelWrong a b k := by
  refine ⟨2 ^ c, Nat.pow_lt_pow_right (by decide) hC, 0,
    Nat.two_pow_pos _, _, _, ?_, interleaved_left hC _, hNe,
    hP, hQ⟩
  rw [interleaved_left (by omega) b, skewed_bit (by omega)]

theorem levelWrong_right
    {a b c k : Nat}
    (hK : k ≤ a)
    (hC : c < b - k)
    (hNe :
      placed a k (c + min (c + 1) a) ≠ c + min (c + 1) (a - k))
    (hP : placed a k (c + min (c + 1) a) ≤ 16)
    (hQ : c + min (c + 1) (a - k) ≤ 16) :
    LevelWrong a b k := by
  refine ⟨0, Nat.two_pow_pos _, 2 ^ c,
    Nat.pow_lt_pow_right (by decide) hC, _, _, ?_,
    interleaved_right hC _, hNe, hP, hQ⟩
  rw [interleaved_right (by omega) a, skewed_bit hK]

theorem exists_levelWrong
    {a b n : Nat}
    (hA : a < 16)
    (hNot : ¬ Regular a b n) :
    ∃ k < n, LevelWrong a b k := by
  unfold Regular at hNot
  obtain rfl | hWide : a = 2 ∨ 3 ≤ a := by omega
  · refine ⟨2, by omega, ?_⟩
    apply @levelWrong_right 2 b 0 2 (by decide) (by omega) <;>
      decide
  obtain hB | hB | hB :
      b < (a + 1) / 2 ∨ b = (a + 1) / 2 ∨ (a + 1) / 2 < b := by
    omega
  · have hPlaced : placed a 1 (b + min b b) = 2 * b := by
      rw [placed, if_pos (by omega)]
      omega
    refine ⟨1, by omega, ?_⟩
    apply @levelWrong_left a b b 1 <;> omega
  · have hPlaced :
        placed a 2 (b - 1 + min (b - 1) b) = 2 * b - 2 := by
      rw [placed, if_pos (by omega)]
      omega
    refine ⟨2, by omega, ?_⟩
    apply @levelWrong_left a b (b - 1) 2 <;> omega
  · refine ⟨1, by omega, ?_⟩
    obtain rfl | hMore : a = 3 ∨ 4 ≤ a := by omega
    · apply @levelWrong_right 3 b 1 1 (by decide) (by omega) <;>
        decide
    · have hPlaced :
          placed a 1 ((a + 1) / 2 + min ((a + 1) / 2) b) =
            2 * ((a + 1) / 2) - 1 := by
        rw [placed, if_neg (by omega)]
        omega
      apply @levelWrong_left a b ((a + 1) / 2) 1 <;> omega

------------------------------------------------------------
-- Levels
------------------------------------------------------------

theorem uint_of_lt {n : Nat} (hN : n < 2 ^ 32) : uint n = n :=
  Nat.mod_eq_of_lt hN

theorem uint_add_left (m n : Nat) :
    uint (uint m + n) = uint (m + n) :=
  Nat.mod_add_mod m _ n

theorem uint_add (l m n : Nat) :
    uint (uint l + uint m + n) = uint (l + m + n) := by
  unfold uint
  omega

theorem side_le (n k : Nat) : side n k ≤ max n 1 := by
  induction k with
  | zero => exact Nat.le_max_left n 1
  | succ k ih =>
      rw [side]
      omega

theorem side_two_pow (a k : Nat) :
    side (2 ^ a) k = 2 ^ (a - k) := by
  induction k with
  | zero => rfl
  | succ k ih =>
      rw [side, ih]
      by_cases hK : k < a
      · have hStep : a - k = a - (k + 1) + 1 := by omega
        have hPos := Nat.two_pow_pos (a - (k + 1))
        rw [hStep, Nat.pow_succ, Nat.mul_div_cancel _ Nat.two_pos]
        omega
      · rw [Nat.sub_eq_zero_of_le (by omega),
          Nat.sub_eq_zero_of_le (by omega)]
        rfl

theorem getTexelSize_bounds (f : GcmTextureFormat) :
    ∃ t ≤ 4, getTexelSize f = 2 ^ t := by
  cases f
  case b8 => exact ⟨0, by decide, rfl⟩
  case a8r8g8b8 => exact ⟨2, by decide, rfl⟩
  case d8r8g8b8 => exact ⟨2, by decide, rfl⟩
  case y16x16Float => exact ⟨2, by decide, rfl⟩
  case w16z16y16x16Float => exact ⟨3, by decide, rfl⟩
  case w32z32y32x32Float => exact ⟨4, by decide, rfl⟩
  all_goals exact ⟨1, by decide, rfl⟩

/- The shader steps by the size that the uniform has. -/
theorem sourceStep_eq (f : GcmTextureFormat) :
    sourceStep f = getTexelSize f := by
  cases f <;> rfl

namespace RsxTextureInfo

variable (t : RsxTextureInfo)

theorem texelSize_le : t.texelSize ≤ 16 := by
  obtain ⟨e, hLe, hEq⟩ := getTexelSize_bounds t.format
  have hPow := Nat.pow_le_pow_right Nat.two_pos hLe
  rw [texelSize, hEq]
  exact hPow

theorem levelPitch_lt (k : Nat) : t.levelPitch k < 2 ^ 32 := by
  unfold levelPitch
  split
  case isTrue => exact t.pitch.isLt
  case isFalse =>
    have hSide := side_le t.width.toNat k
    have hWidth := t.width.isLt
    have hProduct :
        t.levelWidth k * t.texelSize ≤ 2 ^ 16 * 16 := by
      apply Nat.mul_le_mul _ t.texelSize_le
      unfold levelWidth
      omega
    omega

theorem levelTop_succ (k : Nat) :
    t.levelTop (k + 1) = t.levelTop k + t.levelHeight k :=
  Finset.sum_range_succ _ k

theorem levelTop_mono {j k : Nat} (hLe : j ≤ k) :
    t.levelTop j ≤ t.levelTop k :=
  Finset.sum_le_sum_of_subset
    (Finset.range_subset_range.mpr hLe)

theorem levelBase_succ (k : Nat) :
    t.levelBase (k + 1) =
      t.levelBase k + t.levelPitch k * t.levelHeight k :=
  Finset.sum_range_succ _ k

/- The variables when the loop reaches a level. -/
def search (k y : Nat) : LevelSearch where
  y := y
  offset := uint (t.levelBase k)
  levelWidth := t.levelWidth k
  levelHeight := t.levelHeight k
  levelPitch := t.levelPitch k

theorem search_zero (y : Nat) :
    t.search 0 y =
      ⟨y, 0, t.width.toNat, t.height.toNat,
        (loadTexture t).pitch⟩ := by
  simp only [search, levelWidth, levelHeight, levelPitch,
    levelBase, side, loadTexture, texelSize, uint,
    Finset.range_zero, Finset.sum_empty, Nat.zero_mod,
    Nat.mul_comm]

theorem getLevel_succ
    (n k y : Nat) :
    getLevel (loadTexture t) (n + 1) k (t.search k y) =
      if y < t.levelHeight k then some (k, t.search k y)
      else
        getLevel (loadTexture t) n (k + 1)
          (t.search (k + 1) (y - t.levelHeight k)) := by
  have hPitch :
      (if (loadTexture t).isSwizzled then
          uint (max (t.levelWidth k / 2) 1 *
            (loadTexture t).texelSize)
        else t.levelPitch k) =
        t.levelPitch (k + 1) := by
    have hLt := t.levelPitch_lt (k + 1)
    unfold levelPitch at hLt ⊢
    cases hLinear : t.linear
    case true => simp [loadTexture, hLinear]
    case false =>
      rw [hLinear, if_neg Bool.false_ne_true] at hLt
      simp only [loadTexture, hLinear]
      exact uint_of_lt hLt
  have hOffset :
      uint (uint (t.levelBase k) +
          t.levelPitch k * t.levelHeight k) =
        uint (t.levelBase (k + 1)) := by
    rw [uint_add_left, levelBase_succ]
  rw [getLevel]
  congr 1
  simp only [search, hPitch, hOffset]
  rfl

/- The level that a row of the stack belongs to. -/
theorem getLevel_eq_some
    {n level y k : Nat}
    {s : LevelSearch} :
    getLevel (loadTexture t) n level (t.search level y) =
        some (k, s) ↔
      ∃ v,
        level ≤ k ∧ k < level + n ∧ v < t.levelHeight k ∧
          y + t.levelTop level = t.levelTop k + v ∧
            s = t.search k v := by
  induction n generalizing level y with
  | zero =>
      constructor
      · intro hNone
        cases hNone
      · rintro ⟨v, hLow, hHigh, -⟩
        omega
  | succ n ih =>
      have hTop := t.levelTop_succ level
      rw [getLevel_succ]
      by_cases hHere : y < t.levelHeight level
      · rw [if_pos hHere]
        constructor
        · intro hSome
          cases hSome
          exact ⟨y, Nat.le_refl _, by omega, hHere,
            Nat.add_comm _ _, rfl⟩
        · rintro ⟨v, hLow, hHigh, hV, hRow, rfl⟩
          obtain rfl | hMore := Nat.eq_or_lt_of_le hLow
          · obtain rfl : y = v := by omega
            rfl
          · have hMono := @levelTop_mono t (level + 1) k hMore
            omega
      · rw [if_neg hHere, ih]
        constructor
        · rintro ⟨v, hLow, hHigh, hV, hRow, rfl⟩
          exact ⟨v, by omega, by omega, hV, by omega, rfl⟩
        · rintro ⟨v, hLow, hHigh, hV, hRow, rfl⟩
          obtain rfl | hMore := Nat.eq_or_lt_of_le hLow
          · omega
          · exact ⟨v, hMore, by omega, hV, by omega, rfl⟩

/- The pitches that `getImageSize` takes. -/
def countedPitch (k : Nat) : Nat :=
  if t.linear then t.pitch.toNat
  else side (t.texelSize * t.width.toNat) k

def countedBase (k : Nat) : Nat :=
  ∑ j ∈ Finset.range k, t.countedPitch j * t.levelHeight j

theorem imageSizeLoop_eq (n k : Nat) :
    imageSizeLoop (loadTexture t) n (t.countedPitch k)
        (t.levelHeight k) (uint (t.countedBase k)) =
      uint (t.countedBase (k + n)) := by
  induction n generalizing k with
  | zero => rfl
  | succ n ih =>
      have hPitch :
          (if (loadTexture t).isSwizzled then
              max (t.countedPitch k / 2) 1
            else t.countedPitch k) =
            t.countedPitch (k + 1) := by
        unfold countedPitch
        cases hLinear : t.linear <;>
          simp [loadTexture, hLinear, side]
      have hOffset :
          uint (uint (t.countedBase k) +
              t.countedPitch k * t.levelHeight k) =
            uint (t.countedBase (k + 1)) := by
        rw [uint_add_left, countedBase, countedBase,
          Finset.sum_range_succ]
      rw [imageSizeLoop, hPitch, hOffset, Nat.add_comm n,
        ← Nat.add_assoc]
      exact ih (k + 1)

theorem getImageSize_eq :
    getImageSize (loadTexture t) (loadTexture t).pitch
        t.height.toNat =
      uint (t.countedBase t.levels) := by
  have hLoop := t.imageSizeLoop_eq t.levels 0
  rw [Nat.zero_add] at hLoop
  exact hLoop

/- Layers are placed right when the size is. -/
theorem getLayerOffset_eq
    (hSize :
      getImageSize (loadTexture t) (loadTexture t).pitch
        t.height.toNat = uint t.imageSize)
    (z : Nat) :
    getLayerOffset (loadTexture t) z (loadTexture t).pitch
        t.height.toNat =
      uint (t.layerBase z) := by
  have hCube : (loadTexture t).cube = t.fragmentCubemap := rfl
  have hAlign :
      (align (BitVec.ofNat 32 (uint t.imageSize)) 128).toNat =
        (t.imageSize + 127) / 128 * 128 % 2 ^ 32 := by
    have hHigh :
        ((BitVec.ofNat 32 (uint t.imageSize) + 128 - 1) &&&
            ~~~127#32).toNat =
          (BitVec.ofNat 32 (uint t.imageSize) + 128 - 1).toNat /
            2 ^ 7 * 2 ^ 7 :=
      Masks.toNat_and_high _ 7 (by omega)
    have hSum :
        (BitVec.ofNat 32 (uint t.imageSize) + 128 - 1).toNat =
          (t.imageSize + 127) % 2 ^ 32 := by
      rw [BitVec.toNat_sub, BitVec.toNat_add,
        BitVec.toNat_ofNat, uint]
      change
        (2 ^ 32 - 1 + (t.imageSize % 2 ^ 32 % 2 ^ 32 + 128) %
          2 ^ 32) % 2 ^ 32 = _
      omega
    rw [hSum] at hHigh
    exact hHigh.trans (by omega)
  rw [getLayerOffset, layerBase, hCube, hSize]
  split
  case isTrue =>
    dsimp only
    rw [hAlign, uint, Nat.mod_mul_mod]
    rfl
  case isFalse => rfl

theorem getLayerOffset_zero (i : TextureInfoUniform)
    (pitch height : Nat) :
    getLayerOffset i 0 pitch height = 0 := by
  unfold getLayerOffset
  split <;> rfl

/- The texel that the shader reads at a coordinate. -/
def readTexel (z k u v : Nat) : Texel where
  level := k
  dest := (u, v)
  byteIndex :=
    (source (loadTexture t) u v).map (fun src =>
      uint (uint (t.levelBase k) +
        getLayerOffset (loadTexture t) z (loadTexture t).pitch
          t.height.toNat +
        (src.2 * t.levelPitch k + src.1 * t.texelSize)))

/- A position is in one level, or it is discarded. -/
theorem main_eq_some
    {z x y : Nat}
    {s : Texel} :
    main (loadTexture t) z x y = some s ↔
      ∃ k v,
        k < t.levels ∧ x < t.levelWidth k ∧
          v < t.levelHeight k ∧ y = t.levelTop k + v ∧
            s = t.readTexel z k x v := by
  have hStart :
      (⟨y, 0, (loadTexture t).width, (loadTexture t).height,
          (loadTexture t).pitch⟩ : LevelSearch) =
        t.search 0 y :=
    (t.search_zero y).symm
  have hStep :
      sourceStep (loadTexture t).format = t.texelSize :=
    sourceStep_eq t.format
  have hLevel := @getLevel_eq_some t t.levels 0 y
  have hTop : t.levelTop 0 = 0 := rfl
  rw [main, hStart, hStep]
  constructor
  · intro hMain
    cases hFound :
        getLevel (loadTexture t) (loadTexture t).levels 0
          (t.search 0 y) with
    | none =>
        rw [hFound] at hMain
        cases hMain
    | some found =>
        obtain ⟨k, found⟩ := found
        rw [hFound] at hMain
        obtain ⟨v, -, hK, hV, hRow, rfl⟩ := hLevel.mp hFound
        dsimp only at hMain
        split at hMain
        case isTrue => cases hMain
        case isFalse hX =>
          cases hMain
          exact ⟨k, v, by omega, Nat.lt_of_not_le hX, hV,
            by omega, rfl⟩
  · rintro ⟨k, v, hK, hX, hV, hRow, rfl⟩
    have hFound :
        getLevel (loadTexture t) (loadTexture t).levels 0
            (t.search 0 y) =
          some (k, t.search k v) :=
      hLevel.mpr
        ⟨v, Nat.zero_le k, by omega, hV, by omega, rfl⟩
    rw [hFound]
    exact if_neg (Nat.not_le_of_lt hX)

theorem addressed_iff_texels :
    t.Addressed ↔
      uint (t.countedBase t.levels) = uint t.imageSize ∧
        ∀ z, ∀ k < t.levels, ∀ u < t.levelWidth k,
          ∀ v < t.levelHeight k,
            t.readTexel z k u v = t.texel z k u v := by
  constructor
  · intro hAddressed
    refine ⟨t.getImageSize_eq.symm.trans hAddressed.imageSize,
      ?_⟩
    intro z k hK u hU v hV
    have hRead :=
      (@main_eq_some t z u (t.levelTop k + v) _).mpr
        ⟨k, v, hK, hU, hV, rfl, rfl⟩
    have hTexel :=
      (hAddressed.texels z u (t.levelTop k + v) _).mpr
        ⟨k, v, hK, hU, hV, rfl, rfl⟩
    exact Option.some.inj (hRead.symm.trans hTexel)
  · rintro ⟨hSize, hTexels⟩
    have hImage := t.getImageSize_eq.trans hSize
    refine ⟨hImage, t.getLayerOffset_eq hImage, ?_⟩
    intro z x y s
    rw [main_eq_some]
    constructor
    · rintro ⟨k, v, hK, hX, hV, hRow, rfl⟩
      exact ⟨k, v, hK, hX, hV, hRow,
        hTexels z k hK x hX v hV⟩
    · rintro ⟨k, v, hK, hX, hV, hRow, rfl⟩
      exact ⟨k, v, hK, hX, hV, hRow,
        (hTexels z k hK x hX v hV).symm⟩

------------------------------------------------------------
-- Linear and Swizzled Textures
------------------------------------------------------------

theorem addressed_of_linear (hLinear : t.linear = true) :
    t.Addressed := by
  have hCounted : t.countedBase t.levels = t.imageSize := by
    simp only [countedBase, imageSize, levelBase, countedPitch,
      levelPitch, hLinear, if_true]
  have hSize := congrArg uint hCounted
  have hLayer :=
    t.getLayerOffset_eq (t.getImageSize_eq.trans hSize)
  refine t.addressed_iff_texels.mpr ⟨hSize, ?_⟩
  intro z k hK u hU v hV
  have hSource :
      source (loadTexture t) u v = some (u, v) := by
    simp [source, loadTexture, hLinear]
  simp only [readTexel, texel, hSource, texelOffset, hLinear,
    if_true, Option.map_some, hLayer, uint_add]

variable {t} {a b : Nat}

theorem log_lt
    {w : BitVec 16}
    (hPow : w.toNat = 2 ^ a) :
    a < 16 := by
  have hLt := w.isLt
  rw [hPow] at hLt
  exact (Nat.pow_lt_pow_iff_right (by decide)).mp hLt

/- What the sides are powers of. -/
structure Sides (t : RsxTextureInfo) (a b : Nat) : Prop where
  swizzled : t.linear = false
  width : t.width.toNat = 2 ^ a
  height : t.height.toNat = 2 ^ b

variable (hSides : t.Sides a b)

include hSides

theorem Sides.levelWidth (k : Nat) :
    t.levelWidth k = 2 ^ (a - k) := by
  rw [RsxTextureInfo.levelWidth, hSides.width, side_two_pow]

theorem Sides.levelHeight (k : Nat) :
    t.levelHeight k = 2 ^ (b - k) := by
  rw [RsxTextureInfo.levelHeight, hSides.height, side_two_pow]

theorem Sides.levelPitch (k : Nat) :
    t.levelPitch k = 2 ^ (a - k) * t.texelSize := by
  rw [RsxTextureInfo.levelPitch, hSides.swizzled,
    hSides.levelWidth, if_neg Bool.false_ne_true]

theorem Sides.source_eq
    {k u v : Nat}
    (hU : u < 2 ^ (a - k))
    (hV : v < 2 ^ (b - k)) :
    source (loadTexture t) u v =
      some
        (interleaved a b u v % 2 ^ a,
          interleaved a b u v / 2 ^ a) := by
  have hA := log_lt hSides.width
  have hB := log_lt hSides.height
  have hU' : u < 2 ^ a :=
    Nat.lt_of_lt_of_le hU
      (Nat.pow_le_pow_right Nat.two_pos (Nat.sub_le a k))
  have hV' : v < 2 ^ b :=
    Nat.lt_of_lt_of_le hV
      (Nat.pow_le_pow_right Nat.two_pos (Nat.sub_le b k))
  have hWidth : Nat.log2 (loadTexture t).width = a := by
    rw [loadTexture, hSides.width, Nat.log2_two_pow]
  have hHeight : Nat.log2 (loadTexture t).height = b := by
    rw [loadTexture, hSides.height, Nat.log2_two_pow]
  have hSwizzled : (loadTexture t).isSwizzled = true := by
    rw [loadTexture, hSides.swizzled]
    rfl
  obtain ⟨s, hAddress, hS⟩ :=
    swizzleAddress_interleaved (by omega) hU' hV'
  rw [source, hSwizzled, if_pos rfl, hWidth, hHeight]
  dsimp only
  rw [hAddress, Option.map_some, hS]

theorem Sides.texelOffset_eq
    {k u v : Nat}
    (hU : u < 2 ^ (a - k))
    (hV : v < 2 ^ (b - k)) :
    t.texelOffset k u v =
      some
        (t.texelSize * interleaved (a - k) (b - k) u v) := by
  have hA := log_lt hSides.width
  have hB := log_lt hSides.height
  obtain ⟨s, hAddress, hS⟩ :=
    swizzleAddress_interleaved (by omega) hU hV
  rw [texelOffset, hSides.swizzled, if_neg Bool.false_ne_true,
    levelIterator, hSides.levelWidth, hSides.levelHeight,
    Nat.log2_two_pow, Nat.log2_two_pow, hAddress,
    Option.map_some, hS]

/- The two orders of a level's texels are compared. -/
theorem Sides.readTexel_eq_iff
    {z k u v : Nat}
    (hLayer :
      getLayerOffset (loadTexture t) z (loadTexture t).pitch
        t.height.toNat = uint (t.layerBase z))
    (hU : u < 2 ^ (a - k))
    (hV : v < 2 ^ (b - k)) :
    t.readTexel z k u v = t.texel z k u v ↔
      uint (t.levelBase k + t.layerBase z +
          t.texelSize *
            skewed (2 ^ a) (2 ^ (a - k))
              (interleaved a b u v)) =
        uint (t.levelBase k + t.layerBase z +
          t.texelSize * interleaved (a - k) (b - k) u v) := by
  have hSum :
      ∀ s,
        s / 2 ^ a * (2 ^ (a - k) * t.texelSize) +
            s % 2 ^ a * t.texelSize =
          t.texelSize * skewed (2 ^ a) (2 ^ (a - k)) s := by
    intro s
    rw [skewed, Nat.mul_add, Nat.mul_comm t.texelSize,
      Nat.mul_comm t.texelSize, Nat.mul_assoc]
  simp only [readTexel, texel, hSides.source_eq hU hV,
    hSides.texelOffset_eq hU hV, hSides.levelPitch, hLayer,
    Option.map_some, hSum, uint_add, Texel.mk.injEq, true_and,
    Option.some.injEq]

theorem Sides.not_levelWrong
    {k : Nat}
    (hTexels :
      ∀ u < t.levelWidth k, ∀ v < t.levelHeight k,
        t.readTexel 0 k u v = t.texel 0 k u v) :
    ¬ LevelWrong a b k := by
  rintro ⟨u, hU, v, hV, p, q, hRead, hOwn, hNe, hP, hQ⟩
  have hLayer :
      getLayerOffset (loadTexture t) 0 (loadTexture t).pitch
        t.height.toNat = uint (t.layerBase 0) := by
    rw [getLayerOffset_zero, layerBase, Nat.mul_zero, ite_self]
    rfl
  have hTexel := hTexels u (by rwa [hSides.levelWidth]) v
    (by rwa [hSides.levelHeight])
  rw [hSides.readTexel_eq_iff hLayer hU hV, hRead, hOwn]
    at hTexel
  obtain ⟨e, hE, hSize⟩ := getTexelSize_bounds t.format
  have hBound :
      ∀ n ≤ 16, t.texelSize * 2 ^ n < 2 ^ 32 := by
    intro n hN
    rw [texelSize, hSize, ← Nat.pow_add]
    exact Nat.pow_lt_pow_right (by decide) (by omega)
  have hLow := hBound p hP
  have hHigh := hBound q hQ
  have hSame : t.texelSize * 2 ^ p = t.texelSize * 2 ^ q := by
    unfold uint at hTexel
    omega
  rw [texelSize, hSize, ← Nat.pow_add, ← Nat.pow_add] at hSame
  have hSum := Nat.pow_right_injective (by decide) hSame
  exact hNe (Nat.add_left_cancel hSum)

theorem Sides.pitches
    {e : Nat}
    (hSize : t.texelSize = 2 ^ e)
    (k : Nat) :
    t.levelPitch k = 2 ^ (a - k + e) ∧
      t.countedPitch k = 2 ^ (a + e - k) := by
  constructor
  · rw [hSides.levelPitch, hSize, Nat.pow_add]
  · rw [countedPitch, hSides.swizzled,
      if_neg Bool.false_ne_true, hSides.width, hSize,
      ← Nat.pow_add, side_two_pow, Nat.add_comm]

/- The size of the image is right without narrow levels. -/
theorem Sides.counted_iff :
    uint (t.countedBase t.levels) = uint t.imageSize ↔
      t.levels ≤ a + 1 ∨ t.texelSize = 1 := by
  obtain ⟨e, hE, hSize⟩ := getTexelSize_bounds t.format
  have hPitches := hSides.pitches hSize
  have hLe : ∀ k, t.countedPitch k ≤ t.levelPitch k := by
    intro k
    rw [(hPitches k).left, (hPitches k).right]
    exact Nat.pow_le_pow_right Nat.two_pos (by omega)
  constructor
  · intro hEq
    by_contra hNot
    rw [not_or] at hNot
    have hE' : e ≠ 0 := by
      rintro rfl
      exact hNot.right hSize
    have hLess : t.countedBase t.levels < t.imageSize := by
      apply Finset.sum_lt_sum
      · intro k _
        exact Nat.mul_le_mul_right _ (hLe k)
      · refine ⟨a + 1, Finset.mem_range.mpr (by omega), ?_⟩
        rw [(hPitches _).left, (hPitches _).right,
          hSides.levelHeight]
        apply Nat.mul_lt_mul_of_pos_right _ (Nat.two_pow_pos _)
        exact Nat.pow_lt_pow_right (by decide) (by omega)
    have hNear :
        t.imageSize ≤
          t.countedBase t.levels + t.levels * 2 ^ 19 := by
      have hRest :
          ∑ _k ∈ Finset.range t.levels, 2 ^ 19 =
            t.levels * 2 ^ 19 := by
        rw [Finset.sum_const_nat (fun _ _ => rfl),
          Finset.card_range]
      rw [RsxTextureInfo.imageSize, levelBase, countedBase,
        ← hRest, ← Finset.sum_add_distrib]
      apply Finset.sum_le_sum
      intro k _
      rw [(hPitches k).left, (hPitches k).right,
        hSides.levelHeight]
      by_cases hK : k ≤ a
      · have hSame : a - k + e = a + e - k := by omega
        rw [hSame]
        exact Nat.le_add_right _ _
      · have hHeight := log_lt hSides.height
        have hNarrow : 2 ^ (a - k + e) * 2 ^ (b - k) ≤ 2 ^ 19 := by
          rw [← Nat.pow_add]
          exact Nat.pow_le_pow_right Nat.two_pos (by omega)
        omega
    have hLevels : t.levels < 2 ^ 8 := t.mipmap.isLt
    unfold uint at hEq
    omega
  · intro hFew
    have hSums : t.countedBase t.levels = t.imageSize := by
      apply Finset.sum_congr rfl
      intro k hK
      have hLt := Finset.mem_range.mp hK
      congr 1
      rw [(hPitches k).left, (hPitches k).right]
      congr 1
      rcases hFew with hLevels | hOne
      · omega
      · have hZero : e = 0 := by
          rw [texelSize, hSize] at hOne
          exact (Nat.pow_eq_one.mp hOne).resolve_left (by decide)
        omega
    exact congrArg uint hSums

end RsxTextureInfo

/-
  The levels are addressed right just when the texture is
  linear, or small and of regular sides.
-/
theorem addressed_iff
    (t : RsxTextureInfo)
    (hPowers : t.PowersOfTwo) :
    t.Addressed ↔ t.Plain := by
  by_cases hLinear : t.linear = true
  · exact iff_of_true (t.addressed_of_linear hLinear)
      (.inl hLinear)
  · have hSwizzled : t.linear = false :=
      Bool.eq_false_of_not_eq_true hLinear
    obtain ⟨a, b, hWidth, hHeight⟩ := hPowers hSwizzled
    have hSides : t.Sides a b := ⟨hSwizzled, hWidth, hHeight⟩
    rw [RsxTextureInfo.Plain, or_iff_right hLinear, hWidth,
      hHeight, Nat.log2_two_pow, Nat.log2_two_pow,
      t.addressed_iff_texels, hSides.counted_iff]
    apply and_congr_right
    intro hCounted
    have hLayer :=
      t.getLayerOffset_eq
        (t.getImageSize_eq.trans (hSides.counted_iff.mpr hCounted))
    constructor
    · intro hTexels
      by_contra hNot
      obtain ⟨k, hK, hWrong⟩ :=
        exists_levelWrong (RsxTextureInfo.log_lt hWidth) hNot
      exact hSides.not_levelWrong (hTexels 0 k hK) hWrong
    · intro hRegular z k hK u hU v hV
      rw [hSides.levelWidth] at hU
      rw [hSides.levelHeight] at hV
      have hRight := levelRight_of_regular hRegular hK u hU v hV
      rw [hSides.readTexel_eq_iff (hLayer z) hU hV, hRight]

/- A swizzled texture of two by two texels. -/
theorem addressed_iff_square :
    RsxTextureInfo.PowersOfTwo
        ⟨0, 2, 2, 2, .a8r8g8b8, false, true⟩ ∧
      (RsxTextureInfo.Addressed
          ⟨0, 2, 2, 2, .a8r8g8b8, false, true⟩ ↔
        RsxTextureInfo.Plain
          ⟨0, 2, 2, 2, .a8r8g8b8, false, true⟩) :=
  ⟨fun _ => ⟨1, 1, rfl, rfl⟩,
    addressed_iff _ (fun _ => ⟨1, 1, rfl, rfl⟩)⟩

/- In one of eight by eight, two texels have the same place. -/
theorem eight_not_addressed :
    ¬ RsxTextureInfo.Addressed
      ⟨0, 8, 8, 4, .a8r8g8b8, false, false⟩ := by
  intro hAddressed
  have hSides :
      RsxTextureInfo.Sides
        ⟨0, 8, 8, 4, .a8r8g8b8, false, false⟩ 3 3 :=
    ⟨rfl, rfl, rfl⟩
  have hTexels :=
    (RsxTextureInfo.addressed_iff_texels _).mp hAddressed
  apply hSides.not_levelWrong (hTexels.right 0 1 (by decide))
  apply @levelWrong_right 3 3 1 1 <;> decide

end TextureLevels

end Ps3emu
