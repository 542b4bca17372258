import Ps3emu.Library.Bytes
import Ps3emu.Rsx.BlockTexture
import Ps3emu.Rsx.Swizzle

/-
  Transfers of images by the shader of `TransferImageProgram`,
  with as many destination pixels as source pixels.

  Key definitions include:
    * `Span.Inside`, `Span.position`
    * `convert`, `Converts`
    * `Transfer.invocation`
    * `Transfer.Copies`
    * `Transfer.Plain`

  Key theorems include:
    * `Span.accepts_iff`
    * `narrowTo_expand`
    * `exact_of_low`, `converts_of_exact`
    * `Transfer.copies_iff_plain`
    * `Transfer.run_of_copies`
-/

------------------------------------------------------------
-- Buffers and Formats
------------------------------------------------------------

namespace Ps3emu

namespace TransferImage

/- An array `u32[]` of the shader. -/
abbrev Buffer := Nat → BitVec 32

def endianReverse (i : BitVec 32) : BitVec 32 :=
  ((i &&& 0xff#32) <<< 24) ||| ((i &&& 0xff00#32) <<< 8) |||
    ((i &&& 0xff0000#32) >>> 8) |||
      ((i &&& 0xff000000#32) >>> 24)

def read32Be (src : Buffer) (byteIndex : Nat) : BitVec 32 :=
  let wordIndex := byteIndex / 4
  let subwordIndex := byteIndex % 4
  let word := endianReverse (src wordIndex)
  if subwordIndex = 0 then word
  else
    let nextWord := endianReverse (src (wordIndex + 1))
    (word <<< (subwordIndex * 8)) |||
      (nextWord >>> (32 - subwordIndex * 8))

def write32AlignedBe
    (dst : Buffer)
    (byteIndex : Nat)
    (val : BitVec 32) : Buffer :=
  Function.update dst (byteIndex / 4) (endianReverse val)

/- The exchange succeeds when nothing else writes the word. -/
def write16AlignedBe
    (dst : Buffer)
    (byteIndex : Nat)
    (val : BitVec 32) : Buffer :=
  let oldBe := endianReverse (dst (byteIndex / 4))
  let new :=
    if byteIndex % 4 = 2 then (oldBe &&& 0xffff0000#32) ||| val
    else (oldBe &&& 0xffff#32) ||| (val <<< 16)
  Function.update dst (byteIndex / 4) (endianReverse new)

/- A byte of an array. -/
def byteAt (m : Buffer) (j : Nat) : Byte :=
  (m (j / 4)).extractLsb' (8 * (j % 4)) 8

inductive ScaleSettingsFormat where
  | r5g6b5
  | a8r8g8b8
  | y32
deriving DecidableEq

inductive PixelSize where
  | two | four
deriving DecidableEq

def PixelSize.bytes : PixelSize → Nat
  | .two => 2
  | .four => 4

def ScaleSettingsFormat.pixelSize :
    ScaleSettingsFormat → PixelSize
  | .r5g6b5 => .two
  | .a8r8g8b8 | .y32 => .four

open BlockTexture (ext8 bitfieldExtract expand)

def widen (srcPixel : BitVec 32) : BitVec 32 :=
  let r := ext8 (bitfieldExtract srcPixel 11 6) 6
  let g := ext8 (bitfieldExtract srcPixel 5 6) 6
  let b := ext8 (bitfieldExtract srcPixel 0 5) 5
  BitVec.ofNat 32 ((r <<< 16) ||| (g <<< 8) ||| b)

def narrow (srcPixel : BitVec 32) : BitVec 32 :=
  let r :=
    ((srcPixel >>> 16) &&& 0xff#32).toNat * (1 <<< 5) / 255
  let g :=
    ((srcPixel >>> 8) &&& 0xff#32).toNat * (1 <<< 6) / 255
  let b := (srcPixel &&& 0xff#32).toNat * (1 <<< 5) / 255
  BitVec.ofNat 32 ((r <<< 11) ||| (g <<< 5) ||| b)

/- `dstPixel`, for the sizes of the two pixels. -/
def convert : PixelSize → PixelSize → BitVec 32 → BitVec 32
  | .two, .four, p => widen p
  | .four, .two, p => narrow p
  | .two, .two, p | .four, .four, p => p

def readPixel
    (src : Buffer)
    (size : PixelSize)
    (byteIndex : Nat) : BitVec 32 :=
  match size with
  | .two => read32Be src byteIndex >>> 16
  | .four => read32Be src byteIndex

def writePixel
    (dst : Buffer)
    (size : PixelSize)
    (byteIndex : Nat)
    (p : BitVec 32) : Buffer :=
  match size with
  | .two => write16AlignedBe dst byteIndex p
  | .four => write32AlignedBe dst byteIndex p

------------------------------------------------------------
-- Spans
------------------------------------------------------------

/-
  What the shader is given for one of the two coordinates.  The
  source starts at a fixed-point number of sixteenths, which a
  `float` holds.
-/
structure Span where
  dst : BitVec 16
  dstSize : BitVec 16
  clip : BitVec 16
  clipSize : BitVec 16
  src : BitVec 16
  srcSize : BitVec 16

namespace Span

variable (s : Span)

def dstEnd : Int := s.dst.toInt + s.dstSize.toNat

def clipEnd : Int := s.clip.toInt + s.clipSize.toNat

def uint (n : Int) : Nat := (n % 2 ^ 32).toNat

def int16 (n : Int) : Int := (n + 2 ^ 15) % 2 ^ 16 - 2 ^ 15

/- `dstX0` and `dstXn`. -/
def first : Int := max s.dst.toInt s.clip.toInt

def last : Nat := min (uint s.dstEnd) (uint s.clipEnd)

def clipDiff : Int :=
  if s.clip.toInt > s.dst.toInt then
    s.clip.toInt - s.dst.toInt
  else 0

/- The position passes the tests of the shader. -/
def Accepts (p : Nat) : Prop :=
  ¬ (p : Int) < s.first ∧ ¬ p ≥ s.last

/- `srcX`, with a scale of one. -/
def source (p : Nat) : Nat :=
  (min (max (s.src.toNat + 16 * ((p : Int) - s.first +
      s.clipDiff)) 0) (16 * (s.srcSize.toNat - 1)) / 16).toNat

/- The groups that `transfer` asks for.  A negative number is
   refused. -/
def groups : Int :=
  (min (int16 s.dstEnd) (int16 s.clipEnd) + 31).tdiv 32

def Dispatched (p : Nat) : Prop := (p : Int) < 32 * s.groups

/- The position is in the destination and in the clip. -/
def Inside (p : Nat) : Prop :=
  (s.dst.toInt ≤ p ∧ (p : Int) < s.dstEnd) ∧
    s.clip.toInt ≤ p ∧ (p : Int) < s.clipEnd

instance (p : Nat) : Decidable (s.Accepts p) :=
  inferInstanceAs (Decidable (¬ _ ∧ ¬ _))

instance (p : Nat) : Decidable (s.Dispatched p) :=
  inferInstanceAs (Decidable ((_ : Int) < _))

/- The same position of the source, or its last one. -/
def position (p : Nat) : Nat :=
  min ((s.src.toNat + 16 * ((p : Int) - s.dst.toInt).toNat) / 16)
    (s.srcSize.toNat - 1)

variable {p : Nat}

/- Where there is a group, both of the ends are positive. -/
theorem ends_pos
    (hDispatched : s.Dispatched p) :
    0 < int16 s.dstEnd ∧ 0 < int16 s.clipEnd := by
  unfold Dispatched groups at hDispatched
  generalize int16 s.dstEnd = d at *
  generalize int16 s.clipEnd = c at *
  by_cases hM : 0 ≤ min d c + 31
  · rw [Int.tdiv_eq_ediv_of_nonneg hM] at hDispatched
    omega
  · have hNeg : 0 ≤ (-(min d c + 31)).tdiv 32 :=
      Int.tdiv_nonneg (by omega) (by decide)
    rw [Int.neg_tdiv] at hNeg
    omega

/- The tests are right where the shader runs. -/
theorem accepts_iff
    (hDispatched : s.Dispatched p) :
    s.Accepts p ↔ s.Inside p := by
  have hEnds := s.ends_pos hDispatched
  have hDst : -2 ^ 15 ≤ s.dst.toInt := s.dst.le_toInt
  have hDst' : s.dst.toInt < 2 ^ 15 := s.dst.toInt_lt
  have hClip : -2 ^ 15 ≤ s.clip.toInt := s.clip.le_toInt
  have hClip' : s.clip.toInt < 2 ^ 15 := s.clip.toInt_lt
  have hSize := s.dstSize.isLt
  have hSize' := s.clipSize.isLt
  unfold int16 dstEnd clipEnd at hEnds
  unfold Accepts Inside first last uint dstEnd clipEnd
  omega

theorem source_eq
    (hSize : 0 < s.srcSize.toNat)
    (hInside : s.Inside p) :
    s.source p = s.position p := by
  unfold Inside at hInside
  unfold source position first clipDiff
  split <;> omega

end Span

------------------------------------------------------------
-- Bytes
------------------------------------------------------------

/- Byte `i` of a pixel in memory, highest byte first. -/
def pixelByte
    (size : PixelSize)
    (p : BitVec 32)
    (i : Nat) : Byte :=
  p.extractLsb' (8 * (size.bytes - 1 - i)) 8

/- The pixel in the bytes at an address. -/
def pixelAt
    (m : Buffer)
    (size : PixelSize)
    (a : Nat) : BitVec 32 :=
  match size with
  | .two =>
      (byteAt m a ++ byteAt m (a + 1) : BitVec 16).setWidth 32
  | .four =>
      (byteAt m a ++ byteAt m (a + 1) ++ byteAt m (a + 2) ++
        byteAt m (a + 3) : BitVec 32)

/- A pixel is put to memory, and other bytes are kept. -/
structure Puts
    (m m' : Buffer)
    (size : PixelSize)
    (a : Nat)
    (p : BitVec 32) : Prop where
  written :
    ∀ i < size.bytes, byteAt m' (a + i) = pixelByte size p i
  kept :
    ∀ j, j < a ∨ a + size.bytes ≤ j → byteAt m' j = byteAt m j

theorem extract_endianReverse
    (v : BitVec 32)
    {k : Nat}
    (hK : k < 4) :
    (endianReverse v).extractLsb' (8 * k) 8 =
      v.extractLsb' (8 * (3 - k)) 8 := by
  unfold endianReverse
  apply BitVec.eq_of_getLsbD_eq
  intro i hI
  interval_cases k <;> interval_cases i <;> simp

theorem byteAt_update
    (m : Buffer)
    (w : Nat)
    (v : BitVec 32)
    (j : Nat) :
    byteAt (Function.update m w (endianReverse v)) j =
      if j / 4 = w then v.extractLsb' (8 * (3 - j % 4)) 8
      else byteAt m j := by
  unfold byteAt
  by_cases hWord : j / 4 = w
  · rw [if_pos hWord, hWord, Function.update_self,
      extract_endianReverse v (Nat.mod_lt j (by decide))]
  · rw [if_neg hWord, Function.update_of_ne hWord]

/- The bytes of a word, in the order of their addresses. -/
theorem endianReverse_word (m : Buffer) (w : Nat) :
    endianReverse (m w) = pixelAt m .four (4 * w) := by
  have hByte :
      ∀ k < 4,
        byteAt m (4 * w + k) =
          (endianReverse (m w)).extractLsb' (8 * (3 - k)) 8 := by
    intro k hK
    have hWord : (4 * w + k) / 4 = w := by omega
    have hRest : (4 * w + k) % 4 = 3 - (3 - k) := by omega
    rw [extract_endianReverse _ (by omega), byteAt, hWord, hRest]
  have hFirst := hByte 0 (by decide)
  rw [Nat.add_zero] at hFirst
  rw [pixelAt, hFirst, hByte 1 (by decide), hByte 2 (by decide),
    hByte 3 (by decide)]
  apply BitVec.eq_of_getLsbD_eq
  intro i hI
  simp only [BitVec.getLsbD_append, BitVec.getLsbD_extractLsb']
  interval_cases i <;> simp

theorem read32Be_eq (src : Buffer) (a : Nat) :
    read32Be src a = pixelAt src .four a := by
  obtain ⟨w, k, hK, rfl⟩ : ∃ w k, k < 4 ∧ a = 4 * w + k :=
    ⟨a / 4, a % 4, by omega, by omega⟩
  have hWord : (4 * w + k) / 4 = w := by omega
  have hRest : (4 * w + k) % 4 = k := by omega
  have hNext : 4 * (w + 1) = 4 * w + 4 := by omega
  rw [read32Be, hWord, hRest, endianReverse_word,
    endianReverse_word, hNext]
  simp only [pixelAt]
  apply BitVec.eq_of_getLsbD_eq
  intro i hI
  split
  case isTrue hZero =>
    rw [hZero]
    rfl
  case isFalse =>
    simp only [BitVec.getLsbD_or, BitVec.getLsbD_shiftLeft,
      BitVec.getLsbD_ushiftRight, BitVec.getLsbD_append]
    interval_cases k <;> interval_cases i <;>
      simp [Nat.add_assoc]

theorem readPixel_eq
    (src : Buffer)
    (size : PixelSize)
    (a : Nat) :
    readPixel src size a = pixelAt src size a := by
  cases size with
  | two =>
      rw [readPixel, read32Be_eq]
      simp only [pixelAt]
      apply BitVec.eq_of_getLsbD_eq
      intro i hI
      simp only [BitVec.getLsbD_ushiftRight,
        BitVec.getLsbD_setWidth, BitVec.getLsbD_append]
      interval_cases i <;> simp
  | four => exact read32Be_eq src a

theorem byteAt_write32
    (m : Buffer)
    (a : Nat)
    (v : BitVec 32)
    (j : Nat) :
    byteAt (write32AlignedBe m a v) j =
      if j / 4 = a / 4 then v.extractLsb' (8 * (3 - j % 4)) 8
      else byteAt m j :=
  byteAt_update m (a / 4) v j

/- A value that is too wide spills into the other half. -/
theorem byteAt_write16
    (m : Buffer)
    (a : Nat)
    (v : BitVec 32)
    (j : Nat) :
    byteAt (write16AlignedBe m a v) j =
      if j / 4 = a / 4 then
        if a % 4 = 2 then
          if j % 4 < 2 then
            byteAt m j ||| v.extractLsb' (8 * (3 - j % 4)) 8
          else v.extractLsb' (8 * (3 - j % 4)) 8
        else if j % 4 < 2 then
          v.extractLsb' (8 * (1 - j % 4)) 8
        else byteAt m j
      else byteAt m j := by
  rw [write16AlignedBe, byteAt_update]
  by_cases hWord : j / 4 = a / 4
  · have hOld :
        (endianReverse (m (a / 4))).extractLsb'
            (8 * (3 - j % 4)) 8 =
          byteAt m j := by
      rw [extract_endianReverse _ (by omega), byteAt, hWord]
      congr 2
      omega
    have hLt : j % 4 < 4 := Nat.mod_lt j (by decide)
    rw [if_pos hWord, if_pos hWord, ← hOld]
    generalize endianReverse (m (a / 4)) = w
    generalize j % 4 = k at *
    apply BitVec.eq_of_getLsbD_eq
    intro i hI
    split
    · interval_cases k <;> interval_cases i <;> simp
    · interval_cases k <;> interval_cases i <;> simp
  · rw [if_neg hWord, if_neg hWord]

/- The bits of a value that memory gets. -/
def PixelSize.low (size : PixelSize) (v : BitVec 32) : Nat :=
  v.toNat % 256 ^ size.bytes

variable {v q : BitVec 32} {size : PixelSize}

theorem low_eq_of_bytes
    (hBytes :
      ∀ i < size.bytes, pixelByte size v i = pixelByte size q i) :
    size.low v = size.low q := by
  have hNat :
      ∀ i < size.bytes,
        v.toNat / 2 ^ (8 * (size.bytes - 1 - i)) % 2 ^ 8 =
          q.toNat / 2 ^ (8 * (size.bytes - 1 - i)) % 2 ^ 8 := by
    intro i hI
    have hByte := congrArg BitVec.toNat (hBytes i hI)
    simpa only [pixelByte, BitVec.extractLsb'_toNat,
      Nat.shiftRight_eq_div_pow] using hByte
  unfold PixelSize.low
  cases size with
  | two =>
      have h0 := hNat 0 (by decide)
      have h1 := hNat 1 (by decide)
      simp only [PixelSize.bytes] at h0 h1 ⊢
      omega
  | four =>
      have h0 := hNat 0 (by decide)
      have h1 := hNat 1 (by decide)
      have h2 := hNat 2 (by decide)
      have h3 := hNat 3 (by decide)
      simp only [PixelSize.bytes] at h0 h1 h2 h3 ⊢
      omega

/- A byte that does not depend on memory was written. -/
theorem not_kept
    {j : Nat}
    {x : Byte}
    (hKept : ∀ m : Buffer, x = byteAt m j) :
    False := by
  have hZero : x = 0#8 := by
    rw [hKept (fun _ => 0#32), byteAt]
    simp
  have hOnes : x.getLsbD 0 = true := by
    have hLt : 8 * (j % 4) + 0 < 32 := by omega
    rw [hKept (fun _ => BitVec.allOnes 32), byteAt,
      BitVec.getLsbD_extractLsb', BitVec.getLsbD_allOnes,
      decide_eq_true hLt]
    rfl
  rw [hZero] at hOnes
  cases hOnes

/- The bytes of a pixel that is written to an aligned address. -/
theorem byteAt_writePixel
    {a i : Nat}
    (hAligned : a % size.bytes = 0)
    (hI : i < size.bytes)
    (m : Buffer)
    (v : BitVec 32) :
    byteAt (writePixel m size a v) (a + i) =
      pixelByte size v i := by
  cases size with
  | two =>
      simp only [PixelSize.bytes] at hAligned hI
      rw [writePixel, byteAt_write16, if_pos (by omega),
        pixelByte]
      simp only [PixelSize.bytes]
      by_cases hHalf : a % 4 = 2
      · rw [if_pos hHalf, if_neg (by omega)]
        congr 2
        omega
      · rw [if_neg hHalf, if_pos (by omega)]
        congr 2
        omega
  | four =>
      simp only [PixelSize.bytes] at hAligned hI
      rw [writePixel, byteAt_write32, if_pos (by omega),
        pixelByte]
      simp only [PixelSize.bytes]
      congr 2
      omega

/- A value that fits is put to an aligned address. -/
theorem writePixel_puts
    {a : Nat}
    (hAligned : a % size.bytes = 0)
    (hV : v.toNat < 256 ^ size.bytes)
    (m : Buffer) :
    Puts m (writePixel m size a v) size a v := by
  constructor
  · intro i hI
    exact byteAt_writePixel hAligned hI m v
  · intro j hJ
    cases size with
    | two =>
        simp only [PixelSize.bytes] at hAligned hJ hV
        have hSpill :
            ∀ k < 2, v.extractLsb' (8 * (3 - k)) 8 = 0#8 := by
          intro k hK
          apply BitVec.eq_of_toNat_eq
          rw [BitVec.extractLsb'_toNat,
            Nat.shiftRight_eq_div_pow, Nat.div_eq_of_lt]
          · rfl
          · have hPow : 2 ^ 16 ≤ 2 ^ (8 * (3 - k)) :=
              Nat.pow_le_pow_right Nat.two_pos (by omega)
            exact Nat.lt_of_lt_of_le hV hPow
        rw [writePixel, byteAt_write16]
        by_cases hWord : j / 4 = a / 4
        · rw [if_pos hWord]
          by_cases hHalf : a % 4 = 2
          · rw [if_pos hHalf, if_pos (by omega),
              hSpill _ (by omega), BitVec.or_zero]
          · rw [if_neg hHalf, if_neg (by omega)]
        · rw [if_neg hWord]
    | four =>
        simp only [PixelSize.bytes] at hAligned hJ
        rw [writePixel, byteAt_write32, if_neg (by omega)]

theorem aligned_of_puts
    {a : Nat}
    (hPuts : ∀ m, Puts m (writePixel m size a v) size a q) :
    a % size.bytes = 0 := by
  by_contra hNot
  have hFirst : a / 4 * 4 % 4 = 0 := by omega
  cases size with
  | two =>
      simp only [PixelSize.bytes] at hNot
      apply @not_kept (a / 4 * 4) (v.extractLsb' 8 8)
      intro m
      rw [← (hPuts m).kept (a / 4 * 4) (by omega), writePixel,
        byteAt_write16, if_pos (by omega), if_neg (by omega),
        if_pos (by omega), hFirst]
  | four =>
      simp only [PixelSize.bytes] at hNot
      apply @not_kept (a / 4 * 4) (v.extractLsb' 24 8)
      intro m
      rw [← (hPuts m).kept (a / 4 * 4) (by omega), writePixel,
        byteAt_write32, if_pos (by omega), hFirst]

theorem low_of_puts
    {a : Nat}
    (hPuts : ∀ m, Puts m (writePixel m size a v) size a q) :
    size.low v = size.low q := by
  have hAligned := aligned_of_puts hPuts
  apply low_eq_of_bytes
  intro i hI
  rw [← (hPuts (fun _ => 0)).written i hI,
    byteAt_writePixel hAligned hI]

------------------------------------------------------------
-- Conversions
------------------------------------------------------------

def field (p : BitVec 32) (pos bits : Nat) : Nat :=
  p.toNat / 2 ^ pos % 2 ^ bits

/- A byte is scaled to a field, and it stays in the field. -/
def narrowTo (bits v : Nat) : Nat :=
  min (v * 2 ^ bits / 255) (2 ^ bits - 1)

/- A pixel is converted channel by channel. -/
def Converts :
    PixelSize → PixelSize → BitVec 32 → BitVec 32 → Prop
  | .two, .four, p, q =>
      q.toNat % 2 ^ 24 =
        expand 5 (field p 11 5) * 2 ^ 16 +
          expand 6 (field p 5 6) * 2 ^ 8 +
            expand 5 (field p 0 5)
  | .four, .two, p, q =>
      q.toNat =
        narrowTo 5 (field p 16 8) * 2 ^ 11 +
          narrowTo 6 (field p 8 8) * 2 ^ 5 +
            narrowTo 5 (field p 0 8)
  | .two, .two, p, q | .four, .four, p, q => q = p

/- The shader converts the pixel right. -/
def Exact : PixelSize → PixelSize → BitVec 32 → Prop
  | .two, .four, p => field p 11 5 = 0
  | .four, .two, p =>
      field p 16 8 ≠ 255 ∧ field p 8 8 ≠ 255 ∧ field p 0 8 ≠ 255
  | .two, .two, _ | .four, .four, _ => True

theorem expand_lt_byte
    {bits v : Nat}
    (hBits : bits = 5 ∨ bits = 6)
    (hV : v < 2 ^ bits) :
    expand bits v < 2 ^ 8 := by
  unfold expand
  rcases hBits with rfl | rfl <;> omega

theorem narrowTo_lt (bits v : Nat) :
    narrowTo bits v < 2 ^ bits := by
  have hPos := Nat.two_pow_pos bits
  unfold narrowTo
  omega

theorem toNat_and_byte (v : BitVec 32) :
    (v &&& 0xff#32).toNat = v.toNat % 2 ^ 8 :=
  @BlockTexture.toNat_mask v 8 (by decide)

variable {p : BitVec 32}

theorem toNat_widen
    (hP : p.toNat < 2 ^ 16) :
    (widen p).toNat =
      expand 6 (field p 11 5) * 2 ^ 16 +
        expand 6 (field p 5 6) * 2 ^ 8 +
          expand 5 (field p 0 5) := by
  have hField :
      ∀ pos bits,
        bitfieldExtract p pos bits = field p pos bits := by
    intro pos bits
    rw [bitfieldExtract, BitVec.extractLsb'_toNat,
      Nat.shiftRight_eq_div_pow, field]
  have hRed : field p 11 6 = field p 11 5 := by
    unfold field
    omega
  have hR : field p 11 5 < 2 ^ 5 := Nat.mod_lt _ (by decide)
  have hG : field p 5 6 < 2 ^ 6 := Nat.mod_lt _ (by decide)
  have hB : field p 0 5 < 2 ^ 5 := Nat.mod_lt _ (by decide)
  rw [widen, hField, hField, hField, hRed,
    BlockTexture.ext8_eq (by decide) (by decide) (by omega),
    BlockTexture.ext8_eq (by decide) (by decide) hG,
    BlockTexture.ext8_eq (by decide) (by decide) hB]
  have hR' := @expand_lt_byte 6 _ (.inr rfl)
    (Nat.lt_trans hR (by decide))
  have hG' := expand_lt_byte (.inr rfl) hG
  have hB' := expand_lt_byte (.inl rfl) hB
  have hLow :
      expand 6 (field p 5 6) <<< 8 + expand 5 (field p 0 5) <
        2 ^ 16 := by
    rw [Nat.shiftLeft_eq]
    omega
  rw [Nat.or_assoc, ← Nat.shiftLeft_add_eq_or_of_lt hB',
    ← Nat.shiftLeft_add_eq_or_of_lt hLow, Nat.shiftLeft_eq,
    Nat.shiftLeft_eq, BitVec.toNat_ofNat]
  omega

theorem narrow_eq (p : BitVec 32) :
    narrow p =
      BitVec.ofNat 32
        ((field p 16 8 * 2 ^ 5 / 255) <<< 11 |||
          (field p 8 8 * 2 ^ 6 / 255) <<< 5 |||
            field p 0 8 * 2 ^ 5 / 255) := by
  rw [narrow, toNat_and_byte, toNat_and_byte, toNat_and_byte]
  simp only [BitVec.toNat_ushiftRight,
    Nat.shiftRight_eq_div_pow, field, Nat.pow_zero, Nat.div_one,
    Nat.one_shiftLeft]

/- The bits of the three channels, which can overlap. -/
theorem testBit_narrow
    (p : BitVec 32)
    {i : Nat}
    (hI : i < 16) :
    (narrow p).toNat.testBit i =
      (decide (11 ≤ i) &&
          (field p 16 8 * 2 ^ 5 / 255).testBit (i - 11) ||
        decide (5 ≤ i) &&
          (field p 8 8 * 2 ^ 6 / 255).testBit (i - 5) ||
            (field p 0 8 * 2 ^ 5 / 255).testBit i) := by
  have hWord : i < 32 := by omega
  rw [narrow_eq, BitVec.toNat_ofNat, Nat.testBit_mod_two_pow,
    decide_eq_true hWord, Bool.true_and, Nat.testBit_or,
    Nat.testBit_or, Nat.testBit_shiftLeft,
    Nat.testBit_shiftLeft]

/- A channel of all ones leaves its field. -/
theorem narrow_spills
    (hConverts : Converts .four .two p q)
    (hLow : PixelSize.low .two (narrow p) = PixelSize.low .two q) :
    Exact .four .two p := by
  have hBit :
      ∀ i < 16,
        (narrow p).toNat.testBit i =
          decide (q.toNat / 2 ^ i % 2 = 1) := by
    intro i hI
    rw [← Nat.testBit_eq_decide_div_mod_eq]
    have hMod := congrArg (fun n => n.testBit i) hLow
    simpa [PixelSize.low, PixelSize.bytes, hI,
      Nat.testBit_mod_two_pow _ 16] using hMod
  have hG : field p 8 8 * 2 ^ 6 / 255 < 2 ^ 10 := by
    have hLt : field p 8 8 < 2 ^ 8 := Nat.mod_lt _ (by decide)
    omega
  have hB : field p 0 8 * 2 ^ 5 / 255 < 2 ^ 10 := by
    have hLt : field p 0 8 < 2 ^ 8 := Nat.mod_lt _ (by decide)
    omega
  have hG' := narrowTo_lt 6 (field p 8 8)
  have hB' := narrowTo_lt 5 (field p 0 8)
  have hClear :
      ∀ {n i : Nat}, n < 2 ^ 10 → 10 ≤ i → n.testBit i = false := by
    intro n i hN hI
    apply Nat.testBit_lt_two_pow
    exact Nat.lt_of_lt_of_le hN
      (Nat.pow_le_pow_right Nat.two_pos hI)
  simp only [Converts] at hConverts
  refine ⟨?_, ?_, ?_⟩
  · intro hMax
    have hSame := hBit 15 (by decide)
    rw [testBit_narrow p (by decide), hMax,
      hClear hG (by decide), hClear hB (by decide), hConverts, hMax]
      at hSame
    have hField : narrowTo 5 255 = 31 := rfl
    have hSet := of_decide_eq_false hSame.symm
    omega
  · intro hMax
    have hSame := hBit 10 (by decide)
    rw [testBit_narrow p (by decide), hMax,
      hClear hB (by decide), hConverts, hMax]
      at hSame
    have hField : narrowTo 6 255 = 63 := rfl
    have hSet := of_decide_eq_false hSame.symm
    omega
  · intro hMax
    have hSame := hBit 4 (by decide)
    rw [testBit_narrow p (by decide), hMax, hConverts, hMax]
      at hSame
    have hField : narrowTo 5 255 = 31 := rfl
    have hSet := of_decide_eq_false hSame.symm
    omega

theorem toNat_narrow
    (hExact : Exact .four .two p) :
    (narrow p).toNat =
      narrowTo 5 (field p 16 8) * 2 ^ 11 +
        narrowTo 6 (field p 8 8) * 2 ^ 5 +
          narrowTo 5 (field p 0 8) := by
  have hFit :
      ∀ n pos, field p pos 8 ≠ 255 →
        field p pos 8 * 2 ^ n / 255 = narrowTo n (field p pos 8)
          := by
    intro n pos hNe
    have hLt : field p pos 8 < 2 ^ 8 := Nat.mod_lt _ (by decide)
    have hQuotient :
        field p pos 8 * 2 ^ n / 255 < 2 ^ n := by
      rw [Nat.div_lt_iff_lt_mul (by decide), Nat.mul_comm]
      exact Nat.mul_lt_mul_of_pos_left (by omega)
        (Nat.two_pow_pos n)
    unfold narrowTo
    omega
  obtain ⟨hR, hG, hB⟩ := hExact
  have hG' := narrowTo_lt 6 (field p 8 8)
  have hB' := narrowTo_lt 5 (field p 0 8)
  have hR' := narrowTo_lt 5 (field p 16 8)
  have hLow :
      narrowTo 6 (field p 8 8) <<< 5 + narrowTo 5 (field p 0 8) <
        2 ^ 11 := by
    rw [Nat.shiftLeft_eq]
    omega
  rw [narrow_eq, hFit 5 16 hR, hFit 6 8 hG, hFit 5 0 hB,
    Nat.or_assoc, ← Nat.shiftLeft_add_eq_or_of_lt hB',
    ← Nat.shiftLeft_add_eq_or_of_lt hLow, Nat.shiftLeft_eq,
    Nat.shiftLeft_eq, BitVec.toNat_ofNat]
  omega

theorem exact_of_low
    {s d : PixelSize}
    (hP : p.toNat < 256 ^ s.bytes)
    (hConverts : Converts s d p q)
    (hLow : d.low (convert s d p) = d.low q) :
    Exact s d p := by
  match s, d with
  | .two, .two => trivial
  | .four, .four => trivial
  | .four, .two => exact narrow_spills hConverts hLow
  | .two, .four =>
      have hR : field p 11 5 < 2 ^ 5 := Nat.mod_lt _ (by decide)
      have hG : field p 5 6 < 2 ^ 6 := Nat.mod_lt _ (by decide)
      have hB : field p 0 5 < 2 ^ 5 := Nat.mod_lt _ (by decide)
      have hG' := expand_lt_byte (.inr rfl) hG
      have hB' := expand_lt_byte (.inl rfl) hB
      have hSix : expand 6 (field p 11 5) ≤ 5 * field p 11 5 := by
        unfold expand
        omega
      have hFive : 8 * field p 11 5 ≤ expand 5 (field p 11 5) := by
        unfold expand
        omega
      have hFive' := expand_lt_byte (.inl rfl) hR
      simp only [PixelSize.low, PixelSize.bytes, convert,
        toNat_widen hP, Converts] at hLow hConverts
      simp only [Exact]
      omega

theorem converts_of_exact
    {s d : PixelSize}
    (hP : p.toNat < 256 ^ s.bytes)
    (hExact : Exact s d p) :
    Converts s d p (convert s d p) ∧
      (convert s d p).toNat < 256 ^ d.bytes := by
  match s, d with
  | .two, .two => exact ⟨rfl, hP⟩
  | .four, .four => exact ⟨rfl, hP⟩
  | .four, .two =>
      have hR := narrowTo_lt 5 (field p 16 8)
      have hG := narrowTo_lt 6 (field p 8 8)
      have hB := narrowTo_lt 5 (field p 0 8)
      refine ⟨toNat_narrow hExact, ?_⟩
      rw [convert, toNat_narrow hExact]
      simp only [PixelSize.bytes]
      omega
  | .two, .four =>
      have hG := expand_lt_byte (.inr rfl)
        (Nat.mod_lt (p.toNat / 2 ^ 5) (Nat.two_pow_pos 6))
      have hB := expand_lt_byte (.inl rfl)
        (Nat.mod_lt (p.toNat / 2 ^ 0) (Nat.two_pow_pos 5))
      have hZero : expand 6 0 = 0 ∧ expand 5 0 = 0 := ⟨rfl, rfl⟩
      refine ⟨?_, (convert .two .four p).isLt⟩
      simp only [Exact] at hExact
      simp only [Converts, convert, toNat_widen hP, hExact, hZero]
      unfold field
      omega

------------------------------------------------------------
-- Transfers
------------------------------------------------------------

structure ScaleSettings where
  swizzle : Bool
  format : ScaleSettingsFormat
  x : Span
  y : Span
  pitch : BitVec 16
  offset : BitVec 32

structure SurfaceSettings where
  format : ScaleSettingsFormat
  pitch : BitVec 16
  destOffset : BitVec 32

structure SwizzleSettings where
  format : ScaleSettingsFormat
  logWidth : BitVec 8
  logHeight : BitVec 8
  offset : BitVec 32

/-
  A transfer with a scale of one.  `ImageInSize` does not start
  one without a source, and `transfer` asserts the rest.
-/
structure Transfer where
  scale : ScaleSettings
  surface : SurfaceSettings
  swizzle : SwizzleSettings
  width_pos : 0 < scale.x.srcSize.toNat
  height_pos : 0 < scale.y.srcSize.toNat
  pitch_even : surface.pitch.toNat % 2 = 0
  destOffset_aligned : surface.destOffset.toNat % 4 = 0

namespace Transfer

variable (t : Transfer)

def srcSize : PixelSize := t.scale.format.pixelSize

def dstSize : PixelSize :=
  (if t.scale.swizzle then t.swizzle.format
    else t.surface.format).pixelSize

/- Where a destination pixel is, when its shifts are defined. -/
def dstPixelOffset (x y : Nat) : Option Nat :=
  if t.scale.swizzle then
    (Swizzle.SwizzledTextureIterator.swizzleAddress
        ⟨t.swizzle.logWidth.toNat, t.swizzle.logHeight.toNat, 0⟩
        (BitVec.ofNat 32 x) (BitVec.ofNat 32 y) 0).map
      (fun s =>
        (t.swizzle.offset.toNat + t.dstSize.bytes * s.toNat) %
          2 ^ 32)
  else
    some
      ((t.surface.destOffset.toNat +
          (y * (t.surface.pitch.signExtend 32).toNat +
            x * t.dstSize.bytes)) % 2 ^ 32)

def srcPixelOffset (x y : Nat) : Nat :=
  (t.scale.offset.toNat + y * t.scale.pitch.toNat +
    x * t.srcSize.bytes) % 2 ^ 32

def Dispatched (x y : Nat) : Prop :=
  t.scale.x.Dispatched x ∧ t.scale.y.Dispatched y

def Accepts (x y : Nat) : Prop :=
  t.scale.x.Accepts x ∧ t.scale.y.Accepts y

instance (x y : Nat) : Decidable (t.Dispatched x y) :=
  inferInstanceAs (Decidable (_ ∧ _))

instance (x y : Nat) : Decidable (t.Accepts x y) :=
  inferInstanceAs (Decidable (_ ∧ _))

/- What an invocation of the shader does to the destination. -/
def invocation
    (src : Buffer)
    (x y : Nat)
    (m : Buffer) : Option Buffer :=
  if t.Dispatched x y ∧ t.Accepts x y then
    let srcPixel :=
      readPixel src t.srcSize
        (t.srcPixelOffset (t.scale.x.source x)
          (t.scale.y.source y))
    (t.dstPixelOffset x y).map (fun a =>
      writePixel m t.dstSize a
        (convert t.srcSize t.dstSize srcPixel))
  else some m

/- The invocations in some order. -/
def run
    (src : Buffer)
    (order : List (Nat × Nat))
    (m : Buffer) : Option Buffer :=
  order.foldlM (fun m p => t.invocation src p.1 p.2 m) m

/- The pixel is in both of the rectangles. -/
def Inside (x y : Nat) : Prop :=
  t.scale.x.Inside x ∧ t.scale.y.Inside y

def sourcePixel (src : Buffer) (x y : Nat) : BitVec 32 :=
  pixelAt src t.srcSize
    (t.srcPixelOffset (t.scale.x.position x)
      (t.scale.y.position y))

/-
  Each pixel inside is written, with the source pixel at its
  position, and nothing else is.
-/
structure Copies (src : Buffer) : Prop where
  pixels :
    ∀ x y, t.Inside x y →
      ∃ a q,
        t.dstPixelOffset x y = some a ∧
          Converts t.srcSize t.dstSize (t.sourcePixel src x y)
            q ∧
          ∀ m, ∃ m',
            t.invocation src x y m = some m' ∧
              Puts m m' t.dstSize a q
  others :
    ∀ x y, ¬ t.Inside x y →
      ∀ m, t.invocation src x y m = some m

/-
  Every pixel inside has a work group, an aligned address and a
  source pixel that is converted right.
-/
def Plain (src : Buffer) : Prop :=
  ∀ x y, t.Inside x y →
    t.Dispatched x y ∧
      (∃ a,
        t.dstPixelOffset x y = some a ∧
          a % t.dstSize.bytes = 0) ∧
      Exact t.srcSize t.dstSize (t.sourcePixel src x y)

variable {t} {src : Buffer} {x y : Nat}

theorem accepts_iff
    (hDispatched : t.Dispatched x y) :
    t.Accepts x y ↔ t.Inside x y :=
  and_congr (t.scale.x.accepts_iff hDispatched.left)
    (t.scale.y.accepts_iff hDispatched.right)

theorem invocation_eq
    {x y a : Nat}
    (hDispatched : t.Dispatched x y)
    (hInside : t.Inside x y)
    (hAddress : t.dstPixelOffset x y = some a)
    (m : Buffer) :
    t.invocation src x y m =
      some
        (writePixel m t.dstSize a
          (convert t.srcSize t.dstSize
            (t.sourcePixel src x y))) := by
  have hAccepts := (accepts_iff hDispatched).mpr hInside
  rw [invocation, if_pos ⟨hDispatched, hAccepts⟩, hAddress,
    readPixel_eq, t.scale.x.source_eq t.width_pos hInside.left,
    t.scale.y.source_eq t.height_pos hInside.right]
  rfl

theorem invocation_idle
    (hIdle : ¬ (t.Dispatched x y ∧ t.Inside x y))
    (m : Buffer) :
    t.invocation src x y m = some m := by
  rw [invocation, if_neg]
  rintro ⟨hDispatched, hAccepts⟩
  exact
    hIdle ⟨hDispatched, (accepts_iff hDispatched).mp hAccepts⟩

theorem sourcePixel_lt (x y : Nat) :
    (t.sourcePixel src x y).toNat < 256 ^ t.srcSize.bytes := by
  unfold sourcePixel
  cases t.srcSize with
  | two =>
      simp only [pixelAt, BitVec.toNat_setWidth]
      exact Nat.lt_of_le_of_lt (Nat.mod_le _ _)
        (BitVec.isLt _)
  | four => exact BitVec.isLt _

theorem size_pos (size : PixelSize) : 0 < size.bytes := by
  cases size <;> decide

/- A pixel that every memory gets is written by a group. -/
theorem Copies.dispatched
    (hCopies : t.Copies src)
    (hInside : t.Inside x y) :
    t.Dispatched x y := by
  by_contra hNot
  obtain ⟨a, q, -, -, hPuts⟩ := hCopies.pixels x y hInside
  apply @not_kept a (pixelByte t.dstSize q 0)
  intro m
  obtain ⟨m', hRun, hPut⟩ := hPuts m
  rw [invocation_idle (fun h => hNot h.left)] at hRun
  cases hRun
  exact (hPut.written 0 (size_pos _)).symm

/- What the invocation of a pixel inside writes. -/
theorem Copies.writes
    (hCopies : t.Copies src)
    (hInside : t.Inside x y) :
    ∃ a q,
      t.dstPixelOffset x y = some a ∧
        Converts t.srcSize t.dstSize (t.sourcePixel src x y) q ∧
        ∀ m,
          Puts m
            (writePixel m t.dstSize a
              (convert t.srcSize t.dstSize
                (t.sourcePixel src x y)))
            t.dstSize a q := by
  have hDispatched := hCopies.dispatched hInside
  obtain ⟨a, q, hAddress, hConverts, hPuts⟩ :=
    hCopies.pixels x y hInside
  refine ⟨a, q, hAddress, hConverts, fun m => ?_⟩
  obtain ⟨m', hRun, hPut⟩ := hPuts m
  rw [invocation_eq hDispatched hInside hAddress] at hRun
  cases hRun
  exact hPut

/- A transfer copies the image just when it is plain. -/
theorem copies_iff_plain (t : Transfer) (src : Buffer) :
    t.Copies src ↔ t.Plain src := by
  constructor
  · intro hCopies x y hInside
    obtain ⟨a, q, hAddress, hConverts, hWrites⟩ :=
      hCopies.writes hInside
    exact
      ⟨hCopies.dispatched hInside,
        ⟨a, hAddress, aligned_of_puts hWrites⟩,
        exact_of_low (sourcePixel_lt x y) hConverts
          (low_of_puts hWrites)⟩
  · intro hPlain
    constructor
    · intro x y hInside
      obtain ⟨hDispatched, ⟨a, hAddress, hAligned⟩, hExact⟩ :=
        hPlain x y hInside
      obtain ⟨hConverts, hFits⟩ :=
        converts_of_exact (sourcePixel_lt x y) hExact
      refine ⟨a, _, hAddress, hConverts, fun m => ⟨_,
        invocation_eq hDispatched hInside hAddress m,
        writePixel_puts hAligned hFits m⟩⟩
    · intro x y hOutside m
      exact invocation_idle (fun h => hOutside h.right) m

/- The bytes of a pixel inside. -/
def Covers (t : Transfer) (p : Nat × Nat) (j : Nat) : Prop :=
  t.Inside p.1 p.2 ∧
    ∃ a,
      t.dstPixelOffset p.1 p.2 = some a ∧
        a ≤ j ∧ j < a + t.dstSize.bytes

end Transfer

/- One pixel of all ones that is converted to two bytes. -/
def whitePixel : Transfer where
  scale :=
    { swizzle := false
      format := .a8r8g8b8
      x := ⟨0, 1, 0, 1, 0, 1⟩
      y := ⟨0, 1, 0, 1, 0, 1⟩
      pitch := 4
      offset := 0 }
  surface := ⟨.r5g6b5, 4, 0⟩
  swizzle := ⟨.r5g6b5, 0, 0, 0⟩
  width_pos := by decide
  height_pos := by decide
  pitch_even := rfl
  destOffset_aligned := rfl

/- Its channels leave their fields. -/
theorem whitePixel_not_copies :
    ¬ whitePixel.Copies (fun _ => 0xffffffff#32) := by
  intro hCopies
  have hInside : whitePixel.Inside 0 0 := by
    unfold Transfer.Inside Span.Inside
    decide
  obtain ⟨a, q, -, hConverts, hWrites⟩ := hCopies.writes hInside
  have hExact := narrow_spills hConverts (low_of_puts hWrites)
  exact hExact.left (by decide)

end TransferImage

end Ps3emu
