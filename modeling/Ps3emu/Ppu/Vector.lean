import Ps3emu.Library.Sse
import Ps3emu.Ppu.Interpreter

/-
  The vector instructions on integers, as the interpreter
  computes them with the intrinsics of the host.  A vector
  register has the bytes of a vector in the host's order:
  the first byte of a vector is the highest of the register.

  Key definitions include:
    * `VectorFile`
    * `vperm`, `vsldoi`, `vmhraddshs`, `vsum4ubs`
    * `vectorResult`
    * `updateCRF`, `emulateVector`
-/

------------------------------------------------------------
-- Registers, Fields and Tables
------------------------------------------------------------

namespace Ps3emu

namespace Ppu

open Lanes Sse

abbrev VectorFile := BitVec 5 → M128

namespace Registers

/- `TH->r(i).set_xmm(value)`. -/
def setXmm
    (r : Registers VectorFile)
    (i : BitVec 5)
    (value : M128) : Registers VectorFile :=
  { r with rest := Function.update r.rest i value }

@[simp] theorem setXmm_self
    (r : Registers VectorFile)
    (i : BitVec 5)
    (value : M128) :
    (r.setXmm i value).rest i = value :=
  Function.update_self _ _ _

@[simp] theorem setXmm_cr
    (r : Registers VectorFile)
    (i : BitVec 5)
    (value : M128) :
    (r.setXmm i value).cr = r.cr :=
  rfl

end Registers

/- The fields of the vector forms. -/
def vD (x : BitVec 32) : BitVec 5 := field x 6 11
def vS (x : BitVec 32) : BitVec 5 := field x 6 11
def vA (x : BitVec 32) : BitVec 5 := field x 11 16
def vB (x : BitVec 32) : BitVec 5 := field x 16 21
def vC (x : BitVec 32) : BitVec 5 := field x 21 26
def vRc (x : BitVec 32) : Bool := flag x 21
def shb (x : BitVec 32) : BitVec 4 := field x 22 26
def simm (x : BitVec 32) : BitVec 5 := field x 11 16
def uimm2 (x : BitVec 32) : BitVec 2 := field x 14 16
def uimm3 (x : BitVec 32) : BitVec 3 := field x 13 16

def byteShiftLeftShuffleControl : List (List (BitVec 8)) :=
  [[15, 14, 13, 12, 11, 10, 9, 8, 7, 6, 5, 4, 3, 2, 1, 0],
    [14, 13, 12, 11, 10, 9, 8, 7, 6, 5, 4, 3, 2, 1, 0, -1],
    [13, 12, 11, 10, 9, 8, 7, 6, 5, 4, 3, 2, 1, 0, -1, -1],
    [12, 11, 10, 9, 8, 7, 6, 5, 4, 3, 2, 1, 0, -1, -1, -1],
    [11, 10, 9, 8, 7, 6, 5, 4, 3, 2, 1, 0, -1, -1, -1, -1],
    [10, 9, 8, 7, 6, 5, 4, 3, 2, 1, 0, -1, -1, -1, -1, -1],
    [9, 8, 7, 6, 5, 4, 3, 2, 1, 0, -1, -1, -1, -1, -1, -1],
    [8, 7, 6, 5, 4, 3, 2, 1, 0, -1, -1, -1, -1, -1, -1, -1],
    [7, 6, 5, 4, 3, 2, 1, 0, -1, -1, -1, -1, -1, -1, -1, -1],
    [6, 5, 4, 3, 2, 1, 0, -1, -1, -1, -1, -1, -1, -1, -1, -1],
    [5, 4, 3, 2, 1, 0, -1, -1, -1, -1, -1, -1, -1, -1, -1, -1],
    [4, 3, 2, 1, 0, -1, -1, -1, -1, -1, -1, -1, -1, -1, -1, -1],
    [3, 2, 1, 0, -1, -1, -1, -1, -1, -1, -1, -1, -1, -1, -1, -1],
    [2, 1, 0, -1, -1, -1, -1, -1, -1, -1, -1, -1, -1, -1, -1, -1],
    [1, 0, -1, -1, -1, -1, -1, -1, -1, -1, -1, -1, -1, -1, -1, -1],
    [0, -1, -1, -1, -1, -1, -1, -1, -1, -1, -1, -1, -1, -1, -1, -1]] ++
    List.replicate 16 (List.replicate 16 (-1))

def byteShiftRightShuffleControl : List (List (BitVec 8)) :=
  [[15, 14, 13, 12, 11, 10, 9, 8, 7, 6, 5, 4, 3, 2, 1, 0],
    [-1, 15, 14, 13, 12, 11, 10, 9, 8, 7, 6, 5, 4, 3, 2, 1],
    [-1, -1, 15, 14, 13, 12, 11, 10, 9, 8, 7, 6, 5, 4, 3, 2],
    [-1, -1, -1, 15, 14, 13, 12, 11, 10, 9, 8, 7, 6, 5, 4, 3],
    [-1, -1, -1, -1, 15, 14, 13, 12, 11, 10, 9, 8, 7, 6, 5, 4],
    [-1, -1, -1, -1, -1, 15, 14, 13, 12, 11, 10, 9, 8, 7, 6, 5],
    [-1, -1, -1, -1, -1, -1, 15, 14, 13, 12, 11, 10, 9, 8, 7, 6],
    [-1, -1, -1, -1, -1, -1, -1, 15, 14, 13, 12, 11, 10, 9, 8, 7],
    [-1, -1, -1, -1, -1, -1, -1, -1, 15, 14, 13, 12, 11, 10, 9, 8],
    [-1, -1, -1, -1, -1, -1, -1, -1, -1, 15, 14, 13, 12, 11, 10, 9],
    [-1, -1, -1, -1, -1, -1, -1, -1, -1, -1, 15, 14, 13, 12, 11, 10],
    [-1, -1, -1, -1, -1, -1, -1, -1, -1, -1, -1, 15, 14, 13, 12, 11],
    [-1, -1, -1, -1, -1, -1, -1, -1, -1, -1, -1, -1, 15, 14, 13, 12],
    [-1, -1, -1, -1, -1, -1, -1, -1, -1, -1, -1, -1, -1, 15, 14, 13],
    [-1, -1, -1, -1, -1, -1, -1, -1, -1, -1, -1, -1, -1, -1, 15, 14],
    [-1, -1, -1, -1, -1, -1, -1, -1, -1, -1, -1, -1, -1, -1, -1, 15],
    [-1, -1, -1, -1, -1, -1, -1, -1, -1, -1, -1, -1, -1, -1, -1, -1]]

def vspltwShuffleControl : List (List (BitVec 8)) :=
  [[15, 14, 13, 12, 15, 14, 13, 12, 15, 14, 13, 12, 15, 14, 13, 12],
    [11, 10, 9, 8, 11, 10, 9, 8, 11, 10, 9, 8, 11, 10, 9, 8],
    [7, 6, 5, 4, 7, 6, 5, 4, 7, 6, 5, 4, 7, 6, 5, 4],
    [3, 2, 1, 0, 3, 2, 1, 0, 3, 2, 1, 0, 3, 2, 1, 0]]

def vsplthShuffleControl : List (List (BitVec 8)) :=
  [[15, 14, 15, 14, 15, 14, 15, 14, 15, 14, 15, 14, 15, 14, 15, 14],
    [13, 12, 13, 12, 13, 12, 13, 12, 13, 12, 13, 12, 13, 12, 13, 12],
    [11, 10, 11, 10, 11, 10, 11, 10, 11, 10, 11, 10, 11, 10, 11, 10],
    [9, 8, 9, 8, 9, 8, 9, 8, 9, 8, 9, 8, 9, 8, 9, 8],
    [7, 6, 7, 6, 7, 6, 7, 6, 7, 6, 7, 6, 7, 6, 7, 6],
    [5, 4, 5, 4, 5, 4, 5, 4, 5, 4, 5, 4, 5, 4, 5, 4],
    [3, 2, 3, 2, 3, 2, 3, 2, 3, 2, 3, 2, 3, 2, 3, 2],
    [1, 0, 1, 0, 1, 0, 1, 0, 1, 0, 1, 0, 1, 0, 1, 0]]

def vmrghh1ShuffleControl : M128 :=
  setEpi8
    [15, 14, -1, -1, 13, 12, -1, -1, 11, 10, -1, -1, 9, 8, -1, -1]

def vmrghh2ShuffleControl : M128 :=
  setEpi8
    [-1, -1, 15, 14, -1, -1, 13, 12, -1, -1, 11, 10, -1, -1, 9, 8]

def vmrglh1ShuffleControl : M128 :=
  setEpi8
    [7, 6, -1, -1, 5, 4, -1, -1, 3, 2, -1, -1, 1, 0, -1, -1]

def vmrglh2ShuffleControl : M128 :=
  setEpi8
    [-1, -1, 7, 6, -1, -1, 5, 4, -1, -1, 3, 2, -1, -1, 1, 0]

def vmrghw1ShuffleControl : M128 :=
  setEpi8
    [15, 14, 13, 12, -1, -1, -1, -1, 11, 10, 9, 8, -1, -1, -1, -1]

def vmrghw2ShuffleControl : M128 :=
  setEpi8
    [-1, -1, -1, -1, 15, 14, 13, 12, -1, -1, -1, -1, 11, 10, 9, 8]

def vmrglw1ShuffleControl : M128 :=
  setEpi8
    [7, 6, 5, 4, -1, -1, -1, -1, 3, 2, 1, 0, -1, -1, -1, -1]

def vmrglw2ShuffleControl : M128 :=
  setEpi8
    [-1, -1, -1, -1, 7, 6, 5, 4, -1, -1, -1, -1, 3, 2, 1, 0]

def lvsrTable : List M128 :=
  [setEpi64x 0x1011121314151617#64 0x18191A1B1C1D1E1F#64,
    setEpi64x 0x0F10111213141516#64 0x1718191A1B1C1D1E#64,
    setEpi64x 0x0E0F101112131415#64 0x161718191A1B1C1D#64,
    setEpi64x 0x0D0E0F1011121314#64 0x15161718191A1B1C#64,
    setEpi64x 0x0C0D0E0F10111213#64 0x1415161718191A1B#64,
    setEpi64x 0x0B0C0D0E0F101112#64 0x131415161718191A#64,
    setEpi64x 0x0A0B0C0D0E0F1011#64 0x1213141516171819#64,
    setEpi64x 0x090A0B0C0D0E0F10#64 0x1112131415161718#64,
    setEpi64x 0x08090A0B0C0D0E0F#64 0x1011121314151617#64,
    setEpi64x 0x0708090A0B0C0D0E#64 0x0F10111213141516#64,
    setEpi64x 0x060708090A0B0C0D#64 0x0E0F101112131415#64,
    setEpi64x 0x05060708090A0B0C#64 0x0D0E0F1011121314#64,
    setEpi64x 0x0405060708090A0B#64 0x0C0D0E0F10111213#64,
    setEpi64x 0x030405060708090A#64 0x0B0C0D0E0F101112#64,
    setEpi64x 0x0203040506070809#64 0x0A0B0C0D0E0F1011#64,
    setEpi64x 0x0102030405060708#64 0x090A0B0C0D0E0F10#64]

def lvslTable : List M128 :=
  [setEpi64x 0x0001020304050607#64 0x08090A0B0C0D0E0F#64,
    setEpi64x 0x0102030405060708#64 0x090A0B0C0D0E0F10#64,
    setEpi64x 0x0203040506070809#64 0x0A0B0C0D0E0F1011#64,
    setEpi64x 0x030405060708090A#64 0x0B0C0D0E0F101112#64,
    setEpi64x 0x0405060708090A0B#64 0x0C0D0E0F10111213#64,
    setEpi64x 0x05060708090A0B0C#64 0x0D0E0F1011121314#64,
    setEpi64x 0x060708090A0B0C0D#64 0x0E0F101112131415#64,
    setEpi64x 0x0708090A0B0C0D0E#64 0x0F10111213141516#64,
    setEpi64x 0x08090A0B0C0D0E0F#64 0x1011121314151617#64,
    setEpi64x 0x090A0B0C0D0E0F10#64 0x1112131415161718#64,
    setEpi64x 0x0A0B0C0D0E0F1011#64 0x1213141516171819#64,
    setEpi64x 0x0B0C0D0E0F101112#64 0x131415161718191A#64,
    setEpi64x 0x0C0D0E0F10111213#64 0x1415161718191A1B#64,
    setEpi64x 0x0D0E0F1011121314#64 0x15161718191A1B1C#64,
    setEpi64x 0x0E0F101112131415#64 0x161718191A1B1C1D#64,
    setEpi64x 0x0F10111213141516#64 0x1718191A1B1C1D1E#64]

------------------------------------------------------------
-- Permutations and Arithmetic
------------------------------------------------------------

def vsldoi (shb : BitVec 4) (a b : M128) : M128 :=
  let left := byteShiftLeftShuffleControl.getD shb.toNat []
  let right :=
    byteShiftRightShuffleControl.getD (16 - shb.toNat) []
  shuffleEpi8 a (setEpi8 left) |||
    shuffleEpi8 b (setEpi8 right)

/- The form in rewritten code. -/
def vsldoiRewriter (shb : BitVec 4) (a b : M128) : M128 :=
  bslli a shb.toNat ||| bsrli b (16 - shb.toNat)

def vspltw (uimm : BitVec 2) (b : M128) : M128 :=
  shuffleEpi8 b
    (setEpi8 (vspltwShuffleControl.getD uimm.toNat []))

def vsplth (uimm : BitVec 3) (b : M128) : M128 :=
  shuffleEpi8 b
    (setEpi8 (vsplthShuffleControl.getD uimm.toNat []))

def vspltish (simm : BitVec 5) : M128 :=
  set1 16 8 (simm.signExtend 16)

def vspltisb (simm : BitVec 5) : M128 :=
  set1 8 16 (simm.signExtend 8)

def vspltisw (simm : BitVec 5) : M128 :=
  set1 32 4 (simm.signExtend 32)

/- What the merges share. -/
def merge (control₁ control₂ a b : M128) : M128 :=
  shuffleEpi8 a control₁ ||| shuffleEpi8 b control₂

def vmrghh (a b : M128) : M128 :=
  merge vmrghh1ShuffleControl vmrghh2ShuffleControl a b

def vmrglh (a b : M128) : M128 :=
  merge vmrglh1ShuffleControl vmrglh2ShuffleControl a b

def vmrghw (a b : M128) : M128 :=
  merge vmrghw1ShuffleControl vmrghw2ShuffleControl a b

def vmrglw (a b : M128) : M128 :=
  merge vmrglw1ShuffleControl vmrglw2ShuffleControl a b

/- The controls are counted from the low end of `b`. -/
def vperm (a b c : M128) : M128 :=
  let c : M128 := sub 8 16 (set1 8 16 31#8) c
  let gt : M128 := cmpgt 8 16 c (set1 8 16 15#8)
  let s1 := c
  let s2 : M128 := sub 8 16 c (set1 8 16 16#8)
  let d1 := shuffleEpi8 b s1
  let d2 := shuffleEpi8 a s2
  blendvEpi8 d1 d2 gt

def vxor (a b : M128) : M128 := a ^^^ b

def vnor (a b : M128) : M128 :=
  let ones : M128 := set1 8 16 (-1#8)
  (a ||| b) ^^^ ones

def vor (a b : M128) : M128 := a ||| b

def vand (a b : M128) : M128 := a &&& b

def vandc (a b : M128) : M128 := andnot b a

def vsel (m a b : M128) : M128 :=
  (m &&& b) ||| (~~~m &&& a)

def vaddubm (a b : M128) : M128 := add 8 16 a b

def vadduhm (a b : M128) : M128 := add 16 8 a b

def vadduwm (a b : M128) : M128 := add 32 4 a b

def vsububm (a b : M128) : M128 := sub 8 16 a b

def vsubuhm (a b : M128) : M128 := sub 16 8 a b

def vsubuwm (a b : M128) : M128 := sub 32 4 a b

def vaddshs (a b : M128) : M128 := addsEpi16 a b

def vsubshs (a b : M128) : M128 := subsEpi16 a b

def vminub (a b : M128) : M128 := minEpu8 a b

def vmaxub (a b : M128) : M128 := maxEpu8 a b

def vmulosh (a b : M128) : M128 :=
  let a : M128 := slli 32 4 16 a
  let a : M128 := srai 32 4 16 a
  let b : M128 := slli 32 4 16 b
  let b : M128 := srai 32 4 16 b
  mullo 32 4 a b

def vmladduhm (a b c : M128) : M128 :=
  let d : M128 := mullo 16 8 a b
  add 16 8 d c

/- Half of the products, rounded, added and saturated. -/
def roundedSums (h l c : M128) : M128 :=
  let hext : M128 := cvtepu 16 32 4 h
  let lext : M128 := cvtepu 16 32 4 l
  let bhl := bslli hext 2 ||| lext
  let bhl : M128 := add 32 4 bhl (set1 32 4 0x00004000#32)
  let bhl : M128 := srai 32 4 15 bhl
  let c : M128 := cvtepi 16 32 4 c
  let s : M128 := add 32 4 bhl c
  let s := maxEpi32 s (set1 32 4 (-32768))
  minEpi32 s (set1 32 4 32767)

def vmhraddshs (a b c : M128) : M128 :=
  let h := mulhiEpi16 a b
  let l : M128 := mullo 16 8 a b
  let s1 := roundedSums (bsrli h 8) (bsrli l 8) (bsrli c 8)
  let s2 := roundedSums h l c
  let left :=
    shuffleEpi8 s1
      (setEpi8
        [13, 12, 9, 8, 5, 4, 1, 0,
          -1, -1, -1, -1, -1, -1, -1, -1])
  let right :=
    shuffleEpi8 s2
      (setEpi8
        [-1, -1, -1, -1, -1, -1, -1, -1,
          13, 12, 9, 8, 5, 4, 1, 0])
  left ||| right

/- The sums of four bytes and a word, cut off at the top. -/
def vsum4ubs (a b : M128) : M128 :=
  pack 32 4 (fun i =>
    let sum :=
      (List.range 4).foldl
        (fun sum j => sum + (lane 8 a (4 * i + j)).toNat) 0
    let sum := sum + (lane 32 b i).toNat
    BitVec.ofNat 32
      (if 0xffffffff < sum then 0xffffffff else sum))

/- The counts of the shifts of words. -/
def wordCounts (b : M128) : M128 :=
  b &&& (set1 32 4 0b11111#32 : M128)

def vslw (a b : M128) : M128 := sllv 32 4 a (wordCounts b)

def vsrw (a b : M128) : M128 := srlv 32 4 a (wordCounts b)

def vsraw (a b : M128) : M128 := srav 32 4 a (wordCounts b)

def vrlw (a b : M128) : M128 :=
  let b := wordCounts b
  let left : M128 := sllv 32 4 a b
  let b : M128 := sub 32 4 (set1 32 4 32#32) b
  let right : M128 := srlv 32 4 a b
  left ||| right

/- The counts of the shifts of halfwords, as words. -/
def halfwordCounts (b : M128) : M256 :=
  (cvtepu 16 32 8 b : M256) &&& (set1 32 8 0b1111#32 : M256)

/- The low halfwords of eight words. -/
def narrow (dext : M256) : M128 :=
  let sh :=
    set256Epi8
      [29, 28, 25, 24, 21, 20, 17, 16,
        -1, -1, -1, -1, -1, -1, -1, -1,
        -1, -1, -1, -1, -1, -1, -1, -1,
        13, 12, 9, 8, 5, 4, 1, 0]
  let dext := shuffle256Epi8 dext sh
  extracti128 dext 1 ||| extracti128 dext 0

def vslh (a b : M128) : M128 :=
  let aext : M256 := cvtepu 16 32 8 a
  narrow (sllv 32 8 aext (halfwordCounts b))

def vsrah (a b : M128) : M128 :=
  let aext : M256 := cvtepi 16 32 8 a
  narrow (srav 32 8 aext (halfwordCounts b))

/- A loop over the bytes. -/
def vslb (a b : M128) : M128 :=
  let b := (set1 8 16 0b111#8 : M128) &&& b
  pack 8 16 (fun i => lane 8 a i <<< (lane 8 b i).toNat)

------------------------------------------------------------
-- Packs, Comparisons and Dispatch
------------------------------------------------------------

def vpkshus (a b : M128) : M128 := packusEpi16 b a

def vupkhsb (b : M128) : M128 := cvtepi 8 16 8 (bsrli b 8)

def vupklsb (b : M128) : M128 := cvtepi 8 16 8 b

def vcmpequb (a b : M128) : M128 := cmpeq 8 16 a b

def vcmpequw (a b : M128) : M128 := cmpeq 32 4 a b

def vcmpgtsw (a b : M128) : M128 := cmpgt 32 4 a b

/- What the unsigned comparisons share. -/
def cmpgtUnsigned
    (w k : Nat)
    (val : BitVec w)
    (a b : M128)
    (hWidth : w * k = 128) : M128 :=
  let val : M128 := (set1 w k val).cast hWidth
  let a : M128 := (sub w k a val).cast hWidth
  let b : M128 := (sub w k b val).cast hWidth
  (cmpgt w k a b).cast hWidth

def vcmpgtub (a b : M128) : M128 :=
  cmpgtUnsigned 8 16 0x80#8 a b rfl

def vcmpgtuh (a b : M128) : M128 :=
  cmpgtUnsigned 16 8 0x8000#16 a b rfl

def vcmpgtuw (a b : M128) : M128 :=
  cmpgtUnsigned 32 4 0x80000000#32 a b rfl

/- `updateCRF`: are all bits set, and are none? -/
def updateCRF
    (d : M128)
    (rc : Bool)
    (r : Registers VectorFile) : Registers VectorFile :=
  if rc then
    let t := testAllOnes d
    let f := testAllOnes (~~~d)
    r.setCRF 6#3
      ((BitVec.ofBool t).setWidth 8 <<< 3 |||
        (BitVec.ofBool f).setWidth 8 <<< 1)
  else r

/- The vector an instruction on integers computes. -/
def vectorResult
    (i : VectorInstr)
    (x : BitVec 32)
    (v : VectorFile) : Option M128 :=
  let a := v (vA x)
  let b := v (vB x)
  let c := v (vC x)
  match i with
  | .vmhraddshs => some (vmhraddshs a b c)
  | .vmladduhm => some (vmladduhm a b c)
  | .vsel => some (vsel c a b)
  | .vperm => some (vperm a b c)
  | .vsldoi => some (vsldoi (shb x) a b)
  | .vcmpgtuw => some (vcmpgtuw a b)
  | .vcmpgtuh => some (vcmpgtuh a b)
  | .vcmpgtub => some (vcmpgtub a b)
  | .vcmpgtsw => some (vcmpgtsw a b)
  | .vcmpequw => some (vcmpequw a b)
  | .vcmpequb => some (vcmpequb a b)
  | .vsrah => some (vsrah a b)
  | .vupklsb => some (vupklsb b)
  | .vupkhsb => some (vupkhsb b)
  | .vslh => some (vslh a b)
  | .vpkshus => some (vpkshus a b)
  | .vadduhm => some (vadduhm a b)
  | .vaddubm => some (vaddubm a b)
  | .vsububm => some (vsububm a b)
  | .vminub => some (vminub a b)
  | .vmaxub => some (vmaxub a b)
  | .vaddshs => some (vaddshs a b)
  | .vsubshs => some (vsubshs a b)
  | .vxor => some (vxor a b)
  | .vspltw => some (vspltw (uimm2 x) b)
  | .vsplth => some (vsplth (uimm3 x) b)
  | .vspltisw => some (vspltisw (simm x))
  | .vspltish => some (vspltish (simm x))
  | .vspltisb => some (vspltisb (simm x))
  | .vand => some (vand a b)
  | .vnor => some (vnor a b)
  | .vor => some (vor a b)
  | .vadduwm => some (vadduwm a b)
  | .vsubuwm => some (vsubuwm a b)
  | .vsubuhm => some (vsubuhm a b)
  | .vslw => some (vslw a b)
  | .vslb => some (vslb a b)
  | .vsrw => some (vsrw a b)
  | .vmrghw => some (vmrghw a b)
  | .vmrglw => some (vmrglw a b)
  | .vandc => some (vandc a b)
  | .vsraw => some (vsraw a b)
  | .vmrglh => some (vmrglh a b)
  | .vmrghh => some (vmrghh a b)
  | .vmulosh => some (vmulosh a b)
  | .vrlw => some (vrlw a b)
  | .vsum4ubs => some (vsum4ubs a b)
  | _ => none

/- The instructions that have a record form. -/
def hasRecordForm : VectorInstr → Bool
  | .vcmpgtuw => true
  | .vcmpgtuh => true
  | .vcmpgtub => true
  | .vcmpgtsw => true
  | .vcmpequw => true
  | .vcmpequb => true
  | _ => false

def emulateVector
    (i : VectorInstr)
    (x : BitVec 32)
    (r : Registers VectorFile) :
    Option (Registers VectorFile) :=
  (vectorResult i x r.rest).map (fun d =>
    updateCRF d (hasRecordForm i && vRc x)
      (r.setXmm (vD x) d))

end Ppu

end Ps3emu
