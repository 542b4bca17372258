import Ps3emu.Spu.R128

/-
  The bodies of SPU instructions on registers: arithmetic on
  words, multiplications, masks, shuffles, shifts, rotates
  and comparisons.

  A body with a loop writes to its target lane by lane.  Its
  sources are copies, unless it takes them by reference.

  Key definitions include:
    * `Macro.cgx`, `Macro.bgx`, `Macro.mpya`
    * `Macro.shufb`
    * `Macro.shlqbi`, `Macro.rotqmbybi`
    * `Macro.clgti`
    * `emulateCompute`
-/

------------------------------------------------------------
-- Tables
------------------------------------------------------------

namespace Ps3emu

namespace Spu

open Lanes Sse
open Ppu (byteShiftLeftShuffleControl rol)

def byteRotateLeftShuffleControl : List (List (BitVec 8)) :=
  [[15, 14, 13, 12, 11, 10, 9, 8, 7, 6, 5, 4, 3, 2, 1, 0],
    [14, 13, 12, 11, 10, 9, 8, 7, 6, 5, 4, 3, 2, 1, 0, 15],
    [13, 12, 11, 10, 9, 8, 7, 6, 5, 4, 3, 2, 1, 0, 15, 14],
    [12, 11, 10, 9, 8, 7, 6, 5, 4, 3, 2, 1, 0, 15, 14, 13],
    [11, 10, 9, 8, 7, 6, 5, 4, 3, 2, 1, 0, 15, 14, 13, 12],
    [10, 9, 8, 7, 6, 5, 4, 3, 2, 1, 0, 15, 14, 13, 12, 11],
    [9, 8, 7, 6, 5, 4, 3, 2, 1, 0, 15, 14, 13, 12, 11, 10],
    [8, 7, 6, 5, 4, 3, 2, 1, 0, 15, 14, 13, 12, 11, 10, 9],
    [7, 6, 5, 4, 3, 2, 1, 0, 15, 14, 13, 12, 11, 10, 9, 8],
    [6, 5, 4, 3, 2, 1, 0, 15, 14, 13, 12, 11, 10, 9, 8, 7],
    [5, 4, 3, 2, 1, 0, 15, 14, 13, 12, 11, 10, 9, 8, 7, 6],
    [4, 3, 2, 1, 0, 15, 14, 13, 12, 11, 10, 9, 8, 7, 6, 5],
    [3, 2, 1, 0, 15, 14, 13, 12, 11, 10, 9, 8, 7, 6, 5, 4],
    [2, 1, 0, 15, 14, 13, 12, 11, 10, 9, 8, 7, 6, 5, 4, 3],
    [1, 0, 15, 14, 13, 12, 11, 10, 9, 8, 7, 6, 5, 4, 3, 2],
    [0, 15, 14, 13, 12, 11, 10, 9, 8, 7, 6, 5, 4, 3, 2, 1]]

def generateControlByte : List (List (BitVec 8)) :=
  [[0x3, 0x11, 0x12, 0x13, 0x14, 0x15, 0x16, 0x17,
      0x18, 0x19, 0x1a, 0x1b, 0x1c, 0x1d, 0x1e, 0x1f],
    [0x10, 0x3, 0x12, 0x13, 0x14, 0x15, 0x16, 0x17,
      0x18, 0x19, 0x1a, 0x1b, 0x1c, 0x1d, 0x1e, 0x1f],
    [0x10, 0x11, 0x3, 0x13, 0x14, 0x15, 0x16, 0x17,
      0x18, 0x19, 0x1a, 0x1b, 0x1c, 0x1d, 0x1e, 0x1f],
    [0x10, 0x11, 0x12, 0x3, 0x14, 0x15, 0x16, 0x17,
      0x18, 0x19, 0x1a, 0x1b, 0x1c, 0x1d, 0x1e, 0x1f],
    [0x10, 0x11, 0x12, 0x13, 0x3, 0x15, 0x16, 0x17,
      0x18, 0x19, 0x1a, 0x1b, 0x1c, 0x1d, 0x1e, 0x1f],
    [0x10, 0x11, 0x12, 0x13, 0x14, 0x3, 0x16, 0x17,
      0x18, 0x19, 0x1a, 0x1b, 0x1c, 0x1d, 0x1e, 0x1f],
    [0x10, 0x11, 0x12, 0x13, 0x14, 0x15, 0x3, 0x17,
      0x18, 0x19, 0x1a, 0x1b, 0x1c, 0x1d, 0x1e, 0x1f],
    [0x10, 0x11, 0x12, 0x13, 0x14, 0x15, 0x16, 0x3,
      0x18, 0x19, 0x1a, 0x1b, 0x1c, 0x1d, 0x1e, 0x1f],
    [0x10, 0x11, 0x12, 0x13, 0x14, 0x15, 0x16, 0x17,
      0x3, 0x19, 0x1a, 0x1b, 0x1c, 0x1d, 0x1e, 0x1f],
    [0x10, 0x11, 0x12, 0x13, 0x14, 0x15, 0x16, 0x17,
      0x18, 0x3, 0x1a, 0x1b, 0x1c, 0x1d, 0x1e, 0x1f],
    [0x10, 0x11, 0x12, 0x13, 0x14, 0x15, 0x16, 0x17,
      0x18, 0x19, 0x3, 0x1b, 0x1c, 0x1d, 0x1e, 0x1f],
    [0x10, 0x11, 0x12, 0x13, 0x14, 0x15, 0x16, 0x17,
      0x18, 0x19, 0x1a, 0x3, 0x1c, 0x1d, 0x1e, 0x1f],
    [0x10, 0x11, 0x12, 0x13, 0x14, 0x15, 0x16, 0x17,
      0x18, 0x19, 0x1a, 0x1b, 0x3, 0x1d, 0x1e, 0x1f],
    [0x10, 0x11, 0x12, 0x13, 0x14, 0x15, 0x16, 0x17,
      0x18, 0x19, 0x1a, 0x1b, 0x1c, 0x3, 0x1e, 0x1f],
    [0x10, 0x11, 0x12, 0x13, 0x14, 0x15, 0x16, 0x17,
      0x18, 0x19, 0x1a, 0x1b, 0x1c, 0x1d, 0x3, 0x1f],
    [0x10, 0x11, 0x12, 0x13, 0x14, 0x15, 0x16, 0x17,
      0x18, 0x19, 0x1a, 0x1b, 0x1c, 0x1d, 0x1e, 0x3]]

def generateControlHw : List (List (BitVec 8)) :=
  [[0x2, 0x3, 0x12, 0x13, 0x14, 0x15, 0x16, 0x17,
      0x18, 0x19, 0x1a, 0x1b, 0x1c, 0x1d, 0x1e, 0x1f],
    [0x10, 0x11, 0x2, 0x3, 0x14, 0x15, 0x16, 0x17,
      0x18, 0x19, 0x1a, 0x1b, 0x1c, 0x1d, 0x1e, 0x1f],
    [0x10, 0x11, 0x12, 0x13, 0x2, 0x3, 0x16, 0x17,
      0x18, 0x19, 0x1a, 0x1b, 0x1c, 0x1d, 0x1e, 0x1f],
    [0x10, 0x11, 0x12, 0x13, 0x14, 0x15, 0x2, 0x3,
      0x18, 0x19, 0x1a, 0x1b, 0x1c, 0x1d, 0x1e, 0x1f],
    [0x10, 0x11, 0x12, 0x13, 0x14, 0x15, 0x16, 0x17,
      0x2, 0x3, 0x1a, 0x1b, 0x1c, 0x1d, 0x1e, 0x1f],
    [0x10, 0x11, 0x12, 0x13, 0x14, 0x15, 0x16, 0x17,
      0x18, 0x19, 0x2, 0x3, 0x1c, 0x1d, 0x1e, 0x1f],
    [0x10, 0x11, 0x12, 0x13, 0x14, 0x15, 0x16, 0x17,
      0x18, 0x19, 0x1a, 0x1b, 0x2, 0x3, 0x1e, 0x1f],
    [0x10, 0x11, 0x12, 0x13, 0x14, 0x15, 0x16, 0x17,
      0x18, 0x19, 0x1a, 0x1b, 0x1c, 0x1d, 0x2, 0x3]]

def generateControlW : List (List (BitVec 8)) :=
  [[0x0, 0x1, 0x2, 0x3, 0x14, 0x15, 0x16, 0x17,
      0x18, 0x19, 0x1a, 0x1b, 0x1c, 0x1d, 0x1e, 0x1f],
    [0x10, 0x11, 0x12, 0x13, 0x0, 0x1, 0x2, 0x3,
      0x18, 0x19, 0x1a, 0x1b, 0x1c, 0x1d, 0x1e, 0x1f],
    [0x10, 0x11, 0x12, 0x13, 0x14, 0x15, 0x16, 0x17,
      0x0, 0x1, 0x2, 0x3, 0x1c, 0x1d, 0x1e, 0x1f],
    [0x10, 0x11, 0x12, 0x13, 0x14, 0x15, 0x16, 0x17,
      0x18, 0x19, 0x1a, 0x1b, 0x0, 0x1, 0x2, 0x3]]

def generateControlDw : List (List (BitVec 8)) :=
  [[0x0, 0x1, 0x2, 0x3, 0x4, 0x5, 0x6, 0x7,
      0x18, 0x19, 0x1a, 0x1b, 0x1c, 0x1d, 0x1e, 0x1f],
    [0x10, 0x11, 0x12, 0x13, 0x14, 0x15, 0x16, 0x17,
      0x0, 0x1, 0x2, 0x3, 0x4, 0x5, 0x6, 0x7]]

namespace Macro

variable (ra rb rc rt : BitVec 7)

------------------------------------------------------------
-- Controls of Insertions and Words With Carries
------------------------------------------------------------

/- The row of a table. -/
def control (table : List (List (BitVec 8))) (t : BitVec 32) : R128 :=
  setEpi8 (table.getD t.toNat [])

def cbd
    (i7 : BitVec 32)
    (r : RegisterFile) : RegisterFile :=
  let t := i7 + (r ra).w 0
  r.setXmm rt (control generateControlByte (t &&& 0xf#32))

def cbx (r : RegisterFile) : RegisterFile :=
  let t := (r ra).w 0 + (r rb).w 0
  r.setXmm rt (control generateControlByte (t &&& 0xf#32))

def chd
    (i7 : BitVec 32)
    (r : RegisterFile) : RegisterFile :=
  let t := i7 + (r ra).w 0
  r.setXmm rt
    (control generateControlHw ((t &&& 0xe#32) >>> 1))

def chx (r : RegisterFile) : RegisterFile :=
  let t := (r ra).w 0 + (r rb).w 0
  r.setXmm rt
    (control generateControlHw ((t &&& 0xe#32) >>> 1))

def cwd
    (i7 : BitVec 32)
    (r : RegisterFile) : RegisterFile :=
  let t := i7 + (r ra).w 0
  r.setXmm rt
    (control generateControlW ((t &&& 0xc#32) >>> 2))

def cwx (r : RegisterFile) : RegisterFile :=
  let t := (r ra).w 0 + (r rb).w 0
  r.setXmm rt
    (control generateControlW ((t &&& 0xc#32) >>> 2))

def cdd
    (i7 : BitVec 32)
    (r : RegisterFile) : RegisterFile :=
  let t := i7 + (r ra).w 0
  r.setXmm rt
    (control generateControlDw ((t &&& 0x8#32) >>> 3))

def cdx (r : RegisterFile) : RegisterFile :=
  let t := (r ra).w 0 + (r rb).w 0
  r.setXmm rt
    (control generateControlDw ((t &&& 0x8#32) >>> 3))

def a (r : RegisterFile) : RegisterFile :=
  r.setXmm rt (add 32 4 (r ra) (r rb))

def sf (r : RegisterFile) : RegisterFile :=
  r.setXmm rt (sub 32 4 (r rb) (r ra))

def addx (r : RegisterFile) : RegisterFile :=
  let mask : R128 := set1 32 4 1#32
  let ab : R128 := add 32 4 (r ra) (r rb)
  let t := r rt &&& mask
  r.setXmm rt (add 32 4 ab t)

def cg (r : RegisterFile) : RegisterFile :=
  let ab : R128 := add 32 4 (r ra) (r rb)
  let val : R128 := set1 32 4 0x80000000#32
  let a : R128 := sub 32 4 (r ra) val
  let ab : R128 := sub 32 4 ab val
  let t : R128 := cmpgt 32 4 a ab
  r.setXmm rt (srli 32 4 31 t)

def cgx (r : RegisterFile) : RegisterFile :=
  let a := r ra
  let b := r rb
  eachW rt
    (fun r i =>
      let t : BitVec 64 :=
        (b.w i).setWidth 64 + (a.w i).setWidth 64 +
          ((r rt).w i &&& 1#32).signExtend 64
      ((t >>> 32) &&& 1#64).setWidth 32)
    r

def sfx (r : RegisterFile) : RegisterFile :=
  let a := r ra
  let b := r rb
  eachW rt
    (fun r i =>
      let t : BitVec 64 :=
        (b.w i).signExtend 64 + (~~~(a.w i)).signExtend 64 +
          ((r rt).w i &&& 1#32).signExtend 64
      t.setWidth 32)
    r

def bg (r : RegisterFile) : RegisterFile :=
  let val : R128 := set1 32 4 0x80000000#32
  let a : R128 := sub 32 4 (r ra) val
  let b : R128 := sub 32 4 (r rb) val
  let t : R128 := ~~~(cmpgt 32 4 a b)
  r.setXmm rt (srli 32 4 31 t)

def bgx (r : RegisterFile) : RegisterFile :=
  let a := r ra
  let b := r rb
  eachW rt
    (fun r i =>
      let noBorrow :=
        if (r rt).w i &&& 1#32 ≠ 0#32 then (a.w i).ule (b.w i)
        else (a.w i).ult (b.w i)
      (BitVec.ofBool noBorrow).setWidth 32)
    r

------------------------------------------------------------
-- Products, Masks and Shuffles
------------------------------------------------------------

/- `(int16_t)w`, as an `int`. -/
def low (w : BitVec 32) : BitVec 32 :=
  (w.setWidth 16).signExtend 32

/- `(int16_t)signed_rshift32(w, 16)`, as an `int`. -/
def high (w : BitVec 32) : BitVec 32 :=
  ((w.sshiftRight 16).setWidth 16).signExtend 32

def mpy (r : RegisterFile) : RegisterFile :=
  let a : R128 := slli 32 4 16 (r ra)
  let a : R128 := srai 32 4 16 a
  let b : R128 := slli 32 4 16 (r rb)
  let b : R128 := srai 32 4 16 b
  r.setXmm rt (mullo 32 4 a b)

def mpyu (r : RegisterFile) : RegisterFile :=
  let mask : R128 := set1 32 4 0x0000ffff#32
  r.setXmm rt (mullo 32 4 (r ra &&& mask) (r rb &&& mask))

def mpyi
    (i10 : BitVec 32)
    (r : RegisterFile) : RegisterFile :=
  let b : R128 := set1 32 4 i10
  let a : R128 := slli 32 4 16 (r ra)
  let a : R128 := srai 32 4 16 a
  r.setXmm rt (mullo 32 4 a b)

def mpyui
    (i10 : BitVec 32)
    (r : RegisterFile) : RegisterFile :=
  let b : R128 := set1 32 4 (i10 &&& 0xffff#32)
  let mask : R128 := set1 32 4 0xffff#32
  r.setXmm rt (mullo 32 4 (r ra &&& mask) b)

/- The addend is a reference too. -/
def mpya (r : RegisterFile) : RegisterFile :=
  let a := r ra
  let b := r rb
  eachW rt
    (fun r i => low (a.w i) * low (b.w i) + (r rc).w i) r

def mpyh (r : RegisterFile) : RegisterFile :=
  let a : R128 := srai 32 4 16 (r ra)
  let b : R128 := slli 32 4 16 (r rb)
  let b : R128 := srai 32 4 16 b
  let t : R128 := mullo 32 4 a b
  r.setXmm rt (slli 32 4 16 t)

def mpys (r : RegisterFile) : RegisterFile :=
  let a := r ra
  let b := r rb
  eachW rt
    (fun _ i => (low (a.w i) * low (b.w i)).sshiftRight 16) r

def mpyhh (r : RegisterFile) : RegisterFile :=
  let a := r ra
  let b := r rb
  eachW rt (fun _ i => high (a.w i) * high (b.w i)) r

def mpyhha (r : RegisterFile) : RegisterFile :=
  let a := r ra
  let b := r rb
  eachW rt
    (fun r i => (r rt).w i + high (a.w i) * high (b.w i)) r

def mpyhhu (r : RegisterFile) : RegisterFile :=
  let a := r ra
  let b := r rb
  eachW rt (fun _ i => (a.w i >>> 16) * (b.w i >>> 16)) r

def mpyhhau (r : RegisterFile) : RegisterFile :=
  let a := r ra
  let b := r rb
  eachW rt
    (fun r i => (r rt).w i + (a.w i >>> 16) * (b.w i >>> 16))
    r

def fsmbi
    (i16 : BitVec 32)
    (r : RegisterFile) : RegisterFile :=
  let mask := 0x8080808080808080#64
  let right := pdep64 (i16.setWidth 64) mask
  let left := pdep64 ((i16 >>> 8).setWidth 64) mask
  let lr := setEpi64x left right
  r.setXmm rt (cmpgt 8 16 0#128 lr)

/- The form in rewritten code. -/
def fsmbiRewriter
    (i16 : BitVec 32)
    (r : RegisterFile) : RegisterFile :=
  let ones (bit : BitVec 32) : BitVec 8 :=
    if i16 &&& bit ≠ 0#32 then 0xff#8 else 0#8
  r.setXmm rt
    (setEpi8
      [ones 0b1000000000000000#32, ones 0b0100000000000000#32,
        ones 0b0010000000000000#32, ones 0b0001000000000000#32,
        ones 0b0000100000000000#32, ones 0b0000010000000000#32,
        ones 0b0000001000000000#32, ones 0b0000000100000000#32,
        ones 0b0000000010000000#32, ones 0b0000000001000000#32,
        ones 0b0000000000100000#32, ones 0b0000000000010000#32,
        ones 0b0000000000001000#32, ones 0b0000000000000100#32,
        ones 0b0000000000000010#32, ones 0b0000000000000001#32])

def fsmb (r : RegisterFile) : RegisterFile :=
  let a := (r ra).w 0
  let low := (a &&& 0xff#32).signExtend 64
  let high := (a.sshiftRight 8 &&& 0xff#32).signExtend 64
  let mask := 0x0101010101010101#64
  let t := setEpi64x (pdep64 high mask) (pdep64 low mask)
  r.setXmm rt (cmpgt 8 16 t 0#128)

def fsmh (r : RegisterFile) : RegisterFile :=
  let a := (r ra).w 0
  let low := (a &&& 0xf#32).signExtend 64
  let high := (a.sshiftRight 4 &&& 0xf#32).signExtend 64
  let mask := 0x0001000100010001#64
  let t := setEpi64x (pdep64 high mask) (pdep64 low mask)
  r.setXmm rt (cmpgt 16 8 t 0#128)

def fsm (r : RegisterFile) : RegisterFile :=
  let a := (r ra).w 0
  let low := (a &&& 0b11#32).signExtend 64
  let high := (a.sshiftRight 2 &&& 0b11#32).signExtend 64
  let mask := 0x0000000100000001#64
  let t := setEpi64x (pdep64 high mask) (pdep64 low mask)
  r.setXmm rt (cmpgt 32 4 t 0#128)

/- `bits.to_ulong()`, the last lane at the low end. -/
def bitset
    (k : Nat)
    (lane : Nat → Bool) : BitVec 32 :=
  (pack 1 k (fun j =>
    BitVec.ofBool (lane (k - 1 - j)))).setWidth 32

/- What the three bodies do with their bits. -/
def gather
    (bits : BitVec 32)
    (r : RegisterFile) : RegisterFile :=
  let t := (r rt).set_w 0 bits
  let t := t.set_w 1 0#32
  let t := t.set_w 2 0#32
  r.setXmm rt (t.set_w 3 0#32)

def gbb (r : RegisterFile) : RegisterFile :=
  let a := r ra
  gather rt (bitset 16 fun i => a.b i &&& 1#8 != 0#8) r

def gbh (r : RegisterFile) : RegisterFile :=
  let a := r ra
  gather rt (bitset 8 fun i => a.hw i &&& 1#16 != 0#16) r

def gb (r : RegisterFile) : RegisterFile :=
  let a := r ra
  gather rt (bitset 4 fun i => a.w i &&& 1#32 != 0#32) r

def shufb (r : RegisterFile) : RegisterFile :=
  let a := r ra
  let b := r rb
  let c := r rc
  let sx : R128 := srli 64 2 5 c
  let sx := sx &&& set1 8 16 0b111#8
  let snx : R128 := c &&& set1 8 16 0b11111#8
  let snx : R128 := sub 8 16 (set1 8 16 31#8) snx
  let gt : R128 := cmpgt 8 16 snx (set1 8 16 15#8)
  let s1 := snx
  let s2 : R128 := sub 8 16 snx (set1 8 16 16#8)
  let d1 := shuffleEpi8 b s1
  let d2 := shuffleEpi8 a s2
  let x : R128 := set1 32 4 0x80ff0000#32
  let dx := shuffleEpi8 x sx
  let d := blendvEpi8 d1 d2 gt
  let d := blendvEpi8 d dx (cmpgt 8 16 0#128 c)
  r.setXmm rt d

------------------------------------------------------------
-- Shifts and Rotates
------------------------------------------------------------

def shlh (r : RegisterFile) : RegisterFile :=
  let a := r ra
  let b := r rb
  eachHw rt
    (fun _ i =>
      let sh := (b.hw i).setWidth 32 &&& 0b11111#32
      if 15#32 < sh then 0#16
      else
        ((a.hw i).signExtend 32 <<< sh.toNat).setWidth 16)
    r

/- The immediate is not reduced. -/
def shlhi
    (i7 : BitVec 32)
    (r : RegisterFile) : RegisterFile :=
  r.setXmm rt (slli 16 8 i7.toNat (r ra))

def shl (r : RegisterFile) : RegisterFile :=
  let b := r rb &&& set1 32 4 0b111111#32
  r.setXmm rt (sllv 32 4 (r ra) b)

def shli
    (i7 : BitVec 32)
    (r : RegisterFile) : RegisterFile :=
  let sh := i7 &&& 0b111111#32
  if 31#32 < sh then r.setXmm rt 0#128
  else r.setXmm rt (slli 32 4 sh.toNat (r ra))

/- What `shlqbi` and `shlqbii` do with the count. -/
def shiftLeftByBits (a : R128) (sh : BitVec 32) : R128 :=
  let tail :=
    (lane 8 a 7).setWidth 32 >>> (8#32 - sh).toNat
  let tail128 :=
    setEpi8
      [0, 0, 0, 0, 0, 0, 0, tail.setWidth 8,
        0, 0, 0, 0, 0, 0, 0, 0]
  let sh128 := setEpi64x 0#64 (sh.setWidth 64)
  let t : R128 := sll 64 2 a sh128
  t ||| tail128

def shlqbi (r : RegisterFile) : RegisterFile :=
  let sh := (r rb).w 0 &&& 0b111#32
  r.setXmm rt (shiftLeftByBits (r ra) sh)

def shlqbii
    (i7 : BitVec 32)
    (r : RegisterFile) : RegisterFile :=
  let sh := i7 &&& 0b111#32
  r.setXmm rt (shiftLeftByBits (r ra) sh)

def shlqby (r : RegisterFile) : RegisterFile :=
  let sh := (r rb).w 0 &&& 0b11111#32
  r.setXmm rt
    (shuffleEpi8 (r ra)
      (control byteShiftLeftShuffleControl sh))

def make128 (low high : BitVec 64) : BitVec 128 :=
  low.setWidth 128 <<< 64 ||| high.setWidth 128

/- `make128(ra.dw<0>(), ra.dw<1>())`. -/
def u128 (a : R128) : BitVec 128 :=
  make128 (a.dw 0) (a.dw 1)

/- The two stores after the arithmetic on 128 bits. -/
def setU128
    (u : BitVec 128)
    (r : RegisterFile) : RegisterFile :=
  let t := (r rt).set_dw 0 ((u >>> 64).setWidth 64)
  r.setXmm rt (t.set_dw 1 (u.setWidth 64))

def shlqbyi
    (i7 : BitVec 32)
    (r : RegisterFile) : RegisterFile :=
  let sh := i7 &&& 0b11111#32
  let u :=
    if 15#32 < sh then 0#128
    else u128 (r ra) <<< (sh * 8#32).toNat
  setU128 rt u r

/- The form in rewritten code. -/
def shlqbyiRewriter
    (i7 : BitVec 32)
    (r : RegisterFile) : RegisterFile :=
  let sh := i7 &&& 0b11111#32
  if 15#32 < sh then r.setXmm rt 0#128
  else r.setXmm rt (bslli (r ra) sh.toNat)

def shlqbybi (r : RegisterFile) : RegisterFile :=
  let sh := (r rb).w 0 >>> 3 &&& 0b11111#32
  r.setXmm rt
    (shuffleEpi8 (r ra)
      (control byteShiftLeftShuffleControl sh))

def roth (r : RegisterFile) : RegisterFile :=
  let a := r ra
  let b := r rb
  eachHw rt
    (fun _ i =>
      rol (a.hw i) ((b.hw i).signExtend 32 &&& 0b1111#32))
    r

def rothi
    (i7 : BitVec 32)
    (r : RegisterFile) : RegisterFile :=
  let a := r ra
  let sh := i7 &&& 0b1111#32
  eachHw rt (fun _ i => rol (a.hw i) sh) r

/- The form in rewritten code. -/
def rothiRewriter
    (i7 : BitVec 32)
    (r : RegisterFile) : RegisterFile :=
  let a := r ra
  let sh := i7 &&& 0b1111#32
  let left : R128 := slli 16 8 sh.toNat a
  let right : R128 := srli 16 8 (-sh &&& 0b1111#32).toNat a
  r.setXmm rt (left ||| right)

def rot (r : RegisterFile) : RegisterFile :=
  let a := r ra
  let b := r rb
  eachW rt (fun _ i => rol (a.w i) (b.w i &&& 0b11111#32)) r

def roti
    (i7 : BitVec 32)
    (r : RegisterFile) : RegisterFile :=
  let a := r ra
  let sh := i7 &&& 0b11111#32
  eachW rt (fun _ i => rol (a.w i) sh) r

def rotqby (r : RegisterFile) : RegisterFile :=
  let sh := (r rb).w 0 &&& 0b1111#32
  r.setXmm rt
    (shuffleEpi8 (r ra)
      (control byteRotateLeftShuffleControl sh))

def rotqbyi
    (i7 : BitVec 32)
    (r : RegisterFile) : RegisterFile :=
  let sh := i7 &&& 0b1111#32
  r.setXmm rt
    (shuffleEpi8 (r ra)
      (control byteRotateLeftShuffleControl sh))

def rotqbybi (r : RegisterFile) : RegisterFile :=
  let sh := (r rb).w 0 >>> 3 &&& 0b1111#32
  r.setXmm rt
    (shuffleEpi8 (r ra)
      (control byteRotateLeftShuffleControl sh))

def rotqbi (r : RegisterFile) : RegisterFile :=
  let sh := (r rb).w 0 &&& 0b111#32
  setU128 rt (rol (u128 (r ra)) sh) r

def rotqbii
    (i7 : BitVec 32)
    (r : RegisterFile) : RegisterFile :=
  let sh := i7 &&& 0b111#32
  setU128 rt (rol (u128 (r ra)) sh) r

------------------------------------------------------------
-- Rotates With Masks
------------------------------------------------------------

/- The halfword is unsigned, and the count from the loop. -/
def rothmLane
    (a : BitVec 16)
    (sh : BitVec 32) : BitVec 16 :=
  if sh < 16#32 then a >>> sh.toNat else 0#16

def rothm (r : RegisterFile) : RegisterFile :=
  let a := r ra
  let b := r rb
  eachHw rt
    (fun _ i =>
      rothmLane (a.hw i) (-(b.hw i).signExtend 32 &&& 0x1f#32))
    r

def rothmi
    (i7 : BitVec 32)
    (r : RegisterFile) : RegisterFile :=
  let a := r ra
  let sh := -i7 &&& 0x1f#32
  eachHw rt (fun _ i => rothmLane (a.hw i) sh) r

def rotmLane
    (a : BitVec 32)
    (sh : BitVec 32) : BitVec 32 :=
  if sh < 32#32 then a >>> sh.toNat else 0#32

def rotm (r : RegisterFile) : RegisterFile :=
  let a := r ra
  let b := r rb
  eachW rt
    (fun _ i => rotmLane (a.w i) (-(b.w i) &&& 0x3f#32)) r

def rotmi
    (i7 : BitVec 32)
    (r : RegisterFile) : RegisterFile :=
  let a := r ra
  let sh := -i7 &&& 0x3f#32
  eachW rt (fun _ i => rotmLane (a.w i) sh) r

/- `sh > 15 ? 0 : u128 >> sh * 8`. -/
def shiftRightByBytes
    (u : BitVec 128)
    (sh : BitVec 32) : BitVec 128 :=
  if 15#32 < sh then 0#128 else u >>> (sh * 8#32).toNat

def rotqmby (r : RegisterFile) : RegisterFile :=
  let sh := -(r rb).w 0 &&& 0x1f#32
  setU128 rt (shiftRightByBytes (u128 (r ra)) sh) r

def rotqmbyi
    (i7 : BitVec 32)
    (r : RegisterFile) : RegisterFile :=
  let sh := -i7 &&& 0x1f#32
  setU128 rt (shiftRightByBytes (u128 (r ra)) sh) r

/- The word is signed, and shifted before it is negated. -/
def rotqmbybi (r : RegisterFile) : RegisterFile :=
  let sh := -((r rb).w 0).sshiftRight 3 &&& 0b11111#32
  let u :=
    if sh < 16#32 then u128 (r ra) >>> (sh * 8#32).toNat
    else make128 0#64 0#64
  setU128 rt u r

def rotqmbi (r : RegisterFile) : RegisterFile :=
  let sh := -(r rb).w 0 &&& 7#32
  setU128 rt (u128 (r ra) >>> sh.toNat) r

def rotqmbii
    (i7 : BitVec 32)
    (r : RegisterFile) : RegisterFile :=
  let sh := -i7 &&& 7#32
  setU128 rt (u128 (r ra) >>> sh.toNat) r

/- The halfword is signed. -/
def rotmahLane
    (a : BitVec 16)
    (sh : BitVec 32) : BitVec 16 :=
  let a := a.signExtend 32
  let t :=
    if sh < 16#32 then a.sshiftRight sh.toNat
    else if a &&& 1#32 <<< 15 ≠ 0#32 then ~~~0#32 else 0#32
  t.setWidth 16

def rotmah (r : RegisterFile) : RegisterFile :=
  let a := r ra
  let b := r rb
  eachHw rt
    (fun _ i =>
      rotmahLane (a.hw i)
        (-(b.hw i).signExtend 32 &&& 0x1f#32))
    r

def rotmahi
    (i7 : BitVec 32)
    (r : RegisterFile) : RegisterFile :=
  let a := r ra
  let sh := -i7 &&& 0x1f#32
  eachHw rt (fun _ i => rotmahLane (a.hw i) sh) r

def rotmaLane
    (a : BitVec 32)
    (sh : BitVec 32) : BitVec 32 :=
  if sh < 32#32 then a.sshiftRight sh.toNat
  else if a &&& 1#32 <<< 31 ≠ 0#32 then ~~~0#32 else 0#32

def rotma (r : RegisterFile) : RegisterFile :=
  let a := r ra
  let b := r rb
  eachW rt
    (fun _ i => rotmaLane (a.w i) (-(b.w i) &&& 0x3f#32)) r

def rotmai
    (i7 : BitVec 32)
    (r : RegisterFile) : RegisterFile :=
  let a := r ra
  let sh := -i7 &&& 0x3f#32
  eachW rt (fun _ i => rotmaLane (a.w i) sh) r

------------------------------------------------------------
-- Comparisons
------------------------------------------------------------

def ceqb (r : RegisterFile) : RegisterFile :=
  let a := r ra
  let b := r rb
  eachB rt (fun _ i => if a.b i = b.b i then 0xff#8 else 0#8) r

def ceqbi
    (i10 : BitVec 32)
    (r : RegisterFile) : RegisterFile :=
  let a := r ra
  let imm := i10.setWidth 8
  eachB rt (fun _ i => if a.b i = imm then 0xff#8 else 0#8) r

def ceqh (r : RegisterFile) : RegisterFile :=
  let a := r ra
  let b := r rb
  eachHw rt
    (fun _ i => if a.hw i = b.hw i then 0xffff#16 else 0#16) r

def ceqhi
    (i10 : BitVec 32)
    (r : RegisterFile) : RegisterFile :=
  let a := r ra
  let imm := i10.setWidth 16
  eachHw rt
    (fun _ i => if a.hw i = imm then 0xffff#16 else 0#16) r

def ceq (r : RegisterFile) : RegisterFile :=
  r.setXmm rt (cmpeq 32 4 (r ra) (r rb))

def ceqi
    (i10 : BitVec 32)
    (r : RegisterFile) : RegisterFile :=
  let b : R128 := set1 32 4 i10
  r.setXmm rt (cmpeq 32 4 (r ra) b)

def cgtb (r : RegisterFile) : RegisterFile :=
  let a := r ra
  let b := r rb
  eachB rt
    (fun _ i => if (b.b i).slt (a.b i) then 0xff#8 else 0#8) r

def cgtbi
    (i10 : BitVec 32)
    (r : RegisterFile) : RegisterFile :=
  let a := r ra
  let imm := (i10 &&& 0xff#32).setWidth 8
  eachB rt
    (fun _ i => if imm.slt (a.b i) then 0xff#8 else 0#8) r

def cgth (r : RegisterFile) : RegisterFile :=
  let a := r ra
  let b := r rb
  eachHw rt
    (fun _ i =>
      if (b.hw i).slt (a.hw i) then 0xffff#16 else 0#16)
    r

def cgthi
    (i10 : BitVec 32)
    (r : RegisterFile) : RegisterFile :=
  let a := r ra
  let imm := i10.setWidth 16
  eachHw rt
    (fun _ i => if imm.slt (a.hw i) then 0xffff#16 else 0#16)
    r

def cgt (r : RegisterFile) : RegisterFile :=
  let a := r ra
  let b := r rb
  eachW rt
    (fun _ i =>
      if (b.w i).slt (a.w i) then 0xffffffff#32 else 0#32)
    r

def cgti
    (i10 : BitVec 32)
    (r : RegisterFile) : RegisterFile :=
  let b : R128 := set1 32 4 i10
  r.setXmm rt (cmpgt 32 4 (r ra) b)

def clgtb (r : RegisterFile) : RegisterFile :=
  let val : R128 := set1 8 16 0x80#8
  let a : R128 := sub 8 16 (r ra) val
  let b : R128 := sub 8 16 (r rb) val
  r.setXmm rt (cmpgt 8 16 a b)

def clgtbi
    (i10 : BitVec 32)
    (r : RegisterFile) : RegisterFile :=
  let val : R128 := set1 8 16 0x80#8
  let b : R128 := set1 8 16 ((i10 - 0x80#32).setWidth 8)
  let a : R128 := sub 8 16 (r ra) val
  r.setXmm rt (cmpgt 8 16 a b)

def clgth (r : RegisterFile) : RegisterFile :=
  let val : R128 := set1 16 8 0x8000#16
  let a : R128 := sub 16 8 (r ra) val
  let b : R128 := sub 16 8 (r rb) val
  r.setXmm rt (cmpgt 16 8 a b)

def clgthi
    (i10 : BitVec 32)
    (r : RegisterFile) : RegisterFile :=
  let val : R128 := set1 16 8 0x8000#16
  let b : R128 := set1 16 8 (i10.setWidth 16 - 0x8000#16)
  let a : R128 := sub 16 8 (r ra) val
  r.setXmm rt (cmpgt 16 8 a b)

def clgt (r : RegisterFile) : RegisterFile :=
  let val : R128 := set1 32 4 0x80000000#32
  let a : R128 := sub 32 4 (r ra) val
  let b : R128 := sub 32 4 (r rb) val
  r.setXmm rt (cmpgt 32 4 a b)

def clgti
    (i10 : BitVec 32)
    (r : RegisterFile) : RegisterFile :=
  let val : R128 := set1 32 4 0x80000000#32
  let b : R128 := set1 32 4 (i10 - 0x80000000#32)
  let a : R128 := sub 32 4 (r ra) val
  r.setXmm rt (cmpgt 32 4 a b)

end Macro

------------------------------------------------------------
-- Instructions
------------------------------------------------------------

section Dispatch

open Macro

/-
  What an instruction does to the registers.  The immediates
  are extended as the arguments of its body are.
-/
def emulateCompute
    (j : ComputeInstr)
    (x : BitVec 32) : Option (RegisterFile → RegisterFile) :=
  let i7u := (i7 x).setWidth 32
  let i7s := (i7 x).signExtend 32
  let i10u := (i10 x).setWidth 32
  let i10s := (i10 x).signExtend 32
  match j with
  | .cbd => some (cbd (ra x) (rt x) i7s)
  | .cbx => some (cbx (ra x) (rb x) (rt x))
  | .chd => some (chd (ra x) (rt x) i7s)
  | .chx => some (chx (ra x) (rb x) (rt x))
  | .cwd => some (cwd (ra x) (rt x) i7s)
  | .cwx => some (cwx (ra x) (rb x) (rt x))
  | .cdd => some (cdd (ra x) (rt x) i7s)
  | .cdx => some (cdx (ra x) (rb x) (rt x))
  | .a => some (a (ra x) (rb x) (rt x))
  | .sf => some (sf (ra x) (rb x) (rt x))
  | .addx => some (addx (ra x) (rb x) (rt x))
  | .cg => some (cg (ra x) (rb x) (rt x))
  | .cgx => some (cgx (ra x) (rb x) (rt x))
  | .sfx => some (sfx (ra x) (rb x) (rt x))
  | .bg => some (bg (ra x) (rb x) (rt x))
  | .bgx => some (bgx (ra x) (rb x) (rt x))
  | .mpy => some (mpy (ra x) (rb x) (rt x))
  | .mpyu => some (mpyu (ra x) (rb x) (rt x))
  | .mpyi => some (mpyi (ra x) (rt x) i10s)
  | .mpyui => some (mpyui (ra x) (rt x) i10s)
  | .mpya => some (mpya (ra x) (rb x) (rc x) (rtAbc x))
  | .mpyh => some (mpyh (ra x) (rb x) (rt x))
  | .mpys => some (mpys (ra x) (rb x) (rt x))
  | .mpyhh => some (mpyhh (ra x) (rb x) (rt x))
  | .mpyhha => some (mpyhha (ra x) (rb x) (rt x))
  | .mpyhhu => some (mpyhhu (ra x) (rb x) (rt x))
  | .mpyhhau => some (mpyhhau (ra x) (rb x) (rt x))
  | .fsmbi => some (fsmbi (rt x) ((i16 x).setWidth 32))
  | .fsmb => some (fsmb (ra x) (rt x))
  | .fsmh => some (fsmh (ra x) (rt x))
  | .fsm => some (fsm (ra x) (rt x))
  | .gbb => some (gbb (ra x) (rt x))
  | .gbh => some (gbh (ra x) (rt x))
  | .gb => some (gb (ra x) (rt x))
  | .shufb => some (shufb (ra x) (rb x) (rc x) (rtAbc x))
  | .shlh => some (shlh (ra x) (rb x) (rt x))
  | .shlhi => some (shlhi (ra x) (rt x) i7u)
  | .shl => some (shl (ra x) (rb x) (rt x))
  | .shli => some (shli (ra x) (rt x) i7u)
  | .shlqbi => some (shlqbi (ra x) (rb x) (rt x))
  | .shlqbii => some (shlqbii (ra x) (rt x) i7u)
  | .shlqby => some (shlqby (ra x) (rb x) (rt x))
  | .shlqbyi => some (shlqbyi (ra x) (rt x) i7u)
  | .shlqbybi => some (shlqbybi (ra x) (rb x) (rt x))
  | .roth => some (roth (ra x) (rb x) (rt x))
  | .rothi => some (rothi (ra x) (rt x) i7u)
  | .rot => some (rot (ra x) (rb x) (rt x))
  | .roti => some (roti (ra x) (rt x) i7u)
  | .rotqby => some (rotqby (ra x) (rb x) (rt x))
  | .rotqbyi => some (rotqbyi (ra x) (rt x) i7u)
  | .rotqbybi => some (rotqbybi (ra x) (rb x) (rt x))
  | .rotqbi => some (rotqbi (ra x) (rb x) (rt x))
  | .rotqbii => some (rotqbii (ra x) (rt x) i7u)
  | .rothm => some (rothm (ra x) (rb x) (rt x))
  | .rothmi => some (rothmi (ra x) (rt x) i7s)
  | .rotm => some (rotm (ra x) (rb x) (rt x))
  | .rotmi => some (rotmi (ra x) (rt x) i7s)
  | .rotqmby => some (rotqmby (ra x) (rb x) (rt x))
  | .rotqmbyi => some (rotqmbyi (ra x) (rt x) i7s)
  | .rotqmbybi => some (rotqmbybi (ra x) (rb x) (rt x))
  | .rotqmbi => some (rotqmbi (ra x) (rb x) (rt x))
  | .rotqmbii => some (rotqmbii (ra x) (rt x) i7s)
  | .rotmah => some (rotmah (ra x) (rb x) (rt x))
  | .rotmahi => some (rotmahi (ra x) (rt x) i7s)
  | .rotma => some (rotma (ra x) (rb x) (rt x))
  | .rotmai => some (rotmai (ra x) (rt x) i7s)
  | .ceqb => some (ceqb (ra x) (rb x) (rt x))
  | .ceqbi => some (ceqbi (ra x) (rt x) i10u)
  | .ceqh => some (ceqh (ra x) (rb x) (rt x))
  | .ceqhi => some (ceqhi (ra x) (rt x) i10s)
  | .ceq => some (ceq (ra x) (rb x) (rt x))
  | .ceqi => some (ceqi (ra x) (rt x) i10s)
  | .cgtb => some (cgtb (ra x) (rb x) (rt x))
  | .cgtbi => some (cgtbi (ra x) (rt x) i10u)
  | .cgth => some (cgth (ra x) (rb x) (rt x))
  | .cgthi => some (cgthi (ra x) (rt x) i10s)
  | .cgt => some (cgt (ra x) (rb x) (rt x))
  | .cgti => some (cgti (ra x) (rt x) i10s)
  | .clgtb => some (clgtb (ra x) (rb x) (rt x))
  | .clgtbi => some (clgtbi (ra x) (rt x) i10u)
  | .clgth => some (clgth (ra x) (rb x) (rt x))
  | .clgthi => some (clgthi (ra x) (rt x) i10u)
  | .clgt => some (clgt (ra x) (rb x) (rt x))
  | .clgti => some (clgti (ra x) (rt x) i10u)
  | _ => none

end Dispatch

end Spu

end Ps3emu
