import Ps3emu.Memory.MainMemory
import Ps3emu.Ppu.BitField

/-
  The command buffer of the renderer: a word at the get
  offset is a no-operation, a jump, a call, a return or the
  header of a method, and each moves the offset.

  Key definitions include:
    * `MethodHeader.u`, `MethodHeader.set`
    * `MethodMap`
    * `interpret`, `advance`
    * `encodeJump`
    * `Command`, `decode`
    * `Obeys`, `DecodesJumps`, `FollowsProtocol`

  Key theorems include:
    * `interpret_eq_decode`
    * `obeys_iff`, `decodesJumps`
    * `interpret_followsProtocol_iff`
-/

------------------------------------------------------------
-- Headers
------------------------------------------------------------

namespace Ps3emu

namespace Fifo

namespace MethodHeader

/- `BitField<pos, next>::u`. -/
def u (value : BitVec 32) (pos next : Nat) : BitVec 32 :=
  (Ppu.field value pos next).setWidth 32

/- `BitField<pos, next>::set`. -/
def set
    (value : BitVec 32)
    (pos next : Nat)
    (v : BitVec 32) :
    BitVec 32 :=
  let width := next - pos
  let field :=
    (v &&& (1 <<< width - 1)) <<< (32 - width - pos)
  (value &&& ~~~ (Ppu.mask 32 pos (pos + width - 1)).setWidth 32)
    ||| field

def prefixU (value : BitVec 32) : BitVec 32 := u value 0 3
def countU (value : BitVec 32) : BitVec 32 := u value 3 14
def offsetU (value : BitVec 32) : BitVec 32 := u value 16 32
def jumpoffsetU (value : BitVec 32) : BitVec 32 := u value 3 32
def calloffsetU (value : BitVec 32) : BitVec 32 := u value 0 30
def callsuffixU (value : BitVec 32) : BitVec 32 := u value 30 32

theorem toNat_u
    (value : BitVec 32)
    {pos next : Nat}
    (hPos : pos < next)
    (hNext : next ≤ 32) :
    (u value pos next).toNat =
      value.toNat / 2 ^ (32 - next) % 2 ^ (next - pos) := by
  have hLt :
      value.toNat / 2 ^ (32 - next) % 2 ^ (next - pos) <
        2 ^ 32 :=
    Nat.lt_of_lt_of_le
      (Nat.mod_lt _ (Nat.two_pow_pos _))
      (Nat.pow_le_pow_right (by decide) (by omega))
  rw [u, BitVec.toNat_setWidth, Ppu.field,
    BitVec.extractLsb'_toNat, Nat.shiftRight_eq_div_pow,
    Nat.mod_eq_of_lt hLt]

end MethodHeader

------------------------------------------------------------
-- Steps and Commands
------------------------------------------------------------

open MethodHeader

/-
  The fields that the interpreter itself uses; the rest of
  the renderer belongs to the methods.
-/
structure State (σ : Type) where
  currentCount : BitVec 32
  currentGet : Nat → BitVec 32
  currentGetValue : BitVec 32
  ret : BitVec 32
  rest : σ

/-
  What a method does; it does not touch the return address,
  and an unknown one throws.
-/
abbrev Handler (σ : Type) : Type :=
  State σ → Option σ

/- `_methodMap.resize(0x3ac1)`. -/
def methodMapSize : Nat :=
  0x3ac1

structure MethodMap (σ : Type) where
  entries : List (Handler σ)
  size : entries.length = methodMapSize

inductive Failure where
  | outOfTable
  | thrown
  deriving DecidableEq

def fastEndianReverse (x : BitVec 32) : BitVec 32 :=
  Bytes.reverseWord (w := 4) x

section

variable {σ : Type} (map : MethodMap σ)

/-
  `Rsx::interpret`: what is to be added to the get offset.
  Differences of offsets are unsigned and of 32 bits.
-/
def interpret
    (get : BitVec 32)
    (read : Nat → BitVec 32)
    (s : State σ) :
    Except Failure (Int × State σ) :=
  let header := fastEndianReverse (read 0)
  if header = 0 then
    .ok (4, s)
  else
    let s :=
      { s with
        currentCount := countU header
        currentGet := read
        currentGetValue := get }
    if prefixU header = 1 then
      .ok ((jumpoffsetU header - get).toNat, s)
    else if callsuffixU header = 2 then
      let offset := calloffsetU header <<< 2
      .ok ((offset - get).toNat, { s with ret := get + 4 })
    else if header = 0x20000 then
      .ok ((s.ret - get).toNat, { s with ret := 0 })
    else
      match map.entries[(offsetU header / 4).toNat]? with
      | none => .error .outOfTable
      | some handler =>
          match handler s with
          | none => .error .thrown
          | some rest =>
              .ok
                (((countU header + 1) * 4).toNat,
                  { s with rest := rest })

/- `setGet(localGet + len)`. -/
def advance (get : BitVec 32) (len : Int) : BitVec 32 :=
  BitVec.ofInt 32 (get.toNat + len)

end

/- The header that `encodeJump` stores. -/
def jumpHeader (destOffset : BitVec 32) : BitVec 32 :=
  MethodHeader.set (MethodHeader.set 0 0 3 1) 3 32 destOffset

/-
  `Rsx::encodeJump`: nothing where its assertion fails, or
  where the address is not allocated.
-/
def encodeJump
    (m : MainMemory)
    (va : Ps3Uintptr)
    (destOffset : BitVec 32)
    (granule : Option GranuleId) :
    Option MainMemory :=
  if destOffset &&& 3 = 0 then
    m.store .four va (jumpHeader destOffset) granule
  else
    none

/- The word behind a host pointer, as the host reads it. -/
def hostWord (m : MainMemory) (p : HostPointer) : BitVec 32 :=
  Bytes.ofLittleEndian 4 (m.host.read p 4)

/- The kinds of command words, with the offsets they encode. -/
inductive Command where
  | nop
  | jump (offset : Nat)
  | call (offset : Nat)
  | ret
  | method (count index : Nat)
  deriving DecidableEq

/- The kind of a word: the first that it fits. -/
def decode (word : BitVec 32) : Command :=
  if word.toNat = 0 then
    .nop
  else if word.toNat / 2 ^ 29 = 1 then
    .jump (word.toNat % 2 ^ 29)
  else if word.toNat % 4 = 2 then
    .call (word.toNat / 4 * 4)
  else if word.toNat = 0x20000 then
    .ret
  else
    .method (word.toNat / 2 ^ 18 % 2 ^ 11)
      (word.toNat % 2 ^ 16 / 4)

variable {σ : Type}

/- A step that returns moves the two offsets as given. -/
def Moves
    (result : Except Failure (Int × State σ))
    (get get' ret' : BitVec 32) :
    Prop :=
  ∃ len t, result = .ok (len, t) ∧
    advance get len = get' ∧ t.ret = ret'

/-
  What a step has to do with a command.  A method may throw;
  its index is inside the table in any case.
-/
def Obeys
    (map : MethodMap σ)
    (get : BitVec 32)
    (read : Nat → BitVec 32)
    (s : State σ) :
    Prop :=
  let result := interpret map get read s
  match decode (fastEndianReverse (read 0)) with
  | .nop => Moves result get (get + 4) s.ret
  | .jump offset =>
      Moves result get (BitVec.ofNat 32 offset) s.ret
  | .call offset =>
      Moves result get (BitVec.ofNat 32 offset) (get + 4)
  | .ret => Moves result get s.ret 0
  | .method count index =>
      index < map.entries.length ∧
        (result = .error .thrown ∨
          Moves result get
            (get + BitVec.ofNat 32 (4 * (count + 1))) s.ret)

/- A word that `encodeJump` has stored is a jump. -/
def DecodesJumps (map : MethodMap σ) (s : State σ) : Prop :=
  ∀ (m m' : MainMemory) (va : Ps3Uintptr)
    (granule : Option GranuleId) (p : HostPointer)
    (d get : BitVec 32) (read : Nat → BitVec 32),
    d.toNat % 4 = 0 →
    d.toNat < 2 ^ 29 →
    isSpecialVa va = false →
    encodeJump m va d granule = some m' →
    m'.getMemoryPointer va = some p →
    read 0 = hostWord m' p →
    Moves (interpret map get read s) get d s.ret

------------------------------------------------------------
-- The Tests of the Interpreter
------------------------------------------------------------

open MethodHeader

theorem prefixU_iff (word : BitVec 32) :
    prefixU word = 1 ↔ word.toNat / 2 ^ 29 = 1 := by
  have hWord := word.isLt
  have hOne : (1 : BitVec 32).toNat = 1 := rfl
  rw [← BitVec.toNat_inj, prefixU,
    toNat_u word (by decide) (by decide), hOne]
  simp only [Nat.reduceSub, Nat.reducePow] at hWord ⊢
  omega

theorem callsuffixU_iff (word : BitVec 32) :
    callsuffixU word = 2 ↔ word.toNat % 4 = 2 := by
  rw [← BitVec.toNat_inj, callsuffixU,
    toNat_u word (by decide) (by decide)]
  simp

theorem toNat_jumpoffsetU (word : BitVec 32) :
    (jumpoffsetU word).toNat = word.toNat % 2 ^ 29 := by
  rw [jumpoffsetU, toNat_u word (by decide) (by decide)]
  simp

theorem toNat_calloffsetU (word : BitVec 32) :
    (calloffsetU word <<< 2).toNat = word.toNat / 4 * 4 := by
  have hWord := word.isLt
  rw [BitVec.toNat_shiftLeft, calloffsetU,
    toNat_u word (by decide) (by decide)]
  simp only [Nat.reduceSub, Nat.reducePow, Nat.shiftLeft_eq]
  omega

theorem toNat_countU (word : BitVec 32) :
    (countU word).toNat = word.toNat / 2 ^ 18 % 2 ^ 11 := by
  rw [countU, toNat_u word (by decide) (by decide)]

theorem toNat_offsetU (word : BitVec 32) :
    (offsetU word / 4).toNat = word.toNat % 2 ^ 16 / 4 := by
  rw [BitVec.toNat_udiv, offsetU,
    toNat_u word (by decide) (by decide)]
  simp

/- The length in bytes of a method with its arguments. -/
theorem toNat_length (word : BitVec 32) :
    ((countU word + 1) * 4).toNat =
      4 * (word.toNat / 2 ^ 18 % 2 ^ 11 + 1) := by
  have hOne : (1 : BitVec 32).toNat = 1 := rfl
  have hFour : (4 : BitVec 32).toNat = 4 := rfl
  rw [BitVec.toNat_mul, BitVec.toNat_add, toNat_countU, hOne,
    hFour]
  simp only [Nat.reducePow]
  omega

theorem advance_natCast (get : BitVec 32) (n : Nat) :
    advance get n = get + BitVec.ofNat 32 n := by
  rw [advance, ← Int.natCast_add, BitVec.ofInt_natCast,
    BitVec.ofNat_add, BitVec.ofNat_toNat, BitVec.setWidth_eq]

/- Added to the get offset, a difference gives the target. -/
theorem advance_sub (get target : BitVec 32) :
    advance get (target - get).toNat = target := by
  rw [advance_natCast, BitVec.ofNat_toNat, BitVec.setWidth_eq,
    BitVec.add_comm, BitVec.sub_add_cancel]

section

variable {σ : Type} (map : MethodMap σ) (get : BitVec 32)
variable (read : Nat → BitVec 32)
variable (s : State σ)

/- The state in which a command is begun. -/
def begun (header : BitVec 32) : State σ :=
  { s with
    currentCount := countU header
    currentGet := read
    currentGetValue := get }

/- A step by the kind of its command. -/
theorem interpret_eq_decode
    (header : BitVec 32)
    (hHeader : fastEndianReverse (read 0) = header) :
    interpret map get read s =
      match decode header with
      | .nop => .ok (4, s)
      | .jump offset =>
          .ok
            ((BitVec.ofNat 32 offset - get).toNat,
              begun get read s header)
      | .call offset =>
          .ok
            ((BitVec.ofNat 32 offset - get).toNat,
              { begun get read s header with ret := get + 4 })
      | .ret =>
          .ok
            ((s.ret - get).toNat,
              { begun get read s header with ret := 0 })
      | .method count index =>
          match map.entries[index]? with
          | none => .error .outOfTable
          | some handler =>
              match handler (begun get read s header) with
              | none => .error .thrown
              | some rest =>
                  .ok
                    ((4 * (count + 1) : Nat),
                      { begun get read s header with
                        rest := rest }) := by
  have hZero : header = 0 ↔ header.toNat = 0 := by
    rw [← BitVec.toNat_inj]
    rfl
  have hRet : header = 0x20000 ↔ header.toNat = 0x20000 := by
    rw [← BitVec.toNat_inj]
    rfl
  unfold interpret decode
  simp only [hHeader, hZero, hRet, prefixU_iff, callsuffixU_iff,
    toNat_offsetU, toNat_length]
  by_cases hNop : header.toNat = 0
  · simp only [hNop, if_true]
  by_cases hJump : header.toNat / 2 ^ 29 = 1
  · simp only [hNop, hJump, if_true, if_false,
      ← toNat_jumpoffsetU, BitVec.ofNat_toNat,
      BitVec.setWidth_eq]
    rfl
  by_cases hCall : header.toNat % 4 = 2
  · simp only [hNop, hJump, hCall, if_true, if_false,
      ← toNat_calloffsetU, BitVec.ofNat_toNat,
      BitVec.setWidth_eq]
    rfl
  by_cases hReturn : header.toNat = 0x20000
  · rw [if_neg hNop, if_neg hJump, if_neg hCall, if_pos hReturn,
      if_neg hNop, if_neg hJump, if_neg hCall, if_pos hReturn]
    rfl
  · simp only [hNop, hJump, hCall, hReturn, if_false]
    rfl

/-
  A step obeys its command unless that is a method whose
  index is outside the table.
-/
theorem obeys_iff :
    Obeys map get read s ↔
      ∀ count index,
        decode (fastEndianReverse (read 0)) =
            .method count index →
          index < methodMapSize := by
  unfold Obeys
  rw [interpret_eq_decode map get read s _ rfl]
  cases decode (fastEndianReverse (read 0)) with
  | nop =>
      refine iff_of_true ?_ nofun
      exact ⟨_, _, rfl, advance_natCast get 4, rfl⟩
  | jump offset =>
      refine iff_of_true ?_ nofun
      exact ⟨_, _, rfl, advance_sub get _, rfl⟩
  | call offset =>
      refine iff_of_true ?_ nofun
      exact ⟨_, _, rfl, advance_sub get _, rfl⟩
  | ret =>
      refine iff_of_true ?_ nofun
      exact ⟨_, _, rfl, advance_sub get s.ret, rfl⟩
  | method count index =>
      have hSize := map.size
      constructor
      · rintro ⟨hIndex, -⟩ _ _ ⟨⟩
        omega
      · intro hIndex
        have hLt : index < map.entries.length := by
          rw [hSize]
          exact hIndex count index rfl
        refine ⟨hLt, ?_⟩
        dsimp only
        rw [List.getElem?_eq_getElem hLt]
        dsimp only
        cases map.entries[index]
            (begun get read s (fastEndianReverse (read 0))) with
        | none => exact .inl rfl
        | some rest =>
            exact
              .inr ⟨_, _, rfl, advance_natCast get _, rfl⟩

end

------------------------------------------------------------
-- Encoded Jumps
------------------------------------------------------------

variable {d : BitVec 32}

/- The two fields of the stored header do not overlap. -/
theorem toNat_jumpHeader
    (hLt : d.toNat < 2 ^ 29) :
    (jumpHeader d).toNat = 2 ^ 29 + d.toNat := by
  have hFirst : MethodHeader.set 0 0 3 1 = 0x20000000 := by
    decide
  have hSecond :
      MethodHeader.set 0x20000000 3 32 d =
        0x20000000 ||| (d &&& 0x1fffffff) := by
    have hKeep :
        0x20000000 &&&
            ~~~ (Ppu.mask 32 3 (3 + (32 - 3) - 1)).setWidth 32 =
          (0x20000000 : BitVec 32) := by
      decide
    rw [MethodHeader.set, hKeep]
    exact congrArg _ (BitVec.shiftLeft_zero _)
  have hMask : (0x1fffffff : BitVec 32).toNat = 2 ^ 29 - 1 :=
    rfl
  have hHigh : (0x20000000 : BitVec 32).toNat = 2 ^ 29 * 1 :=
    rfl
  rw [jumpHeader, hFirst, hSecond, BitVec.toNat_or,
    BitVec.toNat_and, hMask, Nat.and_two_pow_sub_one_eq_mod,
    Nat.mod_eq_of_lt hLt, hHigh,
    ← Nat.two_pow_add_eq_or_of_lt hLt, Nat.mul_one]

theorem decode_jumpHeader
    (hLt : d.toNat < 2 ^ 29) :
    decode (jumpHeader d) = .jump d.toNat := by
  rw [decode, toNat_jumpHeader hLt, if_neg (by omega),
    if_pos (by omega)]
  congr 1
  omega

/- What is stored is read back, byte by byte reversed. -/
theorem fastEndianReverse_hostWord
    {m m' : MainMemory} {va : Ps3Uintptr}
    {granule : Option GranuleId} {p : HostPointer}
    (hSpecial : isSpecialVa va = false)
    (hJump : encodeJump m va d granule = some m')
    (hPointer : m'.getMemoryPointer va = some p) :
    fastEndianReverse (hostWord m' p) = jumpHeader d := by
  rw [encodeJump] at hJump
  split at hJump
  case isFalse => cases hJump
  case isTrue =>
    simp only [MainMemory.store, hSpecial, Bool.false_eq_true,
      if_false] at hJump
    obtain ⟨locked, hLocked, rfl⟩ :=
      Option.map_eq_some_iff.mp hJump
    obtain ⟨ptr, hPtr, rfl⟩ :=
      Option.map_eq_some_iff.mp hLocked
    obtain rfl : ptr = p :=
      Option.some.inj (hPtr.symm.trans hPointer)
    have hRead :=
      MainMemory.read_write_self m.host ptr
        (Bytes.bigEndian (w := 4) (jumpHeader d))
    rw [Bytes.length_bigEndian] at hRead
    have hWord :
        hostWord
            (m.write ptr
              (Bytes.littleEndian
                (Bytes.reverseWord (w := 4) (jumpHeader d))))
            ptr =
          Bytes.ofLittleEndian 4
            (Bytes.bigEndian (w := 4) (jumpHeader d)) := by
      rw [Bytes.littleEndian_reverseWord]
      exact congrArg (Bytes.ofLittleEndian 4) hRead
    change
      fastEndianReverse
          (hostWord
            (m.write ptr
              (Bytes.littleEndian
                (Bytes.reverseWord (w := 4) (jumpHeader d))))
            ptr) =
        jumpHeader d
    rw [hWord, fastEndianReverse,
      Bytes.reverseWord_ofLittleEndian _ (by simp),
      Bytes.ofBigEndian_bigEndian]

/- Every jump that `encodeJump` stores is taken as one. -/
theorem decodesJumps
    {σ : Type} (map : MethodMap σ) (s : State σ) :
    DecodesJumps map s := by
  intro m m' va granule p d get read _ hLt hSpecial hJump
    hPointer hRead
  have hHeader : fastEndianReverse (read 0) = jumpHeader d := by
    rw [hRead]
    exact
      fastEndianReverse_hostWord hSpecial hJump hPointer
  rw [interpret_eq_decode map get read s _ hHeader,
    decode_jumpHeader hLt]
  refine ⟨_, _, rfl, ?_, rfl⟩
  rw [advance_sub, BitVec.ofNat_toNat, BitVec.setWidth_eq]

/-
  The protocol of the command buffer, for one step: the
  command is obeyed, and stored jumps are taken.
-/
def FollowsProtocol
    {σ : Type}
    (map : MethodMap σ)
    (get : BitVec 32)
    (read : Nat → BitVec 32)
    (s : State σ) :
    Prop :=
  Obeys map get read s ∧ DecodesJumps map s

theorem interpret_followsProtocol_iff
    {σ : Type}
    (map : MethodMap σ)
    (get : BitVec 32)
    (read : Nat → BitVec 32)
    (s : State σ) :
    FollowsProtocol map get read s ↔
      ∀ count index,
        decode (fastEndianReverse (read 0)) =
            .method count index →
          index < methodMapSize := by
  rw [FollowsProtocol, obeys_iff]
  exact and_iff_left (decodesJumps map s)

/- A table in which each method returns. -/
def quietMap : MethodMap Unit where
  entries := List.replicate methodMapSize fun _ => some ()
  size := List.length_replicate

def initialState : State Unit :=
  ⟨0, fun _ => 0, 0, 0, ()⟩

/- The header of a method at offset `0xfffc`, one argument. -/
theorem interpret_outOfTable :
    ¬ FollowsProtocol quietMap 0 (fun _ => 0xfcff0400)
      initialState := by
  rintro ⟨hObeys, -⟩
  have hIndex :=
    (obeys_iff quietMap 0 (fun _ => 0xfcff0400)
      initialState).mp hObeys 1 0x3fff (by decide)
  exact absurd hIndex (by decide)

end Fifo

end Ps3emu
