import Ps3emu.Library.FlatMemory
import Ps3emu.Library.Transition

/-
  The page that the audio library of a guest reads: what the
  ports have played, and the time stamps of the last tags in
  a ring.

  Key definitions include:
    * `AudioAttributes`
    * `setReadIndex`, `insertTimestamp`, `lookup`
    * `Call`, `Sound`, `Kept`

  Key theorems include:
    * `fetch_put`, `fetch_fill`
    * `load_last`
    * `tracks_call`
    * `kept_of_sound`
-/

------------------------------------------------------------
-- Layout
------------------------------------------------------------

namespace Ps3emu

namespace Audio

open Bytes

abbrev maxPorts : Nat := 8

def timestampCount : Nat := 0xf

def tagDelta : BitVec 64 := 0x23

def portHwBase : BitVec 32 := 5

def fixedLatency : BitVec 64 := 3

/- The fields of the layout that are used. -/
inductive Table where
  | readIndex
  | tags
  | deltas
  | tagShift
  | lastTag
  | offset
  | timestamps
deriving DecidableEq

namespace Table

def base : Table → Nat
  | readIndex => 0
  | tags => 0xf0
  | deltas => 0x150
  | tagShift => 0x1b0
  | lastTag => 0x1b7
  | offset => 0x1bf
  | timestamps => 0x1c0

def stride : Table → Nat
  | readIndex => 16
  | _ => 8

def width : Table → Nat
  | tagShift => 4
  | offset => 1
  | _ => 8

def count : Table → Nat
  | readIndex => maxPorts + 1
  | tags => maxPorts
  | deltas => maxPorts + 1
  | timestamps => timestampCount
  | _ => 1

/- Behind the tags there is room for one more. -/
def limit : Table → Nat
  | tags => maxPorts + 1
  | t => t.count

def address (t : Table) (i : Nat) : Nat :=
  t.base + t.stride * i

end Table

/- The number in `w` bytes of the page. -/
def load
    (page : FlatMemory 64)
    (w start : Nat) : BitVec 64 :=
  (ofBigEndian w
    (page.get (BitVec.ofNat 64 start) w)).setWidth 64

/- `written` lists which items of the tables were written. -/
structure AudioAttributes where
  page : FlatMemory 64
  tag : BitVec 64
  offset : Nat
  written : List (Table × Nat)

------------------------------------------------------------
-- Attributes
------------------------------------------------------------

namespace AudioAttributes

variable (s : AudioAttributes)

def fetch (t : Table) (i : Nat) : BitVec 64 :=
  load s.page t.width (t.address i)

def put
    (t : Table)
    (i : Nat)
    (v : BitVec 64) : AudioAttributes :=
  { s with
    page :=
      s.page.set (BitVec.ofNat 64 (t.address i))
        (bigEndian (w := t.width) (v.setWidth (8 * t.width)))
    written := s.written ++ [(t, i)] }

/- A loop over the first `n` items. -/
def fill
    (t : Table)
    (v : BitVec 64)
    (n : Nat) : AudioAttributes :=
  (List.range n).foldl (fun s i => s.put t i v) s

def construct (page : FlatMemory 64) : AudioAttributes :=
  let baseTag : BitVec 64 := 101
  let s : AudioAttributes :=
    { page, tag := baseTag - fixedLatency, offset := 1
      written := [] }
  (s.put .tagShift 0 1).fill .tags baseTag maxPorts

def setReadIndex (port index : BitVec 32) : AudioAttributes :=
  let item := (port - portHwBase + 1).toNat
  let s := s.put .readIndex item (index.setWidth 64)
  s.put .tags item (s.fetch .tags item + 2)

def getReadIndex (port : BitVec 32) : BitVec 32 :=
  (s.fetch .readIndex (port - portHwBase + 1).toNat).setWidth 32

def insertTimestamp (timestamp : BitVec 64) : AudioAttributes :=
  let s := s.fill .deltas tagDelta maxPorts
  let s := s.put .lastTag 0 (tagDelta + s.tag)
  let s := s.put .offset 0 (BitVec.ofNat 64 s.offset)
  let s := s.put .timestamps (s.offset - 1) timestamp
  { s with
    tag := s.tag + 2
    offset :=
      if s.offset - 1 = 0 then timestampCount
      else s.offset - 1 }

/- How the library finds the time stamp of a tag. -/
def lookup (port : Nat) (tag : BitVec 64) : BitVec 64 :=
  let lastOffset := load s.page 8 0x1b8
  let offset := lastOffset &&& 0xff
  let last := lastOffset >>> 8
  let size := load s.page 8 (0x158 + 8 * port)
  let shift := load s.page 4 0x1b0
  let x := ((last - (size + tag)) >>> shift.toNat) + offset
  let x := if 0xf < x then x - 0xf else x
  load s.page 8 (0x1b8 + (x <<< 3).toNat)

end AudioAttributes

------------------------------------------------------------
-- Calls
------------------------------------------------------------

/- A port is numbered as in the library. -/
inductive Call where
  | setReadIndex (port : Fin maxPorts) (index : BitVec 32)
  | insertTimestamp (timestamp : BitVec 64)

def hwPort (port : Fin maxPorts) : BitVec 32 :=
  portHwBase + BitVec.ofNat 32 port

def AudioAttributes.call
    (s : AudioAttributes) : Call → AudioAttributes
  | .setReadIndex port index =>
    s.setReadIndex (hwPort port) index
  | .insertTimestamp timestamp => s.insertTimestamp timestamp

/- The indices that were set for a port. -/
def indices
    (port : Fin maxPorts)
    (calls : List Call) : List (BitVec 32) :=
  calls.filterMap fun
    | .setReadIndex p index =>
      if p = port then some index else none
    | .insertTimestamp _ => none

def stamps (calls : List Call) : List (BitVec 64) :=
  calls.filterMap fun
    | .setReadIndex _ _ => none
    | .insertTimestamp timestamp => some timestamp

/- The tag that is inserted after `n` others. -/
def tagOf (n : Nat) : BitVec 64 :=
  BitVec.ofNat 64 (98 + 2 * n)

/-
  The last port is not used, and the tag fits in the seven
  bytes that the library reads of it.
-/
def Sound (s : AudioAttributes) : Call → Prop
  | .setReadIndex port _ => port.val ≠ 7
  | .insertTimestamp _ => s.tag.toNat + 0x23 < 2 ^ 56

def Step
    (s : AudioAttributes)
    (c : Call)
    (t : AudioAttributes) : Prop :=
  t = s.call c ∧ Sound s c

/-
  The delta of the last port is the one that the memory had
  before.
-/
structure Kept
    (page : FlatMemory 64)
    (calls : List Call)
    (s : AudioAttributes) : Prop where
  inside : ∀ w ∈ s.written, w.2 < w.1.count
  readIndex :
    ∀ port index, (indices port calls).getLast? = some index →
      s.getReadIndex (hwPort port) = index
  tags :
    ∀ port : Fin maxPorts,
      s.fetch .tags (port + 1) =
        (AudioAttributes.construct page).fetch .tags (port + 1) +
          BitVec.ofNat 64 (2 * (indices port calls).length)
  lookup :
    ∀ port : Fin maxPorts,
      port.val ≠ 7 ∨ load page 8 0x190 = tagDelta →
        ∀ (n : Nat) (timestamp : BitVec 64),
          (stamps calls)[n]? = some timestamp →
            (stamps calls).length ≤ n + timestampCount →
              s.lookup port (tagOf n) = timestamp

------------------------------------------------------------
-- Items
------------------------------------------------------------

/- Different items share no byte. -/
theorem Table.address_apart
    {t t' : Table}
    {i i' : Nat}
    (hI : i < t.limit)
    (hI' : i' < t'.limit)
    (hNe : (t, i) ≠ (t', i')) :
    t.address i + t.width ≤ t'.address i' ∨
      t'.address i' + t'.width ≤ t.address i := by
  cases t <;> cases t' <;>
    simp only [address, base, stride, width, limit, count,
      maxPorts, timestampCount, ne_eq, Prod.mk.injEq, true_and,
      reduceCtorEq, false_and, not_false_eq_true] at * <;>
    omega

theorem Table.address_lt
    {t : Table}
    {i : Nat}
    (hI : i < t.limit) :
    t.address i + t.width < 2 ^ 16 := by
  cases t <;>
    simp only [address, base, stride, width, limit, count,
      maxPorts, timestampCount] at * <;>
    omega

/- Bytes below the end of the address space, in order. -/
theorem get_set_of_apart
    (page : FlatMemory 64)
    {start other n : Nat}
    {bytes : List Byte}
    (hStart : start + bytes.length < 2 ^ 64)
    (hOther : other + n < 2 ^ 64)
    (hApart :
      start + bytes.length ≤ other ∨ other + n ≤ start) :
    (page.set (BitVec.ofNat 64 start) bytes).get
        (BitVec.ofNat 64 other) n =
      page.get (BitVec.ofNat 64 other) n := by
  apply FlatMemory.get_set_of_disjoint
  intro i hI
  have hSum :
      BitVec.ofNat 64 other + BitVec.ofNat 64 i =
        BitVec.ofNat 64 (other + i) :=
    (BitVec.ofNat_add other i).symm
  rw [hSum, BitVec.toNat_sub, BitVec.toNat_ofNat,
    BitVec.toNat_ofNat, Nat.mod_eq_of_lt (a := start) (by omega),
    Nat.mod_eq_of_lt (a := other + i) (by omega)]
  omega

namespace AudioAttributes

variable (s : AudioAttributes) {t : Table}

theorem load_put_of_apart
    {i w start : Nat}
    (v : BitVec 64)
    (hI : i < t.limit)
    (hStart : start + w < 2 ^ 64)
    (hApart :
      t.address i + t.width ≤ start ∨ start + w ≤ t.address i) :
    load (s.put t i v).page w start = load s.page w start := by
  have hLt := t.address_lt hI
  unfold load
  rw [put, get_set_of_apart _ (by simpa using by omega) hStart
    (by simpa using hApart)]

theorem fetch_put_self
    (t : Table)
    (i : Nat)
    (v : BitVec 64) :
    (s.put t i v).fetch t i =
      (v.setWidth (8 * t.width)).setWidth 64 := by
  have hSelf := s.page.get_set_self
    (BitVec.ofNat 64 (t.address i))
    (bigEndian (w := t.width) (v.setWidth (8 * t.width)))
    (by rw [length_bigEndian]; cases t <;> decide)
  rw [length_bigEndian] at hSelf
  rw [fetch, load, put, hSelf, ofBigEndian_bigEndian]

theorem fetch_put
    {t t' : Table}
    {i i' : Nat}
    (v : BitVec 64)
    (hI : i < t.limit)
    (hI' : i' < t'.limit) :
    (s.put t i v).fetch t' i' =
      if (t, i) = (t', i') then
        (v.setWidth (8 * t.width)).setWidth 64
      else s.fetch t' i' := by
  split
  · next hEq =>
    cases hEq
    exact s.fetch_put_self t i v
  · next hNe =>
    have hLt := t'.address_lt hI'
    exact s.load_put_of_apart v hI (by omega)
      (Table.address_apart hI hI' hNe)

theorem fill_succ
    (t : Table)
    (v : BitVec 64)
    (n : Nat) :
    s.fill t v (n + 1) = (s.fill t v n).put t n v := by
  simp [fill, List.range_succ]

theorem fetch_fill
    {t t' : Table}
    {n i' : Nat}
    (v : BitVec 64)
    (hN : n ≤ t.limit)
    (hI' : i' < t'.limit) :
    (s.fill t v n).fetch t' i' =
      if t = t' ∧ i' < n then
        (v.setWidth (8 * t.width)).setWidth 64
      else s.fetch t' i' := by
  induction n with
  | zero => simp [fill]
  | succ n ih =>
      rw [fill_succ, fetch_put _ v (by omega) hI',
        ih (by omega)]
      simp only [Prod.mk.injEq]
      by_cases hT : t = t'
      · by_cases hEq : n = i'
        · simp [hT, hEq]
        · have hIff : i' < n + 1 ↔ i' < n := by omega
          simp [hT, hEq, hIff]
      · simp [hT]

theorem fill_eq
    (t : Table)
    (v : BitVec 64)
    (n : Nat) :
    s.fill t v n =
      { s with
        page := (s.fill t v n).page
        written := s.written ++ (List.range n).map (t, ·) } := by
  induction n with
  | zero => simp [fill]
  | succ n ih =>
      rw [fill_succ, put, ih, List.range_succ]
      simp

theorem tag_fill
    (t : Table)
    (v : BitVec 64)
    (n : Nat) : (s.fill t v n).tag = s.tag := by
  rw [fill_eq]

theorem offset_fill
    (t : Table)
    (v : BitVec 64)
    (n : Nat) : (s.fill t v n).offset = s.offset := by
  rw [fill_eq]

theorem written_fill
    (t : Table)
    (v : BitVec 64)
    (n : Nat) :
    (s.fill t v n).written =
      s.written ++ (List.range n).map (t, ·) := by
  rw [fill_eq]

/-
  The word that holds the offset has seven bytes of the tag
  in front of it.
-/
theorem load_last (v o : BitVec 64) :
    load ((s.put .lastTag 0 v).put .offset 0 o).page 8 0x1b8 =
      BitVec.ofNat 64
        (o.toNat % 256 + 256 * (v.toNat % 256 ^ 7)) := by
  have hByte :
      bigEndian (w := 1) (o.setWidth 8) = [o.setWidth 8] := by
    simp only [bigEndian, littleEndian, digits,
      List.reverse_singleton, BitVec.ofNat_toNat]
    rw [BitVec.setWidth_eq]
  have hWord : v.setWidth (8 * 8) = v := BitVec.setWidth_eq v
  have hPage :
      ((s.put .lastTag 0 v).put .offset 0 o).page =
        (s.page.set (BitVec.ofNat 64 0x1b7)
          (bigEndian (w := 8) v)).set (BitVec.ofNat 64 0x1bf)
            [o.setWidth 8] := by
    rw [← hByte]
    conv_rhs => rw [← hWord]
    rfl
  have hLow := FlatMemory.get_set_self
    (s.page.set (BitVec.ofNat 64 0x1b7) (bigEndian (w := 8) v))
    (BitVec.ofNat 64 0x1bf) [o.setWidth 8] (by simp)
  have hHigh := FlatMemory.get_set_self s.page
    (BitVec.ofNat 64 0x1b7) (bigEndian (w := 8) v) (by simp)
  rw [length_bigEndian, FlatMemory.get_add _ _ 1 7] at hHigh
  have hTail := congrArg (List.drop 1) hHigh
  rw [List.drop_left' (by simp)] at hTail
  have hKept := @get_set_of_apart
    (s.page.set (BitVec.ofNat 64 0x1b7) (bigEndian (w := 8) v))
    0x1bf 0x1b8 7 [o.setWidth 8] (by simp) (by simp) (by simp)
  have hDigits :
      (bigEndian (w := 8) v).drop 1 =
        (digits 7 v.toNat).reverse := rfl
  unfold load ofBigEndian ofLittleEndian
  rw [hPage, FlatMemory.get_add _ _ 7 1, hKept]
  have hFirst :
      (s.page.set (BitVec.ofNat 64 0x1b7)
        (bigEndian (w := 8) v)).get (BitVec.ofNat 64 0x1b8) 7 =
        (digits 7 v.toNat).reverse := hTail.trans hDigits
  have hLast :
      ((s.page.set (BitVec.ofNat 64 0x1b7)
        (bigEndian (w := 8) v)).set (BitVec.ofNat 64 0x1bf)
          [o.setWidth 8]).get (BitVec.ofNat 64 0x1bf) 1 =
        [o.setWidth 8] := hLow
  rw [hFirst]
  show BitVec.setWidth 64 (BitVec.ofNat 64 (value
    (_ ++ FlatMemory.get _ (BitVec.ofNat 64 0x1bf) 1).reverse)) =
      _
  rw [hLast, List.reverse_append, List.reverse_reverse,
    BitVec.setWidth_eq, List.reverse_singleton,
    List.singleton_append, value_cons, value_digits,
    BitVec.toNat_setWidth]

variable {i : Nat}

theorem fetch_insertTimestamp
    (timestamp : BitVec 64)
    (hOffset : s.offset - 1 < timestampCount)
    (hI : i < t.limit) :
    (s.insertTimestamp timestamp).fetch t i =
      if (Table.timestamps, s.offset - 1) = (t, i) then timestamp
      else if (Table.offset, 0) = (t, i) then
        ((BitVec.ofNat 64 s.offset).setWidth 8).setWidth 64
      else if (Table.lastTag, 0) = (t, i) then tagDelta + s.tag
      else if .deltas = t ∧ i < maxPorts then tagDelta
      else s.fetch t i := by
  have hFetch :
      (s.insertTimestamp timestamp).fetch t i =
        ((((s.fill .deltas tagDelta maxPorts).put .lastTag 0
          (tagDelta + s.tag)).put .offset 0
            (BitVec.ofNat 64 s.offset)).put .timestamps
              (s.offset - 1) timestamp).fetch t i := by
    conv_rhs =>
      rw [← s.tag_fill .deltas tagDelta maxPorts,
        ← s.offset_fill .deltas tagDelta maxPorts]
    rfl
  rw [hFetch, fetch_put _ _ hOffset hI,
    fetch_put _ _ (by decide) hI, fetch_put _ _ (by decide) hI,
    fetch_fill _ _ (by decide) hI]
  simp only [Table.width, BitVec.setWidth_eq]

end AudioAttributes

------------------------------------------------------------
-- Ring
------------------------------------------------------------

/- The ring is filled from its end. -/
def slot (n : Nat) : Nat :=
  timestampCount - (n + 14) % timestampCount

/- What the library computes from the last tag. -/
theorem position_eq
    {last n : Nat}
    (hLast : n < last)
    (hRing : last ≤ n + timestampCount)
    (hFit : 131 + 2 * last < 2 ^ 56) :
    let lastOffset :=
      BitVec.ofNat 64
        (slot (last - 1) + 256 * (131 + 2 * last))
    let x :=
      ((lastOffset >>> 8 - (tagDelta + tagOf n)) >>> 1) +
        (lastOffset &&& 0xff)
    (if 0xf < x then x - 0xf else x) = BitVec.ofNat 64 (slot n) := by
  intro lastOffset x
  have hSlot : slot (last - 1) < 256 := by
    unfold slot timestampCount
    omega
  have hWord :
      lastOffset.toNat =
        slot (last - 1) + 256 * (131 + 2 * last) := by
    rw [BitVec.toNat_ofNat]
    exact Nat.mod_eq_of_lt (by omega)
  have hMask :
      (lastOffset &&& 0xff).toNat = slot (last - 1) := by
    rw [BitVec.toNat_and, hWord]
    refine (Nat.and_two_pow_sub_one_eq_mod _ 8).trans ?_
    omega
  have hTag : (lastOffset >>> 8).toNat = 131 + 2 * last := by
    rw [BitVec.toNat_ushiftRight, hWord,
      Nat.shiftRight_eq_div_pow]
    omega
  have hBehind :
      (lastOffset >>> 8 - (tagDelta + tagOf n)).toNat =
        2 * (last - 1 - n) := by
    have hDelta : tagDelta.toNat = 0x23 := rfl
    rw [BitVec.toNat_sub, hTag, BitVec.toNat_add, hDelta, tagOf,
      BitVec.toNat_ofNat]
    omega
  have hX : x.toNat = last - 1 - n + slot (last - 1) := by
    rw [BitVec.toNat_add, hMask, BitVec.toNat_ushiftRight,
      hBehind, Nat.shiftRight_eq_div_pow]
    omega
  have hCount : (0xf : BitVec 64).toNat = 15 := rfl
  apply BitVec.eq_of_toNat_eq
  rw [BitVec.toNat_ofNat]
  unfold slot timestampCount at *
  split
  · next hLong =>
    rw [BitVec.lt_def, hX, hCount] at hLong
    rw [BitVec.toNat_sub, hX, hCount]
    omega
  · next hShort =>
    rw [BitVec.lt_def, hX, hCount] at hShort
    rw [hX]
    omega

theorem slot_bounds (n : Nat) :
    0 < slot n ∧ slot n ≤ timestampCount := by
  unfold slot timestampCount
  omega

theorem slot_succ (n : Nat) :
    (if slot n - 1 = 0 then timestampCount else slot n - 1) =
      slot (n + 1) := by
  unfold slot timestampCount
  split
  · omega
  · omega

------------------------------------------------------------
-- Runs
------------------------------------------------------------

/- The page and the private state after some calls. -/
structure Tracks
    (page : FlatMemory 64)
    (calls : List Call)
    (s : AudioAttributes) : Prop where
  inside : ∀ w ∈ s.written, w.2 < w.1.count
  tag : s.tag = tagOf (stamps calls).length
  offset : s.offset = slot (stamps calls).length
  tagShift : s.fetch .tagShift 0 = 1
  lastDelta : s.fetch .deltas 8 = load page 8 0x190
  recent :
    stamps calls ≠ [] →
      131 + 2 * (stamps calls).length < 2 ^ 56 ∧
      load s.page 8 0x1b8 =
        BitVec.ofNat 64
          (slot ((stamps calls).length - 1) +
            256 * (131 + 2 * (stamps calls).length)) ∧
      ∀ i < maxPorts, s.fetch .deltas i = tagDelta
  ring :
    ∀ (n : Nat) (timestamp : BitVec 64),
      (stamps calls)[n]? = some timestamp →
        (stamps calls).length ≤ n + timestampCount →
          s.fetch .timestamps (slot n - 1) = timestamp
  readIndex :
    ∀ port index, (indices port calls).getLast? = some index →
      s.fetch .readIndex (port + 1) = index.setWidth 64
  tags :
    ∀ port : Fin maxPorts,
      s.fetch .tags (port + 1) =
        (AudioAttributes.construct page).fetch .tags (port + 1) +
          BitVec.ofNat 64 (2 * (indices port calls).length)

theorem toNat_hwPort (port : Fin maxPorts) :
    (hwPort port - portHwBase + 1).toNat = port + 1 := by
  revert port
  decide

@[simp]
theorem stamps_setReadIndex
    (port : Fin maxPorts)
    (index : BitVec 32) :
    stamps (calls ++ [.setReadIndex port index]) =
      stamps calls := by
  simp [stamps]

@[simp]
theorem stamps_insertTimestamp (timestamp : BitVec 64) :
    stamps (calls ++ [.insertTimestamp timestamp]) =
      stamps calls ++ [timestamp] := by
  simp [stamps]

@[simp]
theorem indices_setReadIndex
    (port p : Fin maxPorts)
    (index : BitVec 32) :
    indices p (calls ++ [.setReadIndex port index]) =
      indices p calls ++ if port = p then [index] else [] := by
  by_cases hEq : port = p
  · simp [indices, hEq]
  · simp [indices, hEq]

@[simp]
theorem indices_insertTimestamp
    (p : Fin maxPorts)
    (timestamp : BitVec 64) :
    indices p (calls ++ [.insertTimestamp timestamp]) =
      indices p calls := by
  simp [indices]

namespace AudioAttributes

variable (s : AudioAttributes) (port : Fin maxPorts) (index : BitVec 32)

/- A port has an item behind its number in both tables. -/
theorem item_lt (port : Fin maxPorts) :
    port.val + 1 < Table.readIndex.limit ∧
      port.val + 1 < Table.tags.limit :=
  ⟨Nat.succ_lt_succ port.isLt, Nat.succ_lt_succ port.isLt⟩

theorem fetch_setReadIndex
    {t : Table}
    {i : Nat}
    (hI : i < t.limit) :
    (s.setReadIndex (hwPort port) index).fetch t i =
      if (Table.tags, port.val + 1) = (t, i) then
        s.fetch .tags (port + 1) + 2
      else if (Table.readIndex, port.val + 1) = (t, i) then
        index.setWidth 64
      else s.fetch t i := by
  obtain ⟨hRead, hTags⟩ := item_lt port
  unfold setReadIndex
  dsimp only
  rw [toNat_hwPort, fetch_put _ _ hTags hI,
    fetch_put _ _ hRead hTags, fetch_put _ _ hRead hI]
  simp [Table.width]

theorem load_last_setReadIndex :
    load (s.setReadIndex (hwPort port) index).page 8 0x1b8 =
      load s.page 8 0x1b8 := by
  obtain ⟨hRead, hTags⟩ := item_lt port
  have hBelow :
      ∀ t : Table, t = .readIndex ∨ t = .tags →
        t.address (port.val + 1) + t.width ≤ 0x1b8 := by
    have hLt := port.isLt
    unfold maxPorts at hLt
    rintro t (rfl | rfl) <;>
      simp only [Table.address, Table.base, Table.stride,
        Table.width] <;>
      omega
  unfold setReadIndex
  dsimp only
  rw [toNat_hwPort,
    load_put_of_apart _ _ hTags (by decide)
      (.inl (hBelow _ (.inr rfl))),
    load_put_of_apart _ _ hRead (by decide)
      (.inl (hBelow _ (.inl rfl)))]

/- The last tag and the offset, as the library reads them. -/
theorem load_last_insertTimestamp
    (timestamp : BitVec 64)
    (hItem : s.offset - 1 < timestampCount) :
    load (s.insertTimestamp timestamp).page 8 0x1b8 =
      BitVec.ofNat 64
        ((BitVec.ofNat 64 s.offset).toNat % 256 +
          256 * ((tagDelta + s.tag).toNat % 256 ^ 7)) := by
  have hTag := s.tag_fill .deltas tagDelta maxPorts
  have hOffset := s.offset_fill .deltas tagDelta maxPorts
  rw [← load_last (s.fill .deltas tagDelta maxPorts), ← hTag,
    ← hOffset]
  exact load_put_of_apart _ timestamp
    (by rw [← hOffset] at hItem; exact hItem) (by decide)
    (.inr (by
      simp only [Table.address, Table.base]
      omega))

end AudioAttributes

theorem fetch_construct
    (page : FlatMemory 64)
    {t : Table}
    {i : Nat}
    (hI : i < t.limit) :
    (AudioAttributes.construct page).fetch t i =
      if .tags = t ∧ i < maxPorts then 101
      else if (Table.tagShift, 0) = (t, i) then 1
      else load page t.width (t.address i) := by
  unfold AudioAttributes.construct
  dsimp only
  rw [AudioAttributes.fetch_fill _ _ (by decide) hI,
    AudioAttributes.fetch_put _ _ (by decide) hI]
  rfl

theorem tracks_construct (page : FlatMemory 64) :
    Tracks page [] (AudioAttributes.construct page) := by
  have hFill :
      AudioAttributes.construct page = _ :=
    AudioAttributes.fill_eq _ .tags 101 maxPorts
  refine ⟨?_, ?_, ?_, fetch_construct page (by decide),
    fetch_construct page (by decide), fun hNe => absurd rfl hNe,
    ?_, ?_, ?_⟩
  · rw [hFill]
    show ∀ w ∈ [(Table.tagShift, 0)] ++
      (List.range maxPorts).map (Table.tags, ·), w.2 < w.1.count
    decide
  · rw [hFill]
    rfl
  · rw [hFill]
    rfl
  · intro n timestamp hN
    cases hN
  · intro port index hIndex
    cases hIndex
  · intro port
    simp [indices]

variable {page : FlatMemory 64}

theorem tracks_setReadIndex
    {s : AudioAttributes}
    {port : Fin maxPorts}
    (index : BitVec 32)
    (hTracks : Tracks page calls s)
    (hPort : port.val ≠ 7) :
    Tracks page (calls ++ [.setReadIndex port index])
      (s.setReadIndex (hwPort port) index) := by
  have hRead : port.val + 1 < Table.readIndex.count :=
    Nat.succ_lt_succ port.isLt
  have hTag : port.val + 1 < Table.tags.count := by
    have hLt := port.isLt
    simp only [Table.count, maxPorts] at *
    omega
  have hFetch :=
    fun {t : Table} {i : Nat} (hI : i < t.limit) =>
      s.fetch_setReadIndex port index hI
  refine ⟨?_, ?_, ?_, ?_, ?_, ?_, ?_, ?_, ?_⟩
  · intro w hW
    have hWritten :
        (s.setReadIndex (hwPort port) index).written =
          s.written ++ [(.readIndex, port.val + 1)] ++
            [(.tags, port.val + 1)] := by
      rw [← toNat_hwPort]
      rfl
    rw [hWritten] at hW
    simp only [List.mem_append, List.mem_singleton] at hW
    rcases hW with (hOld | rfl) | rfl
    · exact hTracks.inside w hOld
    · exact hRead
    · exact hTag
  · rw [stamps_setReadIndex]
    exact hTracks.tag
  · rw [stamps_setReadIndex]
    exact hTracks.offset
  · rw [hFetch (by decide)]
    exact hTracks.tagShift
  · rw [hFetch (by decide)]
    exact hTracks.lastDelta
  · rw [stamps_setReadIndex, s.load_last_setReadIndex]
    intro hSome
    obtain ⟨hFit, hLast, hDeltas⟩ := hTracks.recent hSome
    refine ⟨hFit, hLast, fun i hI => ?_⟩
    rw [hFetch (Nat.lt_succ_of_lt hI)]
    exact hDeltas i hI
  · rw [stamps_setReadIndex]
    intro n timestamp hN hRing
    have hSlot := slot_bounds n
    rw [hFetch (by
      show _ < timestampCount
      omega)]
    exact hTracks.ring n timestamp hN hRing
  · intro p i hLast
    rw [indices_setReadIndex] at hLast
    rw [hFetch (Nat.succ_lt_succ p.isLt)]
    by_cases hEq : port = p
    · subst hEq
      simp at hLast
      simp [hLast]
    · have hNe : port.val ≠ p.val := fun h => hEq (Fin.ext h)
      simp only [if_neg hEq, List.append_nil] at hLast
      simpa [hNe] using hTracks.readIndex p i hLast
  · intro p
    rw [indices_setReadIndex, hFetch (Nat.succ_lt_succ p.isLt)]
    by_cases hEq : port = p
    · subst hEq
      have hTwo :
          BitVec.ofNat 64 (2 * (indices port calls).length) + 2 =
            BitVec.ofNat 64
              (2 * ((indices port calls).length + 1)) :=
        (BitVec.ofNat_add _ 2).symm
      simp [hTracks.tags port, ← hTwo, BitVec.add_assoc]
    · have hNe : port.val ≠ p.val := fun h => hEq (Fin.ext h)
      simpa [hNe, hEq] using hTracks.tags p

theorem tracks_insertTimestamp
    {s : AudioAttributes}
    (timestamp : BitVec 64)
    (hTracks : Tracks page calls s)
    (hFit : s.tag.toNat + 0x23 < 2 ^ 56) :
    Tracks page (calls ++ [.insertTimestamp timestamp])
      (s.insertTimestamp timestamp) := by
  have hLength :
      (stamps (calls ++ [.insertTimestamp timestamp])).length =
        (stamps calls).length + 1 := by
    simp
  have hSlot := slot_bounds (stamps calls).length
  have hItem : s.offset - 1 < timestampCount := by
    rw [hTracks.offset]
    omega
  have hFetch :=
    fun {t : Table} {i : Nat} (hI : i < t.limit) =>
      s.fetch_insertTimestamp timestamp hItem hI
  have hOffset := s.offset_fill .deltas tagDelta maxPorts
  have hLast := s.load_last_insertTimestamp timestamp hItem
  have hSum :
      (tagDelta + s.tag).toNat =
        131 + 2 * ((stamps calls).length + 1) ∧
      131 + 2 * ((stamps calls).length + 1) < 2 ^ 56 := by
    have hSmall : 98 + 2 * (stamps calls).length < 2 ^ 56 := by
      by_cases hEmpty : stamps calls = []
      · simp [hEmpty]
      · have hRecent := (hTracks.recent hEmpty).1
        omega
    rw [hTracks.tag, tagOf, BitVec.toNat_ofNat,
      Nat.mod_eq_of_lt (by omega)] at hFit
    have hDelta : tagDelta.toNat = 0x23 := rfl
    rw [hTracks.tag, tagOf, BitVec.toNat_add, hDelta,
      BitVec.toNat_ofNat]
    omega
  refine ⟨?_, ?_, ?_, ?_, ?_, fun _ => ⟨?_, ?_, ?_⟩, ?_, ?_, ?_⟩
  · show ∀ w ∈ (s.fill .deltas tagDelta maxPorts).written ++
      [(.lastTag, 0)] ++ [(.offset, 0)] ++
        [(.timestamps, _)], w.2 < w.1.count
    intro w hW
    rw [AudioAttributes.written_fill] at hW
    simp only [List.mem_append, List.mem_singleton, List.mem_map,
      List.mem_range] at hW
    rcases hW with (((hOld | ⟨i, hI, rfl⟩) | rfl) | rfl) | rfl
    · exact hTracks.inside w hOld
    · exact Nat.lt_succ_of_lt hI
    · decide
    · decide
    · rw [← hOffset] at hItem
      exact hItem
  · rw [hLength]
    show (s.fill .deltas tagDelta maxPorts).tag + 2 = _
    rw [AudioAttributes.tag_fill, hTracks.tag]
    exact (BitVec.ofNat_add _ 2).symm
  · rw [hLength, ← slot_succ, ← hTracks.offset, ← hOffset]
    rfl
  · rw [hFetch (by decide)]
    exact hTracks.tagShift
  · rw [hFetch (by decide)]
    exact hTracks.lastDelta
  · rw [hLength]
    exact hSum.2
  · rw [hLength, hLast, hSum.1, hTracks.offset,
      BitVec.toNat_ofNat]
    simp only [timestampCount] at hSlot
    rw [Nat.add_sub_cancel]
    congr 2
    · omega
    · omega
  · intro i hI
    rw [hFetch (Nat.lt_succ_of_lt hI)]
    simp [hI]
  · rw [hLength, stamps_insertTimestamp]
    intro n other hN hRing
    have hBounds := slot_bounds n
    have hOther :
        n ≠ (stamps calls).length →
          n < (stamps calls).length ∧
            slot (stamps calls).length - 1 ≠ slot n - 1 := by
      intro hNe
      have hLt := (List.getElem?_eq_some_iff.mp hN).1
      rw [List.length_append, List.length_singleton] at hLt
      unfold slot timestampCount at *
      omega
    rw [hFetch (by
      show _ < timestampCount
      omega), hTracks.offset]
    by_cases hEq : n = (stamps calls).length
    · subst hEq
      simpa using hN
    · obtain ⟨hLt, hNe⟩ := hOther hEq
      rw [List.getElem?_append_left hLt] at hN
      simpa [hNe] using hTracks.ring n other hN (by omega)
  · intro p i hIndex
    rw [indices_insertTimestamp] at hIndex
    rw [hFetch (Nat.succ_lt_succ p.isLt)]
    exact hTracks.readIndex p i hIndex
  · intro p
    rw [indices_insertTimestamp, hFetch (Nat.succ_lt_succ p.isLt)]
    exact hTracks.tags p

theorem tracks_call
    {s : AudioAttributes}
    {c : Call}
    (hTracks : Tracks page calls s)
    (hSound : Sound s c) :
    Tracks page (calls ++ [c]) (s.call c) := by
  cases c with
  | setReadIndex port index =>
      exact tracks_setReadIndex index hTracks hSound
  | insertTimestamp timestamp =>
      exact tracks_insertTimestamp timestamp hTracks hSound

variable {n : Nat}

theorem lookup_of_tracks
    {s : AudioAttributes}
    (hTracks : Tracks page calls s)
    {port : Fin maxPorts}
    (hPort : port.val ≠ 7 ∨ load page 8 0x190 = tagDelta)
    {timestamp : BitVec 64}
    (hStamp : (stamps calls)[n]? = some timestamp)
    (hRing : (stamps calls).length ≤ n + timestampCount) :
    s.lookup port (tagOf n) = timestamp := by
  have hLt := (List.getElem?_eq_some_iff.mp hStamp).1
  have hSome : stamps calls ≠ [] := List.ne_nil_of_length_pos
    (by omega)
  obtain ⟨hFit, hLast, hDeltas⟩ := hTracks.recent hSome
  have hBounds := slot_bounds n
  have hPosition := position_eq hLt hRing hFit
  have hShift : load s.page 4 0x1b0 = 1 := hTracks.tagShift
  have hDelta : load s.page 8 (0x158 + 8 * port) = tagDelta := by
    have hAddress :
        Table.deltas.address (port + 1) = 0x158 + 8 * port := by
      simp only [Table.address, Table.base, Table.stride]
      omega
    have hFetch : s.fetch .deltas (port + 1) = tagDelta := by
      by_cases hEnd : port.val = 7
      · rw [hEnd, hTracks.lastDelta]
        exact hPort.resolve_left (absurd hEnd)
      · refine hDeltas _ ?_
        have hPortLt := port.isLt
        unfold maxPorts at *
        omega
    rw [← hAddress]
    exact hFetch
  have hAddress :
      0x1b8 + (BitVec.ofNat 64 (slot n) <<< 3).toNat =
        Table.timestamps.address (slot n - 1) := by
    unfold timestampCount at hBounds
    rw [BitVec.toNat_shiftLeft, BitVec.toNat_ofNat,
      Nat.shiftLeft_eq]
    simp only [Table.address, Table.base, Table.stride]
    omega
  rw [← hTracks.ring n timestamp hStamp hRing]
  unfold AudioAttributes.lookup AudioAttributes.fetch
  dsimp only at hPosition ⊢
  rw [hLast, hShift, hDelta, ← hAddress, ← hPosition]
  rfl

/- A step keeps what is tracked, and that is what is kept. -/
theorem kept_of_sound
    (page : FlatMemory 64)
    {s : AudioAttributes}
    (hRun :
      Transition.Run Step (.construct page) calls s) :
    Kept page calls s := by
  have hTracks : Tracks page calls s := by
    induction hRun with
    | nil => exact tracks_construct page
    | snoc _ hStep ih =>
        obtain ⟨rfl, hSound⟩ := hStep
        exact tracks_call ih hSound
  refine ⟨hTracks.inside, ?_, hTracks.tags, ?_⟩
  · intro port index hIndex
    unfold AudioAttributes.getReadIndex
    rw [toNat_hwPort, hTracks.readIndex port index hIndex]
    simp
  · intro port hPort n timestamp hStamp hRing
    exact lookup_of_tracks hTracks hPort hStamp hRing

theorem kept_of_sound_two :
    let calls : List Call :=
      [.setReadIndex 0 3, .insertTimestamp 9]
    Kept (fun _ => 0) calls
      (calls.foldl AudioAttributes.call
        (.construct (fun _ => 0))) := by
  intro calls
  let start := AudioAttributes.construct (fun _ => 0)
  let first := start.call (.setReadIndex 0 3)
  have hFirst : Step start (.setReadIndex 0 3) first :=
    ⟨rfl, by
      show (0 : Nat) ≠ 7
      decide⟩
  have hSecond :
      Step first (.insertTimestamp 9)
        (first.call (.insertTimestamp 9)) :=
    ⟨rfl, by
      show (98 : Nat) + 0x23 < 2 ^ 56
      decide⟩
  exact kept_of_sound _ ((Transition.Run.nil.snoc hFirst).snoc
    hSecond)

/-
  The last port has no tag of its own, and no delta is
  written for it.
-/
theorem not_kept_of_last :
    let s := AudioAttributes.construct (fun _ => 0)
    (Table.tags, 8) ∈ (s.call (.setReadIndex 7 3)).written ∧
      ¬ 8 < Table.tags.count ∧
      (s.call (.insertTimestamp 9)).lookup 0 (tagOf 0) = 9 ∧
      (s.call (.insertTimestamp 9)).lookup 7 (tagOf 0) = 0 := by
  decide +kernel

end Audio

end Ps3emu
