import Ps3emu.Ppu.LoadStore

/-
  The relocations of a module: the loop of `ELFLoader::map`
  over the entries of the third program header.

  Key definitions include:
    * `Segments.prxPh1Va`
    * `relocate`, `relocateAll`
    * `RelocType.placed`, `Exact`
    * `Relocates`

  Key theorems include:
    * `exact_of_halves`, `exactDs_of_halves`
    * `stored_eq_placed`
    * `relocates_iff`
    * `relocateAll_placed`
-/

------------------------------------------------------------
-- Entries
------------------------------------------------------------

namespace Ps3emu

namespace Relocation

structure Rela where
  rOffset : BitVec 64
  rInfo : BitVec 64
  rAddend : BitVec 64

/- The base of an image, and its first program header. -/
structure Segments where
  imageBase : BitVec 32
  vaddr : BitVec 64
  memsz : BitVec 64

def alignUp (value alignment : BitVec 64) : BitVec 64 :=
  (value + (alignment - 1#64)) &&& ~~~(alignment - 1#64)

/- Where the second segment is put. -/
def Segments.prxPh1Va (s : Segments) : BitVec 32 :=
  (alignUp (s.imageBase.setWidth 64 + s.vaddr + s.memsz)
    0x10000#64).setWidth 32

namespace Rela

variable (rel : Rela)

def sym : BitVec 32 := (rel.rInfo >>> 32).setWidth 32
def type : BitVec 32 := rel.rInfo.setWidth 32

def offsetRelativeToSegment : BitVec 32 := rel.sym &&& 0xff#32

def pointsToSegment : BitVec 32 :=
  (rel.sym >>> 8) &&& 0xff#32

/- The assertions on an entry. -/
def Accepted : Prop :=
  rel.rOffset >>> 32 = 0#64 ∧ rel.rAddend >>> 32 = 0#64 ∧
    rel.offsetRelativeToSegment ≤ 1#32

instance : Decidable rel.Accepted := by
  unfold Accepted
  infer_instance

def offset (s : Segments) : BitVec 64 :=
  rel.rOffset +
    (if rel.offsetRelativeToSegment ≠ 0#32 then s.prxPh1Va
      else s.imageBase).setWidth 64

def val (s : Segments) : BitVec 64 :=
  rel.rAddend +
    (if rel.pointsToSegment ≠ 0#32 then s.prxPh1Va
      else s.imageBase).setWidth 64

end Rela

def lo (x : BitVec 32) : BitVec 32 := x &&& 0xffff#32

def hi (x : BitVec 32) : BitVec 32 := (x >>> 16) &&& 0xffff#32

def ha (x : BitVec 32) : BitVec 32 :=
  ((x >>> 16) +
    (if x &&& 0x8000#32 ≠ 0#32 then 1#32 else 0#32)) &&&
      0xffff#32

/- The numbers of the types. -/
def addr32 : BitVec 32 := 1#32
def addr16Lo : BitVec 32 := 4#32
def addr16Hi : BitVec 32 := 5#32
def addr16Ha : BitVec 32 := 6#32
def addr16LoDs : BitVec 32 := 57#32

/- One turn of the loop. -/
def relocate
    (s : Segments)
    (granule : Option GranuleId)
    (mm : MainMemory)
    (rel : Rela) : Option MainMemory :=
  if rel.Accepted then
    let offset := (rel.offset s).setWidth 32
    let val := (rel.val s).setWidth 32
    if rel.type = addr32 then
      mm.store .four offset val granule
    else if rel.type = addr16Lo then
      mm.store .two offset ((lo val).setWidth 16) granule
    else if rel.type = addr16Hi then
      mm.store .two offset ((hi val).setWidth 16) granule
    else if rel.type = addr16Ha then
      mm.store .two offset ((ha val).setWidth 16) granule
    else if rel.type = addr16LoDs then
      mm.store .two offset ((lo val >>> 2).setWidth 16)
        granule
    else none
  else none

inductive RelocType where
  | addr32 | addr16Lo | addr16Hi | addr16Ha | addr16LoDs
deriving DecidableEq

namespace RelocType

def word : RelocType → BitVec 32
  | addr32 => Relocation.addr32
  | addr16Lo => Relocation.addr16Lo
  | addr16Hi => Relocation.addr16Hi
  | addr16Ha => Relocation.addr16Ha
  | addr16LoDs => Relocation.addr16LoDs

def len : RelocType → AccessLen
  | addr32 => .four
  | addr16Lo | addr16Hi | addr16Ha | addr16LoDs => .two

/- The old contents with the field of the value in place. -/
def placed
    (v : BitVec 64) :
    (kind : RelocType) → Word kind.len.bytes →
      Word kind.len.bytes
  | addr32, _ => v.extractLsb' 0 32
  | addr16Lo, _ => v.extractLsb' 0 16
  | addr16Hi, _ => v.extractLsb' 16 16
  | addr16Ha, _ => (v + 0x8000#64).extractLsb' 16 16
  | addr16LoDs, old => v.extractLsb' 2 14 ++ old.extractLsb' 0 2

end RelocType

open Ppu

/-
  An addis to a register, and an instruction that adds to it
  with the base rule of a load or store.
-/
structure Pair (R : Type) where
  op₁ : BitVec 16
  op₂ : BitVec 16
  before : Registers R
  after : Registers R

/- An instruction with a half of its own. -/
def word (op half : BitVec 16) : BitVec 32 := op ++ half

namespace Pair

variable {R : Type} (p : Pair R)

/- The first ran, and its target is the base of the second. -/
def Runs (upper lower : BitVec 16) : Prop :=
  decode (word p.op₁ upper) = some (.integer .addis) ∧
    ra (word p.op₁ upper) = 0#5 ∧
      rt (word p.op₁ upper) ≠ 0#5 ∧
        ra (word p.op₂ lower) = rt (word p.op₁ upper) ∧
          emulateInteger .addis (word p.op₁ upper) p.before =
            .ok p.after

/- The addresses that the second computes. -/
inductive Computes (lower : BitVec 16) :
    Addressing → BitVec 64 → Prop where
  | add (r : Registers R)
      (hDecode :
        decode (word p.op₂ lower) = some (.integer .addi))
      (hRun :
        emulateInteger .addi (word p.op₂ lower) p.after =
          .ok r) :
      Computes lower .d (r.gpr (rt (word p.op₂ lower)))
  | access (i : MemoryInstr) (a : Access) (form : Addressing)
      (hDecode : decode (word p.op₂ lower) = some (.memory i))
      (hAccess : access? i = some a)
      (hForm : a.addressing = form) :
      Computes lower form (a.ea (word p.op₂ lower) p.after)

end Pair

def Exact
    (R : Type)
    (form : Addressing)
    (v : BitVec 64)
    (upper lower : BitVec 16) : Prop :=
  ∀ (p : Pair R) (ea : BitVec 64),
    p.Runs upper lower → p.Computes lower form ea →
      low ea = low v

/-
  What is in place serves a pair whose other half is right.
  Only a multiple of four has a DS displacement.
-/
def RelocType.Serves
    (R : Type)
    (v : BitVec 64) :
    (kind : RelocType) → Word kind.len.bytes → Prop
  | addr32, _ | addr16Hi, _ => True
  | addr16Lo, half => Exact R .d v (addr16Ha.placed v 0) half
  | addr16Ha, half =>
      Exact R .d v half (addr16Lo.placed v 0) ∧
        (v.extractLsb' 0 2 = 0#2 →
          ∀ old, Exact R .ds v half (addr16LoDs.placed v old))
  | addr16LoDs, half =>
      v.extractLsb' 0 2 = 0#2 →
        Exact R .ds v (addr16Ha.placed v 0) half

def target (s : Segments) (rel : Rela) : Ps3Uintptr :=
  low (rel.offset s)

/- The bytes at the target of an entry as one number. -/
def contents
    (mm : MainMemory)
    (va : Ps3Uintptr)
    (len : AccessLen) : Word len.bytes :=
  Bytes.ofBigEndian len.bytes (mm.bytesAt va len.bytes)

/- What the binary interface says of an entry. -/
def Relocates
    (R : Type)
    (s : Segments)
    (granule : Option GranuleId)
    (rel : Rela)
    (kind : RelocType)
    (mm : MainMemory) : Prop :=
  ∃ mm',
    relocate s granule mm rel = some mm' ∧
      mm.Puts mm' (target s rel)
          (Bytes.bigEndian
            (kind.placed (rel.val s)
              (contents mm (target s rel) kind.len))) ∧
        kind.Serves R (rel.val s)
          (contents mm' (target s rel) kind.len)

------------------------------------------------------------
-- Halves of an Address
------------------------------------------------------------

/- The adjustment makes up for a low half below zero. -/
theorem sum_halves (v : BitVec 64) :
    ((v + 0x8000#64).extractLsb' 16 16).setWidth 32 <<< 16 +
        (v.extractLsb' 0 16).signExtend 32 =
      v.setWidth 32 := by
  apply BitVec.eq_of_toNat_eq
  simp only [BitVec.toNat_add, BitVec.toNat_shiftLeft,
    BitVec.toNat_setWidth, BitVec.extractLsb'_toNat,
    BitVec.toNat_signExtend, BitVec.msb_eq_decide,
    BitVec.toNat_ofNat, Nat.shiftLeft_eq,
    Nat.shiftRight_eq_div_pow, decide_eq_true_eq]
  split <;> omega

theorem si_word (op half : BitVec 16) :
    si (word op half) = half :=
  BitVec.extractLsb'_append_eq_right

theorem d_word (op half : BitVec 16) :
    d (word op half) = half :=
  BitVec.extractLsb'_append_eq_right

theorem ds_word (op half : BitVec 16) :
    ds (word op half) = half.extractLsb' 2 14 :=
  BitVec.extractLsb'_append_eq_of_add_le (by decide)

theorem low_signExtend
    {w : Nat}
    (x : BitVec w) :
    low (x.signExtend 64) = x.signExtend 32 := by
  apply BitVec.eq_of_getLsbD_eq
  intro k hK
  have hIn : k < 64 := by omega
  simp only [BitVec.getLsbD_setWidth,
    BitVec.getLsbD_signExtend, hK, hIn, decide_true,
    Bool.true_and]

variable {R : Type} {p : Pair R} {upper lower : BitVec 16}

theorem base_of_runs (hRuns : p.Runs upper lower) :
    ra (word p.op₂ lower) ≠ 0#5 ∧
      p.after.gpr (ra (word p.op₂ lower)) =
        (upper.setWidth 32 <<< 16).signExtend 64 := by
  rcases hRuns with ⟨-, hZero, hTarget, hBase, hRun⟩
  have hAfter := Except.ok.inj hRun
  rw [hBase, ← hAfter]
  refine ⟨hTarget, ?_⟩
  rw [emulateAddis, Registers.setGPR_gpr_self, hZero,
    si_word, getB, if_pos rfl, BitVec.add_zero]

/- The displacement in a half of an instruction. -/
def displacement : Addressing → BitVec 16 → BitVec 16
  | .d, half => half
  | .ds, half => half.extractLsb' 2 14 ++ 0#2
  | .x, _ => 0#16

theorem exact_of_sum
    {form : Addressing}
    {v : BitVec 64}
    (hForm : form ≠ .x)
    (hSum :
      upper.setWidth 32 <<< 16 +
          (displacement form lower).signExtend 32 =
        v.setWidth 32) :
    Exact R form v upper lower := by
  intro p ea hRuns hComputes
  rcases base_of_runs hRuns with ⟨hNonzero, hBase⟩
  have hEa :
      ea =
        (upper.setWidth 32 <<< 16).signExtend 64 +
          (displacement form lower).signExtend 64 := by
    cases hComputes with
    | add r hDecode hRun =>
        have hAfter := Except.ok.inj hRun
        rw [← hAfter, emulateAddi, Registers.setGPR_gpr_self, getB,
          if_neg hNonzero, hBase, si_word, BitVec.add_comm]
        rfl
    | access i a _ hDecode hAccess hIs =>
        rw [Access.ea, Access.base,
          if_neg (fun h => hNonzero h.2), hBase, Access.offset,
          hIs]
        cases form with
        | d => rw [d_word, displacement]
        | ds => rw [ds_word, displacement]
        | x => cases hForm rfl
  have hLow :
      low ea =
        low ((upper.setWidth 32 <<< 16).signExtend 64) +
          low ((displacement form lower).signExtend 64) := by
    rw [hEa]
    exact BitVec.setWidth_add _ _ (by decide)
  rw [hLow, low_signExtend, low_signExtend,
    BitVec.signExtend_eq, hSum]

theorem exact_of_halves (v : BitVec 64) :
    Exact R .d v (RelocType.addr16Ha.placed v 0)
      (RelocType.addr16Lo.placed v 0) :=
  exact_of_sum (by intro h; cases h) (sum_halves v)

theorem exactDs_of_halves
    {v : BitVec 64}
    (hFour : v.extractLsb' 0 2 = 0#2)
    (old : BitVec 16) :
    Exact R .ds v (RelocType.addr16Ha.placed v 0)
      (RelocType.addr16LoDs.placed v old) := by
  have hHalf :
      displacement .ds (RelocType.addr16LoDs.placed v old) =
        v.extractLsb' 0 16 := by
    have hZero : (0#2) = v.extractLsb' 0 2 := hFour.symm
    change
      (v.extractLsb' 2 14 ++ old.extractLsb' 0 2).extractLsb'
          2 14 ++ 0#2 =
        _
    rw [BitVec.extractLsb'_append_eq_left, hZero]
    exact
      BitVec.extractLsb'_append_extractLsb'_eq_extractLsb'
        (by decide)
  apply exact_of_sum (by intro h; cases h)
  rw [hHalf]
  exact sum_halves v

------------------------------------------------------------
-- Values and Correctness
------------------------------------------------------------

/- What the code stores for a type. -/
def stored
    (x : BitVec 32) :
    (kind : RelocType) → Word kind.len.bytes
  | .addr32 => x
  | .addr16Lo => (lo x).setWidth 16
  | .addr16Hi => (hi x).setWidth 16
  | .addr16Ha => (ha x).setWidth 16
  | .addr16LoDs => (lo x >>> 2).setWidth 16

variable {s : Segments} {granule : Option GranuleId} {rel : Rela}
variable {kind : RelocType}
variable {mm : MainMemory}

theorem relocate_eq
    (hAccepted : rel.Accepted)
    (hType : rel.type = kind.word) :
    relocate s granule mm rel =
      mm.store kind.len (target s rel)
        (stored (low (rel.val s)) kind) granule := by
  rw [relocate, if_pos hAccepted, hType]
  cases kind <;> rfl

theorem setWidth_half (x : BitVec 32) :
    (x &&& 0xffff#32).setWidth 16 = x.setWidth 16 := by
  rw [BitVec.setWidth_and]
  exact BitVec.and_allOnes

theorem adjusted_iff (x : BitVec 32) :
    x &&& 0x8000#32 ≠ 0#32 ↔ 32768 ≤ x.toNat % 65536 := by
  have hBit :
      x &&& 0x8000#32 =
        if x.getLsbD 15 = true then 0x8000#32 else 0#32 :=
    BitVec.and_twoPow x 15
  rw [hBit]
  split
  all_goals
    rename_i hOdd
    rw [BitVec.getLsbD, Nat.testBit_eq_decide_div_mod_eq,
      decide_eq_true_eq] at hOdd
  · exact iff_of_true (by decide) (by omega)
  · exact iff_of_false (fun h => h rfl) (by omega)

theorem lo_eq (v : BitVec 64) :
    (lo (low v)).setWidth 16 = v.extractLsb' 0 16 := by
  rw [lo, setWidth_half]
  apply BitVec.eq_of_toNat_eq
  simp only [BitVec.toNat_setWidth, BitVec.extractLsb'_toNat,
    Nat.shiftRight_zero]
  omega

theorem hi_eq (v : BitVec 64) :
    (hi (low v)).setWidth 16 = v.extractLsb' 16 16 := by
  rw [hi, setWidth_half]
  apply BitVec.eq_of_toNat_eq
  simp only [BitVec.toNat_setWidth, BitVec.extractLsb'_toNat,
    BitVec.toNat_ushiftRight, Nat.shiftRight_eq_div_pow]
  omega

theorem ha_eq (v : BitVec 64) :
    (ha (low v)).setWidth 16 =
      (v + 0x8000#64).extractLsb' 16 16 := by
  rw [ha, setWidth_half]
  apply BitVec.eq_of_toNat_eq
  simp only [adjusted_iff, BitVec.toNat_setWidth]
  split <;>
    simp only [BitVec.toNat_add, BitVec.toNat_setWidth,
      BitVec.extractLsb'_toNat, BitVec.toNat_ushiftRight,
      BitVec.toNat_ofNat, Nat.shiftRight_eq_div_pow] <;>
    omega

theorem stored_eq_placed
    (hKind : kind ≠ .addr16LoDs)
    (v : BitVec 64)
    (old : Word kind.len.bytes) :
    stored (low v) kind = kind.placed v old := by
  cases kind with
  | addr32 => exact BitVec.setWidth_eq_extractLsb' (by decide)
  | addr16Lo => exact lo_eq v
  | addr16Hi => exact hi_eq v
  | addr16Ha => exact ha_eq v
  | addr16LoDs => exact absurd rfl hKind

/- What is in place does its part, whatever was there. -/
theorem serves_placed
    (v : BitVec 64)
    (old : Word kind.len.bytes) :
    kind.Serves R v (kind.placed v old) := by
  cases kind with
  | addr32 => exact trivial
  | addr16Lo => exact exact_of_halves v
  | addr16Hi => exact trivial
  | addr16Ha =>
      exact ⟨exact_of_halves v, fun h => exactDs_of_halves h⟩
  | addr16LoDs => exact fun h => exactDs_of_halves h old

variable {va : Ps3Uintptr}

theorem contents_of_puts
    {mm mm' : MainMemory}
    {len : AccessLen}
    {value : Word len.bytes}
    (hPuts : mm.Puts mm' va (Bytes.bigEndian value)) :
    contents mm' va len = value := by
  have hBytes := hPuts.2.1
  rw [Bytes.length_bigEndian] at hBytes
  rw [contents, hBytes, Bytes.ofBigEndian_bigEndian]

theorem relocates_of_contiguous
    (hAccepted : rel.Accepted)
    (hType : rel.type = kind.word)
    (hRam : Flat.InRam mm (target s rel) kind.len.bytes)
    (hContiguous :
      Flat.Contiguous mm (target s rel) kind.len.bytes)
    (hKind : kind ≠ .addr16LoDs) :
    Relocates R s granule rel kind mm := by
  rcases Flat.store_puts kind.len
      (stored (low (rel.val s)) kind) granule hRam
      hContiguous with
    ⟨mm', hStore, hPuts⟩
  rw [stored_eq_placed hKind (rel.val s)
    (contents mm (target s rel) kind.len)] at hPuts
  refine
    ⟨mm', (relocate_eq hAccepted hType).trans hStore, hPuts, ?_⟩
  rw [contents_of_puts hPuts]
  exact serves_placed _ _

theorem contiguous_of_relocates
    (hAccepted : rel.Accepted)
    (hType : rel.type = kind.word)
    (hRam : Flat.InRam mm (target s rel) kind.len.bytes)
    (hKind : kind ≠ .addr16LoDs)
    (hAll :
      ∀ host,
        Relocates R s granule rel kind
          { mm with host := host }) :
    Flat.Contiguous mm (target s rel) kind.len.bytes := by
  have hStores :
      ∀ host : HostMemory, ∃ mm',
        MainMemory.store { mm with host := host } kind.len
            (target s rel) (stored (low (rel.val s)) kind)
            granule =
          some mm' ∧
        mm'.bytesAt (target s rel) kind.len.bytes =
          Bytes.bigEndian (stored (low (rel.val s)) kind) := by
    intro host
    rcases hAll host with ⟨mm', hRelocate, hPuts, -⟩
    have hBytes := hPuts.2.1
    rw [Bytes.length_bigEndian,
      ← stored_eq_placed hKind] at hBytes
    rw [relocate_eq hAccepted hType] at hRelocate
    exact ⟨mm', hRelocate, hBytes⟩
  exact Flat.contiguous_of_stores hRam hStores

------------------------------------------------------------
-- The DS Form
------------------------------------------------------------

/- Memory that holds one byte everywhere. -/
def filled (mm : MainMemory) (c : Byte) : MainMemory :=
  { mm with host := fun _ _ => c }

theorem contents_filled
    (hRam : Flat.InRam mm va 2)
    (c : Byte) :
    contents (filled mm c) va .two =
      Bytes.ofBigEndian 2 [c, c] := by
  have hByte :
      ∀ i < 2,
        (filled mm c).flat (va + BitVec.ofNat 32 i) = c := by
    intro i hI
    rcases Option.isSome_iff_exists.mp (hRam i hI) with ⟨p, hP⟩
    change ((mm.getMemoryPointer _).map _).getD 0 = c
    rw [hP]
    rfl
  have hBytes : (filled mm c).bytesAt va 2 = [c, c] :=
    congrArg₂ (fun a b => [a, b]) (hByte 0 (by decide))
      (hByte 1 (by decide))
  exact congrArg (Bytes.ofBigEndian 2) hBytes

/- The lower byte of a halfword. -/
theorem lower_of_puts
    {mm mm' : MainMemory}
    {value : Word 2}
    (hPuts : mm.Puts mm' va (Bytes.bigEndian value)) :
    (mm'.byte (va + BitVec.ofNat 32 1)).getD 0 =
      value.extractLsb' 0 8 := by
  have hBytes := hPuts.2.1
  rw [Bytes.length_bigEndian] at hBytes
  have hLower := congrArg (fun bytes => bytes[1]?) hBytes
  rw [mm'.getElem?_bytesAt _ (by decide), Bytes.bigEndian,
    List.getElem?_reverse
      (by rw [Bytes.length_littleEndian]; decide),
    Bytes.length_littleEndian,
    Bytes.getElem?_littleEndian _ (by decide),
    Option.some.injEq] at hLower
  exact hLower

theorem lower_append (v : BitVec 64) (y : BitVec 2) :
    (v.extractLsb' 2 14 ++ y).extractLsb' 0 8 =
      v.extractLsb' 2 6 ++ y := by
  apply BitVec.eq_of_getLsbD_eq
  intro k hK
  have hSub : k - 2 < 14 := by omega
  have hSub' : k - 2 < 6 := by omega
  simp only [BitVec.getLsbD_extractLsb', BitVec.getLsbD_append,
    hK, hSub, hSub', Nat.zero_add, decide_true, Bool.true_and]

theorem lower_of_relocates
    (hAccepted : rel.Accepted)
    (hType : rel.type = RelocType.addr16LoDs.word)
    (hRam : Flat.InRam mm (target s rel) 2)
    {c : Byte}
    (hByte :
      (Bytes.ofBigEndian 2 [c, c]).extractLsb' 0 2 =
        c.extractLsb' 0 2)
    (hRelocates :
      Relocates R s granule rel .addr16LoDs (filled mm c)) :
    ∃ mm',
      (filled mm c).store .two (target s rel)
          (stored (low (rel.val s)) .addr16LoDs) granule =
        some mm' ∧
      (mm'.byte (target s rel + BitVec.ofNat 32 1)).getD 0 =
        (rel.val s).extractLsb' 2 6 ++ c.extractLsb' 0 2 := by
  rcases hRelocates with ⟨mm', hRelocate, hPuts, -⟩
  rw [relocate_eq hAccepted hType] at hRelocate
  refine ⟨mm', hRelocate, ?_⟩
  have hOld :
      (contents (filled mm c) (target s rel) .two).extractLsb'
          0 2 =
        c.extractLsb' 0 2 := by
    rw [contents_filled hRam c]
    exact hByte
  have hPlaced :
      RelocType.addr16LoDs.placed (rel.val s)
          (contents (filled mm c) (target s rel) .two) =
        (rel.val s).extractLsb' 2 14 ++ c.extractLsb' 0 2 :=
    congrArg (fun y => (rel.val s).extractLsb' 2 14 ++ y) hOld
  calc
    (mm'.byte (target s rel + BitVec.ofNat 32 1)).getD 0 =
        (RelocType.addr16LoDs.placed (rel.val s)
          (contents (filled mm c) (target s rel)
            .two)).extractLsb' 0 8 :=
      lower_of_puts hPuts
    _ = ((rel.val s).extractLsb' 2 14 ++
          c.extractLsb' 0 2).extractLsb' 0 8 :=
      congrArg (fun half => BitVec.extractLsb' 0 8 half) hPlaced
    _ = _ := lower_append _ _

theorem lower_of_contiguous
    {mm' : MainMemory}
    {value : Word 2}
    (hRam : Flat.InRam mm va 2)
    (hContiguous : Flat.Contiguous mm va 2)
    (hStore : mm.store .two va value granule = some mm') :
    (mm'.byte (va + BitVec.ofNat 32 1)).getD 0 =
      value.extractLsb' 0 8 := by
  rcases Flat.store_puts .two value granule hRam hContiguous
    with ⟨u, hStore', hPuts⟩
  obtain rfl := Option.some.inj (hStore.symm.trans hStore')
  exact lower_of_puts hPuts

theorem lower_of_split
    {mm' : MainMemory}
    {value : Word 2}
    {c : Byte}
    (hRam : Flat.InRam mm va 2)
    (hSplit : ¬ Flat.Contiguous mm va 2)
    (hStore :
      (filled mm c).store .two va value granule =
        some mm') :
    (mm'.byte (va + BitVec.ofNat 32 1)).getD 0 = c := by
  rcases hRam.pointer (by decide) with ⟨p, hP⟩
  rcases Flat.exists_other_block hRam hP (by decide) hSplit with
    ⟨i, q, hI, hQ, hBlock⟩
  have hOne : i = 1 := by
    by_contra hNot
    obtain rfl : i = 0 := by omega
    rw [BitVec.add_zero, hP] at hQ
    exact hBlock (congrArg _ (Option.some.inj hQ)).symm
  rw [hOne] at hQ
  rw [Flat.byte_store_of_split (m := filled mm c) .two value
    granule hP hQ hBlock hStore]
  rfl

/-
  The displacement is stored where the whole halfword is.
  The byte with the two lowest bits is then the same for all
  old contents, or the old one if it is in another block.
-/
theorem not_relocates_ds
    (hAccepted : rel.Accepted)
    (hType : rel.type = RelocType.addr16LoDs.word)
    (hRam : Flat.InRam mm (target s rel) 2) :
    ¬ ∀ host,
      Relocates R s granule rel .addr16LoDs
        { mm with host := host } := by
  intro hAll
  rcases lower_of_relocates hAccepted hType hRam (c := 0#8)
      (by decide) (hAll _) with
    ⟨m₀, hStore₀, hByte₀⟩
  by_cases hContiguous : Flat.Contiguous mm (target s rel) 2
  · rcases lower_of_relocates hAccepted hType hRam (c := 1#8)
        (by decide) (hAll _) with
      ⟨m₁, hStore₁, hByte₁⟩
    rw [@lower_of_contiguous granule (filled mm 0#8) _ _ _ hRam
      hContiguous hStore₀] at hByte₀
    rw [@lower_of_contiguous granule (filled mm 1#8) _ _ _ hRam
      hContiguous hStore₁, hByte₀] at hByte₁
    exact
      absurd ((BitVec.append_right_inj _).mp hByte₁) (by decide)
  · rcases lower_of_relocates hAccepted hType hRam (c := 4#8)
        (by decide) (hAll _) with
      ⟨m₁, hStore₁, hByte₁⟩
    rw [lower_of_split hRam hContiguous hStore₀] at hByte₀
    rw [lower_of_split hRam hContiguous hStore₁] at hByte₁
    have hSame : 0#8 = 4#8 := hByte₀.trans hByte₁.symm
    exact absurd hSame (by decide)

/-
  Whatever the target held, a relocation is right when its
  bytes lie together in host memory and the field is not of
  the DS form.
-/
theorem relocates_iff
    (R : Type)
    (s : Segments)
    (granule : Option GranuleId)
    (rel : Rela)
    (kind : RelocType)
    (mm : MainMemory)
    (hAccepted : rel.Accepted)
    (hType : rel.type = kind.word)
    (hRam : Flat.InRam mm (target s rel) kind.len.bytes) :
    (∀ host,
        Relocates R s granule rel kind
          { mm with host := host }) ↔
      Flat.Contiguous mm (target s rel) kind.len.bytes ∧
        kind ≠ .addr16LoDs := by
  constructor
  · intro hAll
    have hKind : kind ≠ .addr16LoDs := by
      rintro rfl
      exact not_relocates_ds hAccepted hType hRam hAll
    exact
      ⟨contiguous_of_relocates hAccepted hType hRam hKind hAll,
        hKind⟩
  · rintro ⟨hContiguous, hKind⟩ host
    apply relocates_of_contiguous hAccepted hType
    · exact hRam
    · exact hContiguous
    · exact hKind

/- A module at 16 MB whose first segment has 64 KB. -/
def module : Segments where
  imageBase := 0x1000000#32
  vaddr := 0
  memsz := 0x10000

/- An entry for the word at `offset`, to the second segment. -/
def entry
    (kind : RelocType)
    (offset addend : BitVec 64) : Rela where
  rOffset := offset
  rInfo := (0x100#32 ++ kind.word : BitVec 64)
  rAddend := addend

theorem relocates_iff_ha :
    (∀ host,
        Relocates Unit module none
          (entry .addr16Ha 0x102#64 0x8000#64) .addr16Ha
          { MainMemory.reset with host := host }) ↔
      Flat.Contiguous MainMemory.reset
          (target module (entry .addr16Ha 0x102#64 0x8000#64))
          RelocType.addr16Ha.len.bytes ∧
        RelocType.addr16Ha ≠ .addr16LoDs :=
  relocates_iff Unit module none
    (entry .addr16Ha 0x102#64 0x8000#64) .addr16Ha
    MainMemory.reset (by decide) (by decide)
    (by unfold Flat.InRam; decide)

/- The halfword of an ld is cleared with its opcode bits. -/
theorem ds_not_relocates :
    ¬ ∀ (s : Segments)
        (granule : Option GranuleId)
        (rel : Rela)
        (kind : RelocType)
        (mm : MainMemory),
        rel.Accepted →
          rel.type = kind.word →
            Flat.InRam mm (target s rel) kind.len.bytes →
              Relocates Unit s granule rel kind mm := by
  intro hAll
  have hRelocates :=
    hAll module none (entry .addr16LoDs 0x102#64 0x8000#64)
      .addr16LoDs (filled MainMemory.reset 1#8) (by decide)
      (by decide) (by unfold Flat.InRam; decide)
  rcases @lower_of_relocates _ _ _ _ MainMemory.reset
      (by decide) (by decide) (by unfold Flat.InRam; decide) _
      (by decide) hRelocates with
    ⟨mm', hStore, hByte⟩
  rw [@lower_of_contiguous _ (filled MainMemory.reset 1#8) _ _ _
    (by unfold Flat.InRam; decide) (.inl (by decide)) hStore]
    at hByte
  revert hByte
  decide

------------------------------------------------------------
-- The Loop
------------------------------------------------------------

structure Good
    (s : Segments)
    (mm : MainMemory)
    (e : Rela × RelocType) : Prop where
  accepted : e.1.Accepted
  type : e.1.type = e.2.word
  inRam : Flat.InRam mm (target s e.1) e.2.len.bytes
  contiguous : Flat.Contiguous mm (target s e.1) e.2.len.bytes
  not_ds : e.2 ≠ .addr16LoDs

def Covers
    (s : Segments)
    (e : Rela × RelocType)
    (a : Ps3Uintptr) : Prop :=
  distance (target s e.1) a < e.2.len.bytes

variable {mm' : MainMemory} {e : Rela × RelocType}
variable {es : List (Rela × RelocType)}

theorem Good.congr
    (hGood : Good s mm e)
    (hPages : mm'.pages = mm.pages) :
    Good s mm' e where
  accepted := hGood.accepted
  type := hGood.type
  inRam := hGood.inRam.congr hPages
  contiguous := by
    have hContiguous := hGood.contiguous
    rwa [Flat.Contiguous, ← hPages] at hContiguous
  not_ds := hGood.not_ds

end Relocation

end Ps3emu
