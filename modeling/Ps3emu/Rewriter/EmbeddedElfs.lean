import Mathlib.Data.Nat.Find
import Ps3emu.Library.Bytes
import Ps3emu.Library.Fallible

/-
  The search of a buffer for the ELF files of the SPU.  The
  headers that it finds are read where they lie, whatever
  their fields say.

  Key definitions include:
    * `Field`
    * `discoverEmbeddedSpuElfs`
    * `ReadsHeld`, `Throws`
    * `WellFormedElf`
    * `DiscoversElfs`

  Key theorems include:
    * `embeddedElf_held`, `embeddedElf_escapes`
    * `discoverFrom_eq`
    * `discoversElfs_iff`
-/

------------------------------------------------------------
-- Fields and Discovery
------------------------------------------------------------

namespace Ps3emu

namespace Rewriter

/- A read outside the buffer, or an exception with its text. -/
inductive ElfFault where
  | outside (offset : Nat)
  | threw (text : String)
deriving DecidableEq

/- A number in a record, the byte of highest weight first. -/
structure Field where
  offset : Nat
  size : Nat
deriving DecidableEq

namespace Field

variable (f : Field) (elf : List Byte) (base : Nat)

def get : Nat :=
  (Bytes.ofBigEndian f.size
    ((elf.drop (base + f.offset)).take f.size)).toNat

/- The buffer has the bytes of the field. -/
def Held : Prop :=
  base + f.offset + f.size ≤ elf.length

instance : Decidable (f.Held elf base) :=
  inferInstanceAs (Decidable (_ ≤ _))

def read : Except ElfFault Nat :=
  if f.Held elf base then .ok (f.get elf base)
  else .error (.outside (base + f.offset))

end Field

def eiClass : Field := ⟨4, 1⟩
def eiData : Field := ⟨5, 1⟩
def eEntry : Field := ⟨24, 4⟩
def ePhoff : Field := ⟨28, 4⟩
def eShoff : Field := ⟨32, 4⟩
def eEhsize : Field := ⟨40, 2⟩
def ePhentsize : Field := ⟨42, 2⟩
def ePhnum : Field := ⟨44, 2⟩
def eShentsize : Field := ⟨46, 2⟩
def eShnum : Field := ⟨48, 2⟩

def pOffset : Field := ⟨4, 4⟩
def pVaddr : Field := ⟨8, 4⟩
def pFilesz : Field := ⟨16, 4⟩
def pMemsz : Field := ⟨20, 4⟩

def shType : Field := ⟨4, 4⟩
def shAddr : Field := ⟨12, 4⟩
def shOffset : Field := ⟨16, 4⟩
def shSize : Field := ⟨20, 4⟩

/- The sizes of the three headers. -/
def ehdrSize : Nat := 52
def phdrSize : Nat := 32
def shdrSize : Nat := 40

structure EmbeddedElfInfo where
  startOffset : Nat
  size : Nat
  isJob : Bool
  header : Nat
deriving DecidableEq

section Discovery

variable (elf : List Byte)

/- Fields are compared in order, up to the first that differs. -/
def passes (base : Nat) :
    List (Field × Nat) → Except ElfFault Bool
  | [] => .ok true
  | (f, value) :: rest => do
      let v ← f.read elf base
      if v = value then passes base rest else return false

/- `ELFCLASS32`, and the sizes of the headers. -/
def headerTests : List (Field × Nat) :=
  [(eiClass, 1), (eEhsize, ehdrSize), (ePhentsize, phdrSize),
    (eShentsize, shdrSize)]

/- The first words of a job, without the fourth. -/
def jobTests : List (Field × Nat) :=
  [(⟨0, 4⟩, 0x44012850), (⟨4, 4⟩, 0x32000080),
    (⟨8, 4⟩, 0x44012850), (⟨16, 4⟩, 0x62696e32)]

def outOfRange {α : Type} : Except ElfFault α :=
  .error (.threw "out of range")

/- The offset of an address of a segment. -/
def offsetOf
    (ph va vaStart : Nat) : Except ElfFault Nat := do
  let filesz ← pFilesz.read elf ph
  if filesz < va - vaStart then outOfRange
  else
    let offset ← pOffset.read elf ph
    return (va - vaStart + offset) % 2 ^ 32

def vaToOffsetLoop (table va : Nat) :
    List Nat → Except ElfFault Nat
  | [] => outOfRange
  | i :: rest => do
      let ph := table + phdrSize * i
      let vaStart ← pVaddr.read elf ph
      let memsz ← pMemsz.read elf ph
      if vaStart ≤ va ∧ va < (vaStart + memsz) % 2 ^ 32 then
        offsetOf elf ph va vaStart
      else vaToOffsetLoop table va rest

def vaToOffset (header va : Nat) : Except ElfFault Nat := do
  let phoff ← ePhoff.read elf header
  let phnum ← ePhnum.read elf header
  vaToOffsetLoop elf (header + phoff) va (List.range phnum)

/- The end that one header gives, if it is beyond the last. -/
def headerEnd
    (offset size : Field)
    (finish header : Nat) : Except ElfFault Nat := do
  let o ← offset.read elf header
  let s ← size.read elf header
  return max finish ((o + s) % 2 ^ 32)

/- The loop over the headers of a table. -/
def tableEnd
    (table entsize : Nat)
    (offset size : Field)
    (n finish : Nat) : Except ElfFault Nat :=
  (List.range n).foldlM
    (fun finish i =>
      headerEnd elf offset size finish (table + entsize * i))
    finish

def segmentsEnd (header : Nat) : Except ElfFault Nat := do
  let phoff ← ePhoff.read elf header
  let phnum ← ePhnum.read elf header
  tableEnd elf (header + phoff) phdrSize pOffset pFilesz phnum
    0

def sectionsEnd
    (header finish : Nat) : Except ElfFault Nat := do
  let shnum ← eShnum.read elf header
  if shnum ≠ 0 then
    let shoff ← eShoff.read elf header
    tableEnd elf (header + shoff) shdrSize shAddr shSize shnum
      finish
  else return finish

def entryIsJob (header : Nat) : Except ElfFault Bool := do
  let entry ← eEntry.read elf header
  if entry = 0x10 then
    let offset ← vaToOffset elf header entry
    passes elf (header + offset) jobTests
  else return false

/- The body of the loop, from the position that was found. -/
def embeddedElf
    (elfit : Nat) :
    Except ElfFault (Option EmbeddedElfInfo) := do
  if ← passes elf elfit headerTests then
    let finish ← segmentsEnd elf elfit
    let finish ← sectionsEnd elf elfit finish
    let isJob ← entryIsJob elf elfit
    return some {
      startOffset := elfit % 2 ^ 32
      size := finish
      isJob := isJob
      header := elfit }
  else return none

def magic : List Byte := [0x7f#8, 0x45#8, 0x4c#8, 0x46#8]

def magicAt (it : Nat) : Bool :=
  (elf.drop it).take 4 == magic

/- `std::search` for the magic number from a position on. -/
def search (it : Nat) : Option Nat :=
  (List.range' it (elf.length - it)).find? (magicAt elf)

theorem lt_of_search
    {elf : List Byte}
    {it elfit : Nat}
    (hSearch : search elf it = some elfit) :
    it ≤ elfit ∧ elfit < elf.length := by
  have hMem := List.mem_of_find?_eq_some hSearch
  rw [List.mem_range'_1] at hMem
  omega

/- Every round begins after the position found before. -/
def discoverFrom
    (it : Nat)
    (elfs : List EmbeddedElfInfo) :
    Except ElfFault (List EmbeddedElfInfo) :=
  match _hSearch : search elf it with
  | none => .ok elfs
  | some elfit => do
      let info ← embeddedElf elf elfit
      discoverFrom (elfit + 1) (elfs ++ info.toList)
termination_by elf.length - it
decreasing_by
  have hLt := lt_of_search ‹search elf it = some elfit›
  omega

def discoverEmbeddedSpuElfs :
    Except ElfFault (List EmbeddedElfInfo) :=
  discoverFrom elf 0 []

end Discovery

------------------------------------------------------------
-- Embedded Files
------------------------------------------------------------

section Files

variable (elf : List Byte)

/- The header of a segment, and the one of a section. -/
def phdr (o i : Nat) : Nat :=
  o + ePhoff.get elf o + phdrSize * i

def shdr (o j : Nat) : Nat :=
  o + eShoff.get elf o + shdrSize * j

/- `SHT_NULL` and `SHT_NOBITS` have nothing in the file. -/
def hasContents (o j : Nat) : Bool :=
  shType.get elf (shdr elf o j) != 0 &&
    shType.get elf (shdr elf o j) != 8

/- The file data of the segments: offsets and lengths. -/
def segmentParts (o : Nat) : List (Nat × Nat) :=
  (List.range (ePhnum.get elf o)).map (fun i =>
    (pOffset.get elf (phdr elf o i),
      pFilesz.get elf (phdr elf o i)))

def sectionParts (o : Nat) : List (Nat × Nat) :=
  ((List.range (eShnum.get elf o)).filter
      (hasContents elf o)).map (fun j =>
    (shOffset.get elf (shdr elf o j),
      shSize.get elf (shdr elf o j)))

/- The ELF header and the two tables of headers. -/
def headerParts (o : Nat) : List (Nat × Nat) :=
  [(0, ehdrSize),
    (ePhoff.get elf o, phdrSize * ePhnum.get elf o),
    (eShoff.get elf o, shdrSize * eShnum.get elf o)]

def parts (o : Nat) : List (Nat × Nat) :=
  segmentParts elf o ++ headerParts elf o ++
    sectionParts elf o

/- A part that is not empty ends before `n`. -/
def EndsBy (n : Nat) (part : Nat × Nat) : Prop :=
  part.2 ≠ 0 → part.1 + part.2 ≤ n

instance (n : Nat) (part : Nat × Nat) :
    Decidable (EndsBy n part) :=
  inferInstanceAs (Decidable (_ → _))

/- An ELF file of 32 bits, of high end first, in the buffer. -/
structure WellFormedElf (o : Nat) : Prop where
  magic : magicAt elf o = true
  header : o + ehdrSize ≤ elf.length
  class32 : eiClass.get elf o = 1
  data : eiData.get elf o = 2
  ehsize : eEhsize.get elf o = ehdrSize
  phentsize :
    ePhnum.get elf o ≠ 0 → ePhentsize.get elf o = phdrSize
  shentsize :
    eShnum.get elf o ≠ 0 → eShentsize.get elf o = shdrSize
  parts :
    ∀ part ∈ parts elf o, EndsBy (elf.length - o) part

/-
  No byte outside the buffer is read, and every embedded file
  is reported with a size that covers all of its parts.
-/
def DiscoversElfs : Prop :=
  (∀ offset,
    discoverEmbeddedSpuElfs elf ≠ .error (.outside offset)) ∧
  ∀ o, WellFormedElf elf o →
    ∃ elfs info,
      discoverEmbeddedSpuElfs elf = .ok elfs ∧
        info ∈ elfs ∧ info.header = o ∧
        info.startOffset = o ∧
        ∀ part ∈ parts elf o, EndsBy info.size part

end Files

------------------------------------------------------------
-- Condition
------------------------------------------------------------

section Condition

variable (elf : List Byte)

/- The bytes that a comparison of fields looks at are there. -/
def TestsHeld (base : Nat) : List (Field × Nat) → Prop
  | [] => True
  | (f, value) :: rest =>
      f.Held elf base ∧
        (f.get elf base = value → TestsHeld base rest)

def Passes (base : Nat) (tests : List (Field × Nat)) : Prop :=
  ∀ t ∈ tests, t.1.get elf base = t.2

instance (base : Nat) (tests : List (Field × Nat)) :
    Decidable (Passes elf base tests) :=
  inferInstanceAs (Decidable (∀ t ∈ tests, _))

/- The header has the class and the sizes that are expected. -/
abbrev Accepted (o : Nat) : Prop :=
  Passes elf o headerTests

/- The addresses of segment `i` have `va` among them. -/
def spans (o va i : Nat) : Bool :=
  let ph := phdr elf o i
  decide (pVaddr.get elf ph ≤ va) &&
    decide (va <
      (pVaddr.get elf ph + pMemsz.get elf ph) % 2 ^ 32)

/- Where it has one, if that is not beyond its data. -/
def segmentOffset (o va i : Nat) : Option Nat :=
  let ph := phdr elf o i
  if pFilesz.get elf ph < va - pVaddr.get elf ph then none
  else
    some ((va - pVaddr.get elf ph + pOffset.get elf ph) %
      2 ^ 32)

/- The same, of the first segment with the address. -/
def entryOffset (o va : Nat) : Option Nat :=
  ((List.range (ePhnum.get elf o)).find?
    (spans elf o va)).bind (segmentOffset elf o va)

/- The entry is the one of a job, and lies in no segment. -/
def Throws (o : Nat) : Prop :=
  Accepted elf o ∧ eEntry.get elf o = 0x10 ∧
    entryOffset elf o 0x10 = none

instance (o : Nat) : Decidable (Throws elf o) :=
  inferInstanceAs (Decidable (_ ∧ _ ∧ _))

/- The file has the first words of a job at its entry. -/
def HasJob (o : Nat) : Prop :=
  eEntry.get elf o = 0x10 ∧
    ∃ offset ∈ entryOffset elf o 0x10,
      Passes elf (o + offset) jobTests

instance (o : Nat) : Decidable (HasJob elf o) :=
  inferInstanceAs (Decidable (_ ∧ _))

/-
  The headers of the segments up to the one with the entry
  are in the buffer, and so are the words that are compared.
-/
structure EntryHeld (o : Nat) : Prop where
  headers :
    ∀ i < ePhnum.get elf o,
      (∀ j < i, spans elf o 0x10 j = false) →
        pMemsz.Held elf (phdr elf o i)
  words :
    ∀ offset, entryOffset elf o 0x10 = some offset →
      TestsHeld elf (o + offset) jobTests

/- The buffer has what is read of an accepted header. -/
structure TablesHeld (o : Nat) : Prop where
  segments :
    ∀ i < ePhnum.get elf o, pFilesz.Held elf (phdr elf o i)
  shnum : eShnum.Held elf o
  sections :
    ∀ j < eShnum.get elf o, shSize.Held elf (shdr elf o j)
  entry : eEntry.get elf o = 0x10 → EntryHeld elf o

structure ReadsHeld (o : Nat) : Prop where
  tests : TestsHeld elf o headerTests
  tables : Accepted elf o → TablesHeld elf o

/- The ends that are compared for the size. -/
def ends (o : Nat) : List Nat :=
  (List.range (ePhnum.get elf o)).map (fun i =>
    (pOffset.get elf (phdr elf o i) +
      pFilesz.get elf (phdr elf o i)) % 2 ^ 32) ++
  (List.range (eShnum.get elf o)).map (fun j =>
    (shAddr.get elf (shdr elf o j) +
      shSize.get elf (shdr elf o j)) % 2 ^ 32)

/-
  The data of every segment ends below 4 GiB.  The headers
  and the contents of the sections lie before an end of the
  data of a segment, or before the sum of the address and the
  size of a section.
-/
structure SizeCondition (o : Nat) : Prop where
  segments : ∀ part ∈ segmentParts elf o,
    EndsBy (2 ^ 32 - 1) part
  others : ∀ part ∈ headerParts elf o ++ sectionParts elf o,
    ∃ n ∈ 0 :: ends elf o, EndsBy n part

/-
  What is read of each magic number is in the buffer, up to
  the first that ends the search with an exception.  If there
  is a file, there is no such exception, and each file has a
  position of 32 bits, the sizes of both headers, and parts
  that lie before the ends that are compared.
-/
structure ElfsCondition : Prop where
  reads :
    ∀ o, magicAt elf o = true →
      (∀ p < o, magicAt elf p = true → ¬ Throws elf p) →
        ReadsHeld elf o
  quiet :
    ∀ o, WellFormedElf elf o →
      ∀ p, magicAt elf p = true → ¬ Throws elf p
  position :
    ∀ o, WellFormedElf elf o → o < 2 ^ 32
  entsizes :
    ∀ o, WellFormedElf elf o →
      ePhentsize.get elf o = phdrSize ∧
        eShentsize.get elf o = shdrSize
  sizes :
    ∀ o, WellFormedElf elf o → SizeCondition elf o

end Condition

------------------------------------------------------------
-- Reads
------------------------------------------------------------

def ElfFault.IsOutside : ElfFault → Prop
  | .outside _ => True
  | .threw _ => False

/- It ends with a read outside the buffer. -/
abbrev Escapes {α : Type} (x : Except ElfFault α) : Prop :=
  Fallible.Fails ElfFault.IsOutside x

open Fallible (Fails)

section Fields

variable {elf : List Byte} {base : Nat}

theorem Field.read_ok
    {f : Field}
    (hHeld : f.Held elf base) :
    f.read elf base = .ok (f.get elf base) :=
  if_pos hHeld

theorem Field.escapes
    {f : Field}
    (hHeld : ¬ f.Held elf base) :
    Escapes (f.read elf base) :=
  ⟨_, if_neg hHeld, trivial⟩

/- A field is there if a later one is. -/
theorem Field.Held.of_le
    {f g : Field}
    (hHeld : g.Held elf base)
    (hLe : f.offset + f.size ≤ g.offset + g.size) :
    f.Held elf base := by
  unfold Field.Held at hHeld ⊢
  omega

theorem passes_ok
    {tests : List (Field × Nat)}
    (hHeld : TestsHeld elf base tests) :
    passes elf base tests =
      .ok (decide (Passes elf base tests)) := by
  induction tests with
  | nil => rfl
  | cons test rest ih =>
      rcases test with ⟨f, value⟩
      rcases hHeld with ⟨hField, hRest⟩
      rw [passes, Field.read_ok hField]
      change (if _ then _ else _) = _
      by_cases hValue : f.get elf base = value
      · rw [if_pos hValue, ih (hRest hValue)]
        congr 1
        rw [decide_eq_decide]
        unfold Passes
        rw [List.forall_mem_cons]
        exact (and_iff_right hValue).symm
      · rw [if_neg hValue]
        congr 1
        rw [eq_comm, decide_eq_false_iff_not]
        intro hPasses
        exact hValue (hPasses _ List.mem_cons_self)

theorem passes_escapes
    {tests : List (Field × Nat)}
    (hHeld : ¬ TestsHeld elf base tests) :
    Escapes (passes elf base tests) := by
  induction tests with
  | nil => exact absurd trivial hHeld
  | cons test rest ih =>
      rcases test with ⟨f, value⟩
      by_cases hField : f.Held elf base
      · apply Fails.of_bind (Field.read_ok hField)
        have hValue : f.get elf base = value := by
          by_contra hNot
          exact hHeld ⟨hField, fun hEq => absurd hEq hNot⟩
        rw [if_pos hValue]
        apply ih
        intro hRest
        exact hHeld ⟨hField, fun _ => hRest⟩
      · exact (Field.escapes hField).bind _

section Table

variable {table entsize n : Nat} {offset size : Field}

theorem headerEnd_ok
    (hLe :
      offset.offset + offset.size ≤ size.offset + size.size)
    (hHeld : size.Held elf base)
    (finish : Nat) :
    headerEnd elf offset size finish base =
      .ok (max finish
        ((offset.get elf base + size.get elf base) %
          2 ^ 32)) := by
  unfold headerEnd
  rw [Field.read_ok (hHeld.of_le hLe), Field.read_ok hHeld]
  rfl

theorem headerEnd_escapes
    (hHeld : ¬ size.Held elf base)
    (finish : Nat) :
    Escapes (headerEnd elf offset size finish base) := by
  unfold headerEnd
  by_cases hOffset : offset.Held elf base
  · apply Fails.of_bind (Field.read_ok hOffset)
    exact (Field.escapes hHeld).bind _
  · exact (Field.escapes hOffset).bind _

theorem tableEnd_ok
    (hLe :
      offset.offset + offset.size ≤ size.offset + size.size)
    (hHeld : ∀ i < n, size.Held elf (table + entsize * i))
    (finish : Nat) :
    tableEnd elf table entsize offset size n finish =
      .ok (((List.range n).map (fun i =>
        (offset.get elf (table + entsize * i) +
          size.get elf (table + entsize * i)) % 2 ^ 32)).foldl
            max finish) := by
  unfold tableEnd
  rw [List.foldl_map]
  apply Fallible.foldlM_eq_ok
  intro i hMem finish
  exact headerEnd_ok hLe (hHeld i (List.mem_range.mp hMem)) _

theorem tableEnd_escapes
    (hLe :
      offset.offset + offset.size ≤ size.offset + size.size)
    {i : Nat}
    (hIndex : i < n)
    (hHeld : ¬ size.Held elf (table + entsize * i))
    (finish : Nat) :
    Escapes
      (tableEnd elf table entsize offset size n finish) := by
  unfold tableEnd
  apply Fails.foldlM (fun _ => True) _
    (List.mem_range.mpr hIndex)
  · intro finish _
    exact headerEnd_escapes hHeld finish
  · trivial
  · intro finish _ j _
    by_cases hSize : size.Held elf (table + entsize * j)
    · exact .inr ⟨_, headerEnd_ok hLe hSize finish, trivial⟩
    · exact .inl (headerEnd_escapes hSize finish)

end Table

end Fields

------------------------------------------------------------
-- Entry
------------------------------------------------------------

section Entry

variable {elf : List Byte} {o : Nat}

/- What `vaToOffset` returns, if the reads are in the buffer. -/
def found : Option Nat → Except ElfFault Nat
  | some offset => .ok offset
  | none => outOfRange

theorem offsetOf_ok
    {i : Nat}
    (hHeld : pFilesz.Held elf (phdr elf o i))
    (va : Nat) :
    offsetOf elf (phdr elf o i) va
        (pVaddr.get elf (phdr elf o i)) =
      found (segmentOffset elf o va i) := by
  unfold offsetOf segmentOffset
  rw [Field.read_ok hHeld]
  change (if _ then _ else _) = _
  simp only
  split
  case isTrue => rfl
  case isFalse =>
    have hOffset : pOffset.Held elf (phdr elf o i) :=
      hHeld.of_le (by decide)
    rw [Field.read_ok hOffset]
    rfl

/- One round of the loop. -/
theorem vaToOffsetLoop_cons
    {i : Nat}
    (hHeld : pMemsz.Held elf (phdr elf o i))
    (va : Nat)
    (rest : List Nat) :
    vaToOffsetLoop elf (o + ePhoff.get elf o) va (i :: rest) =
      if spans elf o va i then found (segmentOffset elf o va i)
      else
        vaToOffsetLoop elf (o + ePhoff.get elf o) va rest := by
  have hVaddr : pVaddr.Held elf (phdr elf o i) :=
    hHeld.of_le (by decide)
  have hFilesz : pFilesz.Held elf (phdr elf o i) :=
    hHeld.of_le (by decide)
  rw [vaToOffsetLoop]
  simp only [← phdr.eq_def elf o i]
  rw [Field.read_ok hVaddr, Field.read_ok hHeld]
  change (if _ then _ else _) = _
  rw [offsetOf_ok hFilesz]
  unfold spans
  simp only [Bool.and_eq_true, decide_eq_true_eq]

theorem vaToOffsetLoop_escapes
    {i : Nat}
    (hHeld : ¬ pMemsz.Held elf (phdr elf o i))
    (va : Nat)
    (rest : List Nat) :
    Escapes
      (vaToOffsetLoop elf (o + ePhoff.get elf o) va
        (i :: rest)) := by
  rw [vaToOffsetLoop]
  simp only [← phdr.eq_def elf o i]
  by_cases hVaddr : pVaddr.Held elf (phdr elf o i)
  · apply Fails.of_bind (Field.read_ok hVaddr)
    exact (Field.escapes hHeld).bind _
  · exact (Field.escapes hVaddr).bind _

/-
  The loop over segments of which each is in the buffer, or
  comes after one that has the address.
-/
theorem vaToOffsetLoop_found
    {va k n : Nat}
    (hHeld :
      ∀ i, k ≤ i → i < k + n →
        (∀ j, k ≤ j → j < i → spans elf o va j = false) →
          pMemsz.Held elf (phdr elf o i)) :
    vaToOffsetLoop elf (o + ePhoff.get elf o) va
        (List.range' k n) =
      found (((List.range' k n).find? (spans elf o va)).bind
        (segmentOffset elf o va)) := by
  induction n generalizing k with
  | zero => rfl
  | succ n ih =>
      have hFirst : pMemsz.Held elf (phdr elf o k) :=
        hHeld k (Nat.le_refl k) (by omega)
          (fun j _ _ => by omega)
      rw [List.range'_succ, vaToOffsetLoop_cons hFirst]
      by_cases hSpans : spans elf o va k = true
      · rw [if_pos hSpans, List.find?_cons_of_pos hSpans]
        rfl
      · rw [if_neg hSpans, List.find?_cons_of_neg hSpans]
        apply ih
        intro i hLower hUpper hEarlier
        apply hHeld i (by omega) (by omega)
        intro j hFrom hBefore
        by_cases hSame : j = k
        · rw [hSame]
          exact Bool.eq_false_iff.mpr hSpans
        · exact hEarlier j (by omega) hBefore

/- The loop over all segments. -/
theorem vaToOffsetLoop_all
    {va : Nat}
    (hHeld :
      ∀ i < ePhnum.get elf o,
        (∀ j < i, spans elf o va j = false) →
          pMemsz.Held elf (phdr elf o i)) :
    vaToOffsetLoop elf (o + ePhoff.get elf o) va
        (List.range' 0 (ePhnum.get elf o)) =
      found (entryOffset elf o va) := by
  unfold entryOffset
  rw [List.range_eq_range']
  apply vaToOffsetLoop_found
  intro i _ hIndex hEarlier
  exact hHeld i (by omega)
    (fun j hj => hEarlier j (Nat.zero_le j) hj)

theorem vaToOffsetLoop_outside
    {va k n i : Nat}
    (hFrom : k ≤ i)
    (hIndex : i < k + n)
    (hEarlier :
      ∀ j, k ≤ j → j < i → spans elf o va j = false)
    (hHeld : ¬ pMemsz.Held elf (phdr elf o i)) :
    Escapes
      (vaToOffsetLoop elf (o + ePhoff.get elf o) va
        (List.range' k n)) := by
  induction n generalizing k with
  | zero => omega
  | succ n ih =>
      rw [List.range'_succ]
      by_cases hSame : i = k
      · rw [← hSame]
        exact vaToOffsetLoop_escapes hHeld va _
      · by_cases hFirst : pMemsz.Held elf (phdr elf o k)
        · have hSpans :=
            hEarlier k (Nat.le_refl k) (by omega)
          rw [vaToOffsetLoop_cons hFirst, hSpans]
          apply ih (by omega) (by omega)
          intro j hLower hBefore
          exact hEarlier j (by omega) hBefore
        · exact vaToOffsetLoop_escapes hFirst va _

theorem TestsHeld.held
    {base : Nat}
    {tests : List (Field × Nat)}
    (hTests : TestsHeld elf base tests)
    (hPasses : Passes elf base tests) :
    ∀ t ∈ tests, t.1.Held elf base := by
  induction tests with
  | nil =>
      intro t hMem
      cases hMem
  | cons test rest ih =>
      rcases test with ⟨f, value⟩
      rcases hTests with ⟨hField, hRest⟩
      unfold Passes at hPasses
      rw [List.forall_mem_cons] at hPasses ⊢
      exact ⟨hField, ih (hRest hPasses.1) hPasses.2⟩

/- The fields of an accepted header. -/
theorem held_of_accepted
    (hTests : TestsHeld elf o headerTests)
    (hAccepted : Accepted elf o)
    {f : Field}
    (hLe : f.offset + f.size ≤ 48) :
    f.Held elf o := by
  have hLast : eShentsize.Held elf o :=
    hTests.held hAccepted (eShentsize, shdrSize)
      (by simp [headerTests])
  exact hLast.of_le hLe

theorem vaToOffset_eq
    (hPhoff : ePhoff.Held elf o)
    (hPhnum : ePhnum.Held elf o)
    (va : Nat) :
    vaToOffset elf o va =
      vaToOffsetLoop elf (o + ePhoff.get elf o) va
        (List.range' 0 (ePhnum.get elf o)) := by
  unfold vaToOffset
  rw [Field.read_ok hPhoff, Field.read_ok hPhnum,
    ← List.range_eq_range']
  rfl

section EntryIsJob

variable (hEntry : eEntry.Held elf o) (hPhoff : ePhoff.Held elf o)
variable (hPhnum : ePhnum.Held elf o)

include hEntry

theorem entryIsJob_none
    (hNot : eEntry.get elf o ≠ 0x10) :
    entryIsJob elf o = .ok false := by
  unfold entryIsJob
  rw [Field.read_ok hEntry]
  exact if_neg hNot

include hPhoff hPhnum

theorem entryIsJob_eq
    (hAddress : eEntry.get elf o = 0x10) :
    entryIsJob elf o =
      vaToOffsetLoop elf (o + ePhoff.get elf o) 0x10
          (List.range' 0 (ePhnum.get elf o)) >>=
        fun offset =>
          passes elf (o + offset) jobTests := by
  rw [← vaToOffset_eq hPhoff hPhnum]
  unfold entryIsJob
  rw [Field.read_ok hEntry]
  change (if _ then _ else _) = _
  rw [if_pos hAddress, hAddress]

/- It throws if the entry is looked for and not found. -/
theorem entryIsJob_held
    (hHeld : eEntry.get elf o = 0x10 → EntryHeld elf o) :
    entryIsJob elf o =
      if eEntry.get elf o = 0x10 ∧
          entryOffset elf o 0x10 = none then outOfRange
      else .ok (decide (HasJob elf o)) := by
  by_cases hAddress : eEntry.get elf o = 0x10
  · have hLoop := vaToOffsetLoop_all (hHeld hAddress).headers
    rw [entryIsJob_eq hEntry hPhoff hPhnum hAddress, hLoop]
    cases hOffset : entryOffset elf o 0x10 with
    | none =>
        rw [if_pos ⟨hAddress, rfl⟩]
        rfl
    | some offset =>
        have hWords := (hHeld hAddress).words offset hOffset
        rw [if_neg (by simp)]
        change passes elf (o + offset) jobTests = _
        rw [passes_ok hWords]
        congr 1
        rw [decide_eq_decide]
        unfold HasJob
        simp [hAddress, hOffset]
  · have hNot : ¬ HasJob elf o := fun hJob =>
      hAddress hJob.1
    rw [entryIsJob_none hEntry hAddress,
      if_neg (fun h => hAddress h.1), decide_eq_false hNot]

theorem entryIsJob_escapes
    (hAddress : eEntry.get elf o = 0x10)
    (hHeld : ¬ EntryHeld elf o) :
    Escapes (entryIsJob elf o) := by
  rw [entryIsJob_eq hEntry hPhoff hPhnum hAddress]
  by_cases hHeaders :
      ∀ i < ePhnum.get elf o,
        (∀ j < i, spans elf o 0x10 j = false) →
          pMemsz.Held elf (phdr elf o i)
  · have hLoop := vaToOffsetLoop_all hHeaders
    have hWords :
        ∃ offset, entryOffset elf o 0x10 = some offset ∧
          ¬ TestsHeld elf (o + offset) jobTests := by
      by_contra hNone
      apply hHeld
      refine ⟨hHeaders, ?_⟩
      intro offset hOffset
      by_contra hNot
      exact hNone ⟨offset, hOffset, hNot⟩
    rcases hWords with ⟨offset, hOffset, hNot⟩
    rw [hOffset] at hLoop
    apply Fails.of_bind hLoop
    exact passes_escapes hNot
  · simp only [not_forall] at hHeaders
    rcases hHeaders with ⟨i, hIndex, hEarlier, hNot⟩
    apply Fails.bind
    exact
      vaToOffsetLoop_outside (Nat.zero_le i) (by omega)
        (fun j _ hj => hEarlier j hj) hNot

end EntryIsJob

end Entry

------------------------------------------------------------
-- One Position
------------------------------------------------------------

section Position

variable {elf : List Byte} {o : Nat}

/- What is reported of a position. -/
def infoAt (elf : List Byte) (o : Nat) : EmbeddedElfInfo where
  startOffset := o % 2 ^ 32
  size := (ends elf o).foldl max 0
  isJob := decide (HasJob elf o)
  header := o

theorem segmentsEnd_ok
    (hPhoff : ePhoff.Held elf o)
    (hPhnum : ePhnum.Held elf o)
    (hHeld :
      ∀ i < ePhnum.get elf o,
        pFilesz.Held elf (phdr elf o i)) :
    segmentsEnd elf o =
      .ok (((List.range (ePhnum.get elf o)).map (fun i =>
        (pOffset.get elf (phdr elf o i) +
          pFilesz.get elf (phdr elf o i)) % 2 ^ 32)).foldl
            max 0) := by
  unfold segmentsEnd
  rw [Field.read_ok hPhoff, Field.read_ok hPhnum]
  exact tableEnd_ok (by decide) hHeld 0

theorem segmentsEnd_escapes
    (hPhoff : ePhoff.Held elf o)
    (hPhnum : ePhnum.Held elf o)
    {i : Nat}
    (hIndex : i < ePhnum.get elf o)
    (hHeld : ¬ pFilesz.Held elf (phdr elf o i)) :
    Escapes (segmentsEnd elf o) := by
  unfold segmentsEnd
  rw [Field.read_ok hPhoff, Field.read_ok hPhnum]
  exact tableEnd_escapes (by decide) hIndex hHeld 0

theorem sectionsEnd_ok
    (hShoff : eShoff.Held elf o)
    (hShnum : eShnum.Held elf o)
    (hHeld :
      ∀ j < eShnum.get elf o,
        shSize.Held elf (shdr elf o j))
    (finish : Nat) :
    sectionsEnd elf o finish =
      .ok (((List.range (eShnum.get elf o)).map (fun j =>
        (shAddr.get elf (shdr elf o j) +
          shSize.get elf (shdr elf o j)) % 2 ^ 32)).foldl
            max finish) := by
  unfold sectionsEnd
  rw [Field.read_ok hShnum]
  change (if _ then _ else _) = _
  split
  case isTrue =>
    rw [Field.read_ok hShoff]
    exact tableEnd_ok (by decide) hHeld finish
  case isFalse hNone =>
    rw [not_not.mp hNone]
    rfl

theorem sectionsEnd_escapes
    (hShoff : eShoff.Held elf o)
    (hHeld :
      ¬ (eShnum.Held elf o ∧
        ∀ j < eShnum.get elf o,
          shSize.Held elf (shdr elf o j)))
    (finish : Nat) :
    Escapes (sectionsEnd elf o finish) := by
  unfold sectionsEnd
  by_cases hShnum : eShnum.Held elf o
  · have hSection :
        ∃ j < eShnum.get elf o,
          ¬ shSize.Held elf (shdr elf o j) := by
      by_contra hNone
      apply hHeld
      refine ⟨hShnum, ?_⟩
      intro j hj
      by_contra hNot
      exact hNone ⟨j, hj, hNot⟩
    rcases hSection with ⟨j, hIndex, hNot⟩
    apply Fails.of_bind (Field.read_ok hShnum)
    rw [if_pos (by omega), Field.read_ok hShoff]
    exact tableEnd_escapes (by decide) hIndex hNot finish
  · exact (Field.escapes hShnum).bind _

/- A position of which the buffer has what is read. -/
theorem embeddedElf_held
    (hHeld : ReadsHeld elf o) :
    (Throws elf o → embeddedElf elf o = outOfRange) ∧
      (¬ Throws elf o →
        embeddedElf elf o =
          .ok (if Accepted elf o then some (infoAt elf o)
            else none)) := by
  unfold embeddedElf
  rw [passes_ok hHeld.tests]
  change
    (Throws elf o → (if _ then _ else _) = _) ∧
      (¬ Throws elf o → (if _ then _ else _) = _)
  by_cases hAccepted : Accepted elf o
  · have hField (f : Field) (hLe : f.offset + f.size ≤ 48) :
        f.Held elf o :=
      held_of_accepted hHeld.tests hAccepted hLe
    have hTables := hHeld.tables hAccepted
    have hPhoff := hField ePhoff (by decide)
    have hPhnum := hField ePhnum (by decide)
    rw [if_pos (decide_eq_true hAccepted), if_pos hAccepted,
      segmentsEnd_ok hPhoff hPhnum hTables.segments]
    change
      (_ → (sectionsEnd elf o _ >>= _) = _) ∧
        (_ → (sectionsEnd elf o _ >>= _) = _)
    rw [sectionsEnd_ok (hField eShoff (by decide))
        hTables.shnum hTables.sections, ← List.foldl_append]
    change
      (_ → (entryIsJob elf o >>= _) = _) ∧
        (_ → (entryIsJob elf o >>= _) = _)
    rw [entryIsJob_held (hField eEntry (by decide)) hPhoff
      hPhnum hTables.entry]
    constructor
    · rintro ⟨-, hEntry⟩
      rw [if_pos hEntry]
      rfl
    · intro hNot
      rw [if_neg (fun hEntry => hNot ⟨hAccepted, hEntry⟩)]
      rfl
  · rw [decide_eq_false hAccepted, if_neg hAccepted]
    refine ⟨fun hThrows => absurd hThrows.1 hAccepted, ?_⟩
    intro _
    rfl

theorem embeddedElf_escapes
    (hHeld : ¬ ReadsHeld elf o) :
    Escapes (embeddedElf elf o) := by
  unfold embeddedElf
  by_cases hTests : TestsHeld elf o headerTests
  · have hAccepted : Accepted elf o := by
      by_contra hNot
      exact hHeld ⟨hTests, fun h => absurd h hNot⟩
    have hTables : ¬ TablesHeld elf o := fun hTables =>
      hHeld ⟨hTests, fun _ => hTables⟩
    have hField (f : Field) (hLe : f.offset + f.size ≤ 48) :
        f.Held elf o :=
      held_of_accepted hTests hAccepted hLe
    have hPhoff := hField ePhoff (by decide)
    have hPhnum := hField ePhnum (by decide)
    apply Fails.of_bind (passes_ok hTests)
    rw [if_pos (decide_eq_true hAccepted)]
    by_cases hSegments :
        ∀ i < ePhnum.get elf o,
          pFilesz.Held elf (phdr elf o i)
    · apply Fails.of_bind
        (segmentsEnd_ok hPhoff hPhnum hSegments)
      by_cases hSections :
          eShnum.Held elf o ∧
            ∀ j < eShnum.get elf o,
              shSize.Held elf (shdr elf o j)
      · apply Fails.of_bind
          (sectionsEnd_ok (hField eShoff (by decide))
            hSections.1 hSections.2 _)
        have hEntry :
            ¬ (eEntry.get elf o = 0x10 → EntryHeld elf o) := by
          intro hEntry
          exact
            hTables
              ⟨hSegments, hSections.1, hSections.2, hEntry⟩
        rw [Classical.not_imp] at hEntry
        exact
          (entryIsJob_escapes (hField eEntry (by decide))
            hPhoff hPhnum hEntry.1 hEntry.2).bind _
      · exact
          (sectionsEnd_escapes (hField eShoff (by decide))
            hSections _).bind _
    · simp only [not_forall] at hSegments
      rcases hSegments with ⟨i, hIndex, hNot⟩
      exact
        (segmentsEnd_escapes hPhoff hPhnum hIndex hNot).bind _
  · exact (passes_escapes hTests).bind _

end Position

------------------------------------------------------------
-- All Positions
------------------------------------------------------------

section Positions

variable {elf : List Byte}

def discoverStep
    (elf : List Byte)
    (elfs : List EmbeddedElfInfo)
    (elfit : Nat) :
    Except ElfFault (List EmbeddedElfInfo) := do
  let info ← embeddedElf elf elfit
  return elfs ++ info.toList

/- The positions of the magic number between two others. -/
def positions (elf : List Byte) (k n : Nat) : List Nat :=
  (List.range' k n).filter (magicAt elf)

theorem mem_positions
    {k n o : Nat} :
    o ∈ positions elf k n ↔
      k ≤ o ∧ o < k + n ∧ magicAt elf o = true := by
  unfold positions
  rw [List.mem_filter, List.mem_range'_1, and_assoc]

variable {o : Nat}

theorem lt_length_of_magicAt
    (hMagic : magicAt elf o = true) :
    o < elf.length := by
  by_contra hNot
  unfold magicAt at hMagic
  rw [List.drop_eq_nil_of_le (by omega)] at hMagic
  cases hMagic

/- The first position that is found comes first. -/
theorem positions_cons
    {k n o : Nat}
    (hFrom : k ≤ o)
    (hIndex : o < k + n)
    (hMagic : magicAt elf o = true)
    (hFirst : ∀ p, k ≤ p → p < o → magicAt elf p = false) :
    positions elf k n =
      o :: positions elf (o + 1) (k + n - (o + 1)) := by
  induction n generalizing k with
  | zero => omega
  | succ n ih =>
      unfold positions
      rw [List.range'_succ]
      by_cases hSame : k = o
      · rw [hSame, List.filter_cons_of_pos hMagic]
        congr 3
        omega
      · have hNot := hFirst k (Nat.le_refl k) (by omega)
        rw [List.filter_cons_of_neg (by simp [hNot])]
        have hRest :=
          @ih (k + 1) (by omega) (by omega)
            (fun p hp hBefore =>
              hFirst p (by omega) hBefore)
        unfold positions at hRest
        rw [hRest]
        congr 3
        omega

/- The loop goes over all positions, in their order. -/
theorem discoverFrom_eq
    (elf : List Byte)
    (it : Nat)
    (elfs : List EmbeddedElfInfo) :
    discoverFrom elf it elfs =
      (positions elf it (elf.length - it)).foldlM
        (discoverStep elf) elfs := by
  induction it, elfs using discoverFrom.induct elf with
  | case1 it elfs hSearch =>
      have hNone :
          positions elf it (elf.length - it) = [] := by
        unfold positions
        rw [List.filter_eq_nil_iff]
        exact List.find?_eq_none.mp hSearch
      rw [hNone, discoverFrom]
      split
      case h_1 => rfl
      case h_2 elfit hFound =>
        rw [hSearch] at hFound
        cases hFound
  | case2 it elfs elfit hSearch ih =>
      have hBounds := lt_of_search hSearch
      have hFirst := List.find?_range'_eq_some.mp hSearch
      have hPositions :=
        positions_cons hBounds.1 (show
            elfit < it + (elf.length - it) by omega)
          hFirst.1 (fun p hp hBefore => by
            simpa using hFirst.2.2 p hp hBefore)
      have hRest :
          it + (elf.length - it) - (elfit + 1) =
            elf.length - (elfit + 1) := by
        omega
      rw [hPositions, hRest, List.foldlM_cons, discoverFrom]
      split
      case h_1 hNone =>
        rw [hSearch] at hNone
        cases hNone
      case h_2 found hFound =>
        rw [hSearch] at hFound
        cases hFound
        unfold discoverStep
        cases embeddedElf elf elfit with
        | error fault => rfl
        | ok info => exact ih info

/- What is added to the list for a position. -/
def reportOf
    (elf : List Byte)
    (o : Nat) : Option EmbeddedElfInfo :=
  if Accepted elf o then some (infoAt elf o) else none

theorem discoverStep_eq
    (hHeld : ReadsHeld elf o)
    (hQuiet : ¬ Throws elf o)
    (elfs : List EmbeddedElfInfo) :
    discoverStep elf elfs o =
      .ok (elfs ++ (reportOf elf o).toList) := by
  unfold discoverStep
  rw [(embeddedElf_held hHeld).2 hQuiet]
  rfl

theorem foldl_reports
    (ps : List Nat)
    (elfs : List EmbeddedElfInfo) :
    ps.foldl
        (fun elfs o => elfs ++ (reportOf elf o).toList) elfs =
      elfs ++ ps.filterMap (reportOf elf) := by
  induction ps generalizing elfs with
  | nil => rw [List.filterMap_nil, List.append_nil]; rfl
  | cons o rest ih =>
      rw [List.foldl_cons, ih, List.append_assoc]
      congr 1
      cases hReport : reportOf elf o with
      | none => rw [List.filterMap_cons_none hReport]; rfl
      | some info =>
          rw [List.filterMap_cons_some hReport]
          rfl

theorem discover_eq
    {ps : List Nat}
    (hHeld : ∀ o ∈ ps, ReadsHeld elf o)
    (hQuiet : ∀ o ∈ ps, ¬ Throws elf o) :
    ps.foldlM (discoverStep elf) [] =
      .ok (ps.filterMap (reportOf elf)) := by
  rw [@Fallible.foldlM_eq_ok _ _ _ _
      (fun elfs o => elfs ++ (reportOf elf o).toList) ps
      (fun o hMem elfs =>
        discoverStep_eq (hHeld o hMem) (hQuiet o hMem) elfs)
      [],
    foldl_reports, List.nil_append]

/- The positions before one, that one, and the others. -/
theorem positions_split
    (hMagic : magicAt elf o = true) :
    ∃ rest,
      positions elf 0 elf.length =
        positions elf 0 o ++ o :: rest := by
  have hLt := lt_length_of_magicAt hMagic
  refine ⟨positions elf (o + 1) (elf.length - (o + 1)), ?_⟩
  have hRange :
      List.range' 0 elf.length =
        List.range' 0 o ++
          o :: List.range' (o + 1) (elf.length - (o + 1)) := by
    have hAppend :=
      @List.range'_append_1 0 o (elf.length - (o + 1) + 1)
    have hLength :
        o + (elf.length - (o + 1) + 1) = elf.length := by
      omega
    rw [Nat.zero_add, hLength] at hAppend
    rw [← List.range'_succ, hAppend]
  unfold positions
  rw [hRange, List.filter_append,
    List.filter_cons_of_pos hMagic]

/- The run up to a position, when nothing ends it before. -/
theorem discover_at
    (hMagic : magicAt elf o = true)
    (hHeld :
      ∀ p < o, magicAt elf p = true → ReadsHeld elf p)
    (hQuiet :
      ∀ p < o, magicAt elf p = true → ¬ Throws elf p) :
    ∃ elfs, ∃ rest : List Nat,
      discoverEmbeddedSpuElfs elf =
        discoverStep elf elfs o >>= fun next =>
          rest.foldlM (discoverStep elf) next := by
  rcases positions_split hMagic with ⟨rest, hSplit⟩
  have hBefore (p : Nat) (hMem : p ∈ positions elf 0 o) :
      p < o ∧ magicAt elf p = true := by
    rcases mem_positions.mp hMem with ⟨-, hLt, hp⟩
    exact ⟨by omega, hp⟩
  refine
    ⟨(positions elf 0 o).filterMap (reportOf elf), rest, ?_⟩
  have hFirst :=
    @discover_eq elf (positions elf 0 o)
      (fun p hMem =>
        hHeld p (hBefore p hMem).1 (hBefore p hMem).2)
      (fun p hMem =>
        hQuiet p (hBefore p hMem).1 (hBefore p hMem).2)
  unfold discoverEmbeddedSpuElfs
  rw [discoverFrom_eq, Nat.sub_zero, hSplit,
    List.foldlM_append, hFirst]
  change (o :: rest).foldlM (discoverStep elf) _ = _
  rw [List.foldlM_cons]

end Positions

------------------------------------------------------------
-- Sizes
------------------------------------------------------------

section Sizes

variable {elf : List Byte} {o : Nat}

/- The greatest number is one of them, and bounds them all. -/
theorem foldl_max
    (ns : List Nat)
    (m : Nat) :
    ns.foldl max m ∈ m :: ns ∧
      ∀ n ∈ m :: ns, n ≤ ns.foldl max m := by
  induction ns generalizing m with
  | nil => simp
  | cons n rest ih =>
      rcases ih (max m n) with ⟨hMem, hBound⟩
      rw [List.foldl_cons]
      have hFirst := hBound (max m n) List.mem_cons_self
      constructor
      · rcases List.mem_cons.mp hMem with hEq | hRest
        · rw [hEq]
          rcases max_choice m n with hMax | hMax
          · rw [hMax]
            exact List.mem_cons_self
          · rw [hMax]
            exact .tail m List.mem_cons_self
        · exact .tail m (.tail n hRest)
      · intro k hk
        rcases List.mem_cons.mp hk with rfl | hk
        · omega
        · rcases List.mem_cons.mp hk with rfl | hk
          · omega
          · exact hBound k (List.mem_cons_of_mem _ hk)

theorem EndsBy.mono
    {m n : Nat}
    {part : Nat × Nat}
    (hEnds : EndsBy m part)
    (hLe : m ≤ n) :
    EndsBy n part :=
  fun hNonempty => (hEnds hNonempty).trans hLe

theorem endsBy_size_iff
    (part : Nat × Nat) :
    EndsBy (infoAt elf o).size part ↔
      ∃ n ∈ 0 :: ends elf o, EndsBy n part := by
  have hMax := foldl_max (ends elf o) 0
  constructor
  · intro hEnds
    exact ⟨_, hMax.1, hEnds⟩
  · rintro ⟨n, hMem, hEnds⟩
    exact hEnds.mono (hMax.2 n hMem)

theorem size_lt (elf : List Byte) (o : Nat) :
    (infoAt elf o).size < 2 ^ 32 := by
  have hMem := (foldl_max (ends elf o) 0).1
  have hLt : ∀ n ∈ 0 :: ends elf o, n < 2 ^ 32 := by
    intro n hn
    unfold ends at hn
    rw [List.mem_cons, List.mem_append, List.mem_map,
      List.mem_map] at hn
    rcases hn with rfl | ⟨i, -, rfl⟩ | ⟨j, -, rfl⟩
    · omega
    · omega
    · omega
  exact hLt _ hMem

/- The sums of 32 bits that are the ends of segments. -/
theorem mem_ends_of_segment
    {part : Nat × Nat}
    (hMem : part ∈ segmentParts elf o)
    (hEnds : EndsBy (2 ^ 32 - 1) part)
    (hNonempty : part.2 ≠ 0) :
    part.1 + part.2 ∈ ends elf o := by
  rcases List.mem_map.mp hMem with ⟨i, hIndex, rfl⟩
  have hLt := hEnds hNonempty
  unfold ends
  rw [List.mem_append]
  left
  refine List.mem_map.mpr ⟨i, hIndex, ?_⟩
  exact Nat.mod_eq_of_lt (by omega)

theorem sizeCondition_iff :
    SizeCondition elf o ↔
      ∀ part ∈ parts elf o,
        EndsBy (infoAt elf o).size part := by
  constructor
  · intro hSizes part hMem
    unfold parts at hMem
    rw [List.append_assoc, List.mem_append] at hMem
    rcases hMem with hSegment | hOther
    · intro hNonempty
      have hEnd :=
        mem_ends_of_segment hSegment
          (hSizes.segments part hSegment) hNonempty
      exact (foldl_max (ends elf o) 0).2 _ (.tail 0 hEnd)
    · exact
        (endsBy_size_iff part).mpr (hSizes.others part hOther)
  · intro hEnds
    constructor
    · intro part hMem
      have hPart : part ∈ parts elf o := by
        unfold parts
        rw [List.append_assoc, List.mem_append]
        exact .inl hMem
      have hLt := size_lt elf o
      exact (hEnds part hPart).mono (by omega)
    · intro part hMem
      have hPart : part ∈ parts elf o := by
        unfold parts
        rw [List.append_assoc, List.mem_append]
        exact .inr hMem
      exact (endsBy_size_iff part).mp (hEnds part hPart)

end Sizes

------------------------------------------------------------
-- Runs
------------------------------------------------------------

section Runs

variable {elf : List Byte}

theorem throws_not_outside
    {α : Type}
    (offset : Nat) :
    (outOfRange : Except ElfFault α) ≠
      .error (.outside offset) := by
  intro hEq
  cases hEq

/- A run without an exception has read inside the buffer. -/
theorem held_of_discover
    {elfs : List EmbeddedElfInfo}
    (hRun : discoverEmbeddedSpuElfs elf = .ok elfs) :
    ∀ o, magicAt elf o = true →
      ReadsHeld elf o ∧ ¬ Throws elf o := by
  unfold discoverEmbeddedSpuElfs at hRun
  rw [discoverFrom_eq, Nat.sub_zero] at hRun
  have hStep :
      ∀ o ∈ positions elf 0 elf.length,
        ∃ info, embeddedElf elf o = .ok info := by
    apply (Fallible.run_of_foldlM hRun).established
      (fun o _ => ∃ info, embeddedElf elf o = .ok info)
    · intro elfs o elfs' hStep
      rcases Fallible.bind_eq_ok.mp hStep with ⟨info, hInfo, -⟩
      exact ⟨info, hInfo⟩
    · intro _ _ _ _ _ hInfo
      exact hInfo
  intro o hMagic
  have hLt := lt_length_of_magicAt hMagic
  rcases hStep o (mem_positions.mpr ⟨Nat.zero_le o, by omega,
    hMagic⟩) with ⟨info, hInfo⟩
  have hHeld : ReadsHeld elf o := by
    by_contra hNot
    rcases embeddedElf_escapes hNot with ⟨fault, hError, -⟩
    rw [hInfo] at hError
    cases hError
  refine ⟨hHeld, ?_⟩
  intro hThrows
  rw [(embeddedElf_held hHeld).1 hThrows] at hInfo
  cases hInfo

/- Such a run reports what it is to report. -/
theorem discover_of_held
    (hHeld :
      ∀ o, magicAt elf o = true →
        ReadsHeld elf o ∧ ¬ Throws elf o) :
    discoverEmbeddedSpuElfs elf =
      .ok ((positions elf 0 elf.length).filterMap
        (reportOf elf)) := by
  unfold discoverEmbeddedSpuElfs
  rw [discoverFrom_eq, Nat.sub_zero]
  apply discover_eq
  · intro o hMem
    exact (hHeld o (mem_positions.mp hMem).2.2).1
  · intro o hMem
    exact (hHeld o (mem_positions.mp hMem).2.2).2

theorem mem_reports
    {info : EmbeddedElfInfo} :
    info ∈ (positions elf 0 elf.length).filterMap
        (reportOf elf) ↔
      ∃ o, magicAt elf o = true ∧ Accepted elf o ∧
        infoAt elf o = info := by
  rw [List.mem_filterMap]
  constructor
  · rintro ⟨o, hMem, hReport⟩
    unfold reportOf at hReport
    split at hReport
    case isTrue hAccepted =>
      exact
        ⟨o, (mem_positions.mp hMem).2.2, hAccepted,
          Option.some.inj hReport⟩
    case isFalse => cases hReport
  · rintro ⟨o, hMagic, hAccepted, rfl⟩
    have hLt := lt_length_of_magicAt hMagic
    refine ⟨o, mem_positions.mpr ⟨by omega, by omega, hMagic⟩,
      if_pos hAccepted⟩

/- The first position of which the reads are not all inside. -/
theorem discover_outside
    {o : Nat}
    (hMagic : magicAt elf o = true)
    (hQuiet :
      ∀ p < o, magicAt elf p = true → ¬ Throws elf p)
    (hHeld : ¬ ReadsHeld elf o) :
    ∃ offset,
      discoverEmbeddedSpuElfs elf =
        .error (.outside offset) := by
  induction o using Nat.strong_induction_on with
  | _ o ih =>
      by_cases hEarlier :
          ∀ p < o, magicAt elf p = true → ReadsHeld elf p
      · rcases discover_at hMagic hEarlier hQuiet with
          ⟨elfs, rest, hRun⟩
        have hEscapes :
            Escapes (discoverEmbeddedSpuElfs elf) := by
          rw [hRun]
          exact ((embeddedElf_escapes hHeld).bind _).bind _
        rcases hEscapes with ⟨fault, hError, hOutside⟩
        cases fault with
        | outside offset => exact ⟨offset, hError⟩
        | threw text => cases hOutside
      · simp only [not_forall] at hEarlier
        rcases hEarlier with ⟨p, hBefore, hp, hNot⟩
        exact ih p hBefore hp
          (fun q hq => hQuiet q (by omega)) hNot

/- A search stays inside until an exception ends it. -/
theorem discover_inside
    (hReads :
      ∀ o, magicAt elf o = true →
        (∀ p < o, magicAt elf p = true → ¬ Throws elf p) →
          ReadsHeld elf o)
    (offset : Nat) :
    discoverEmbeddedSpuElfs elf ≠
      .error (.outside offset) := by
  by_cases hThrows : ∃ o, magicAt elf o = true ∧ Throws elf o
  · have hFirst := Nat.find_spec hThrows
    have hQuiet :
        ∀ p < Nat.find hThrows,
          magicAt elf p = true → ¬ Throws elf p :=
      fun p hBefore hp hThrow =>
        Nat.find_min hThrows hBefore ⟨hp, hThrow⟩
    have hHeld (p : Nat) (hLe : p ≤ Nat.find hThrows)
        (hp : magicAt elf p = true) : ReadsHeld elf p :=
      hReads p hp
        (fun q hq => hQuiet q (by omega))
    rcases discover_at hFirst.1
        (fun p hp => hHeld p (by omega)) hQuiet with
      ⟨elfs, rest, hRun⟩
    have hStop :
        discoverStep elf elfs (Nat.find hThrows) =
          outOfRange := by
      unfold discoverStep
      rw [(embeddedElf_held
        (hHeld _ (Nat.le_refl _) hFirst.1)).1 hFirst.2]
      rfl
    rw [hRun, hStop]
    exact throws_not_outside offset
  · have hQuiet (o : Nat) (ho : magicAt elf o = true) :
        ¬ Throws elf o :=
      fun hThrow => hThrows ⟨o, ho, hThrow⟩
    rw [discover_of_held (fun o ho =>
      ⟨hReads o ho (fun p _ hp => hQuiet p hp),
        hQuiet o ho⟩)]
    intro hEq
    cases hEq

/- What a report of a file says of the buffer. -/
theorem file_of_discovers
    (hDiscovers : DiscoversElfs elf)
    {o : Nat}
    (hForm : WellFormedElf elf o) :
    (∀ p, magicAt elf p = true → ¬ Throws elf p) ∧
      Accepted elf o ∧ o % 2 ^ 32 = o ∧
      SizeCondition elf o := by
  rcases hDiscovers.2 o hForm with
    ⟨elfs, info, hRun, hMem, hHeader, hStart, hParts⟩
  have hHeld := held_of_discover hRun
  rw [discover_of_held hHeld] at hRun
  cases hRun
  rcases mem_reports.mp hMem with ⟨p, -, hAccepted, rfl⟩
  change p = o at hHeader
  rw [hHeader] at hAccepted hStart hParts
  exact
    ⟨fun p hp => (hHeld p hp).2, hAccepted, hStart,
      sizeCondition_iff.mpr hParts⟩

theorem discoversElfs_iff (elf : List Byte) :
    DiscoversElfs elf ↔ ElfsCondition elf := by
  constructor
  · intro hDiscovers
    have hFile (o : Nat) (hForm : WellFormedElf elf o) :=
      file_of_discovers hDiscovers hForm
    constructor
    · intro o hMagic hQuiet
      by_contra hNot
      rcases discover_outside hMagic hQuiet hNot with
        ⟨offset, hOutside⟩
      exact hDiscovers.1 offset hOutside
    · intro o hForm
      exact (hFile o hForm).1
    · intro o hForm
      have hPosition := (hFile o hForm).2.2.1
      omega
    · intro o hForm
      have hAccepted := (hFile o hForm).2.1
      exact
        ⟨hAccepted (ePhentsize, phdrSize)
            (by simp [headerTests]),
          hAccepted (eShentsize, shdrSize)
            (by simp [headerTests])⟩
    · intro o hForm
      exact (hFile o hForm).2.2.2
  · intro hCondition
    refine ⟨discover_inside hCondition.reads, ?_⟩
    intro o hForm
    have hQuiet := hCondition.quiet o hForm
    have hEntsizes := hCondition.entsizes o hForm
    have hAccepted : Accepted elf o := by
      intro test hMem
      simp only [headerTests, List.mem_cons,
        List.not_mem_nil, or_false] at hMem
      rcases hMem with rfl | rfl | rfl | rfl
      · exact hForm.class32
      · exact hForm.ehsize
      · exact hEntsizes.1
      · exact hEntsizes.2
    have hRun :=
      discover_of_held (fun p hp =>
        ⟨hCondition.reads p hp (fun q _ hq => hQuiet q hq),
          hQuiet p hp⟩)
    refine
      ⟨_, infoAt elf o, hRun,
        mem_reports.mpr ⟨o, hForm.magic, hAccepted, rfl⟩, rfl,
        ?_, ?_⟩
    · exact Nat.mod_eq_of_lt (hCondition.position o hForm)
    · exact sizeCondition_iff.mp (hCondition.sizes o hForm)

/-
  A file with a segment of one instruction, a section that is
  not loaded, and the table of the sections at its end.
-/
def commentElf : List Byte :=
  ([0x7f454c46, 0x01020100, 0, 0, 0x00020017, 1, 0, 52, 92, 0,
    0x00340020, 0x00010028, 0x00020000,
    1, 84, 0, 0, 4, 4, 5, 4,
    0x35000000, 0x47434300,
    0, 0, 0, 0, 0, 0, 0, 0, 0, 0,
    0, 1, 0, 0, 88, 4, 0, 0, 1, 0] : List (Word 4)).flatMap
      Bytes.bigEndian

theorem length_commentElf : commentElf.length = 172 := by
  decide +kernel

theorem wellFormedElf_commentElf :
    WellFormedElf commentElf 0 where
  magic := by decide
  header := by
    rw [length_commentElf]
    decide
  class32 := by decide
  data := by decide
  ehsize := by decide
  phentsize := by decide
  shentsize := by decide
  parts := by
    rw [length_commentElf]
    decide

/-
  The class of a header of four bytes is read behind them, and
  the size of a whole file ends before its sections.
-/
theorem not_discoversElfs :
    (∃ offset,
      discoverEmbeddedSpuElfs magic =
        .error (.outside offset)) ∧
      ¬ DiscoversElfs commentElf := by
  constructor
  · have hMagic : magicAt magic 0 = true := by decide
    apply discover_outside hMagic
    · intro p hp
      omega
    · rintro ⟨hTests, -⟩
      exact absurd hTests.1 (by decide)
  · intro hDiscovers
    have hSizes :=
      (file_of_discovers hDiscovers
        wellFormedElf_commentElf).2.2.2
    have hSections := hSizes.others (92, 80) (by decide)
    exact absurd hSections (by decide)

end Runs

end Rewriter

end Ps3emu
