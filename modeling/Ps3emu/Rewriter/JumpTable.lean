import Mathlib.Data.Nat.Find
import Ps3emu.Rewriter.Discover
import Ps3emu.Rewriter.IndirectLocations

/-
  The search of a block for the table of a jump: the words
  from an address that the block loads, as long as they are
  addresses of instructions of the segment.

  Key definitions include:
    * `scanTable`, `discoverJumpTable`
    * `Entry`, `IsTable`
    * `FindsTable`

  Key theorems include:
    * `scanTable_entries`
    * `scanTable_stop`
    * `findsTable_iff`
-/

------------------------------------------------------------
-- Search
------------------------------------------------------------

namespace Ps3emu

namespace Rewriter

abbrev Read := Ps3Uintptr → Except String (BitVec 32)

/- The loop over the words of a table, from a length on. -/
def scanTable
    (segmentStart segmentLen : BitVec 32)
    (read : Read)
    (table : BitVec 32) :
    Nat → BitVec 32 → Except Halt (BitVec 32)
  | 0, _ => .error .unfinished
  | fuel + 1, tlen => do
      if subset (table + tlen) 4#32 segmentStart
          segmentLen then
        let offset ← call (read (table + tlen))
        if offset.toNat % 4 ≠ 0 then return tlen
        else if subset offset 4#32 segmentStart
            segmentLen then
          scanTable segmentStart segmentLen read table fuel
            (tlen + 4#32)
        else return tlen
      else return tlen

/- The loop over the instructions of the block. -/
def discoverJumpTableLoop
    (fuel : Nat)
    (segmentStart segmentLen : BitVec 32)
    (analyze : AnalyzeSpu)
    (name : Name)
    (read : Read) :
    List Ps3Uintptr → BitVec 32 × BitVec 32 →
      Except Halt (BitVec 32 × BitVec 32)
  | [], s => return s
  | ip :: rest, s => do
      let n ← call (name ip)
      if n = some (.compute .ila) then
        let table := (operand (analyze ip).inputs 0).imm
        let tlen ←
          scanTable segmentStart segmentLen read table fuel s.2
        if tlen ≠ 0#32 then return (table, tlen)
        else
          discoverJumpTableLoop fuel segmentStart segmentLen
            analyze name read rest (table, tlen)
      else
        discoverJumpTableLoop fuel segmentStart segmentLen
          analyze name read rest s

def discoverJumpTable
    (fuel : Nat)
    (start len segmentStart segmentLen : BitVec 32)
    (analyze : AnalyzeSpu)
    (name : Name)
    (read : Read) :
    Except Halt (BitVec 32 × BitVec 32) :=
  discoverJumpTableLoop fuel segmentStart segmentLen analyze
    name read (whileLt start (start + len)) (0#32, 0#32)

------------------------------------------------------------
-- Tables
------------------------------------------------------------

section Table

variable (code : Ps3Uintptr → BitVec 32)
variable (segmentStart segmentLen : BitVec 32)

/- The word at an address lies inside the segment. -/
def InSegment (a : Nat) : Prop :=
  segmentStart.toNat ≤ a ∧
    a + 4 ≤ segmentStart.toNat + segmentLen.toNat

instance (a : Nat) :
    Decidable (InSegment segmentStart segmentLen a) :=
  inferInstanceAs (Decidable (_ ∧ _))

/- The contents of the segment, which has nothing outside. -/
def readSegment : Read :=
  fun va =>
    if InSegment segmentStart segmentLen va.toNat then
      .ok (code va)
    else .error "outside the segment"

/- A word of the segment with a word-aligned address in it. -/
def Entry (a : Nat) : Prop :=
  InSegment segmentStart segmentLen a ∧
    (code (BitVec.ofNat 32 a)).toNat % 4 = 0 ∧
    InSegment segmentStart segmentLen
      (code (BitVec.ofNat 32 a)).toNat

instance (a : Nat) :
    Decidable (Entry code segmentStart segmentLen a) :=
  inferInstanceAs (Decidable (_ ∧ _ ∧ _))

/- The run of entries from `a` has `n` of them. -/
def IsTable (a n : Nat) : Prop :=
  (∀ k < n, Entry code segmentStart segmentLen (a + 4 * k)) ∧
    ¬ Entry code segmentStart segmentLen (a + 4 * n)

/- The address that instruction `i` loads. -/
def LoadsAddress
    (start : BitVec 32)
    (i : Nat)
    (a : BitVec 32) : Prop :=
  instrAt code start i = some (.compute .ila) ∧
    a = (Spu.i18 (wordAt code start i)).setWidth 32

/- The instructions of a block, none of them illegal. -/
structure CodeBlock (start len : BitVec 32) : Prop where
  aligned : 4 ∣ len.toNat
  fits : start.toNat + len.toNat < 2 ^ 32
  decodes : ∀ i < wordCount len, (instrAt code start i).isSome

/-
  The search ends without a read outside the segment.  What
  it reports is a whole table at an address that the block
  loads, and it reports one if the loop over the words finds
  one for any of the addresses.
-/
def FindsTable (start len : BitVec 32) : Prop :=
  ∃ fuel table tlen,
    discoverJumpTable fuel start len segmentStart segmentLen
        (analyzeWords code) (nameWords code)
        (readSegment code segmentStart segmentLen) =
      .ok (table, tlen) ∧
    (tlen ≠ 0#32 →
      ∃ i n, i < wordCount len ∧
        LoadsAddress code start i table ∧
        tlen.toNat = 4 * n ∧
        IsTable code segmentStart segmentLen table.toNat n) ∧
    ∀ i < wordCount len, ∀ a, LoadsAddress code start i a →
      (∃ fuel found,
        scanTable segmentStart segmentLen
            (readSegment code segmentStart segmentLen) a fuel
            0#32 =
          .ok found ∧ found ≠ 0#32) →
      tlen ≠ 0#32

/-
  Where a run of entries ends, the test of the next word goes
  wrong: the end of the word, or of the word whose address it
  has, wraps around.
-/
def Slips (a : Nat) : Prop :=
  2 ^ 32 ≤ a + 4 ∨
    (InSegment segmentStart segmentLen a ∧
      code (BitVec.ofNat 32 a) = 0xfffffffc#32)

/-
  The end of the segment does not fit in a word, or no test
  goes wrong after the table of the first address that has
  one, or at an address before.
-/
def TableCondition (start len : BitVec 32) : Prop :=
  segmentStart.toNat + segmentLen.toNat < 2 ^ 32 →
    ∀ i < wordCount len, ∀ a n, LoadsAddress code start i a →
      (∀ j < i, ∀ b, LoadsAddress code start j b →
        ¬ Entry code segmentStart segmentLen b.toNat) →
      IsTable code segmentStart segmentLen a.toNat n →
        ¬ Slips code segmentStart segmentLen (a.toNat + 4 * n)

end Table

------------------------------------------------------------
-- Scans of Words
------------------------------------------------------------

section Scan

variable {code : Ps3Uintptr → BitVec 32}
variable {segmentStart segmentLen : BitVec 32}

theorem call_readSegment
    {va : Ps3Uintptr}
    (hInside : InSegment segmentStart segmentLen va.toNat) :
    call (readSegment code segmentStart segmentLen va) =
      .ok (code va) := by
  unfold readSegment
  rw [if_pos hInside]
  rfl

/- The address of a word of a table. -/
theorem wordAddress_eq
    {table : BitVec 32}
    {m : Nat}
    (hAddress : table.toNat + 4 * m < 2 ^ 32) :
    (table + BitVec.ofNat 32 (4 * m)).toNat =
        table.toNat + 4 * m ∧
      BitVec.ofNat 32 (table.toNat + 4 * m) =
        table + BitVec.ofNat 32 (4 * m) := by
  constructor
  · exact toNat_add_ofNat _ _ hAddress
  · rw [BitVec.ofNat_add, BitVec.ofNat_toNat,
      BitVec.setWidth_eq]

theorem ofNat_four_succ (m : Nat) :
    BitVec.ofNat 32 (4 * m) + 4#32 =
      BitVec.ofNat 32 (4 * (m + 1)) := by
  rw [Nat.mul_succ, BitVec.ofNat_add]

/- Every address has a table, which may be empty. -/
theorem exists_isTable
    (a : Nat) :
    ∃ n, IsTable code segmentStart segmentLen a n := by
  have hSome :
      ∃ n,
        ¬ Entry code segmentStart segmentLen (a + 4 * n) := by
    refine ⟨segmentStart.toNat + segmentLen.toNat, ?_⟩
    rintro ⟨hInside, -⟩
    unfold InSegment at hInside
    omega
  refine ⟨Nat.find hSome, ?_, Nat.find_spec hSome⟩
  intro k hk
  exact not_not.mp (Nat.find_min hSome hk)

/- More rounds do not change a result. -/
theorem scanTable_mono
    {read : Read}
    {table tlen t : BitVec 32}
    {fuel : Nat}
    (hScan :
      scanTable segmentStart segmentLen read table fuel
          tlen =
        .ok t)
    (more : Nat) :
    scanTable segmentStart segmentLen read table (fuel + more)
        tlen =
      .ok t := by
  induction fuel generalizing tlen with
  | zero => cases hScan
  | succ fuel ih =>
      rw [Nat.succ_add]
      rw [scanTable] at hScan ⊢
      split at hScan
      case isFalse hNot =>
        rw [if_neg hNot]
        exact hScan
      case isTrue hInside =>
        rw [if_pos hInside]
        rcases Fallible.bind_eq_ok.mp hScan with
          ⟨offset, hRead, hRest⟩
        refine Fallible.bind_eq_ok.mpr ⟨offset, hRead, ?_⟩
        split at hRest
        case isTrue hAligned =>
          rw [if_pos hAligned]
          exact hRest
        case isFalse hAligned =>
          rw [if_neg hAligned]
          split at hRest
          case isTrue hTarget =>
            rw [if_pos hTarget]
            exact ih hRest
          case isFalse hTarget =>
            rw [if_neg hTarget]
            exact hRest

theorem inSegment_of_call
    {va : Ps3Uintptr}
    {offset : BitVec 32}
    (hRead :
      call (readSegment code segmentStart segmentLen va) =
        .ok offset) :
    InSegment segmentStart segmentLen va.toNat := by
  by_contra hOutside
  unfold readSegment at hRead
  rw [if_neg hOutside] at hRead
  cases hRead

/- The entries of a table lie inside the segment. -/
theorem IsTable.bounds
    {a n : Nat}
    (hTable : IsTable code segmentStart segmentLen a n) :
    n = 0 ∨
      (segmentStart.toNat ≤ a ∧
        a + 4 * n ≤
          segmentStart.toNat + segmentLen.toNat) := by
  cases n with
  | zero => exact .inl rfl
  | succ n =>
      have hFirst := (hTable.1 0 (by omega)).1
      have hLast := (hTable.1 n (by omega)).1
      unfold InSegment at hFirst hLast
      right
      omega

variable (hFits : segmentStart.toNat + segmentLen.toNat < 2 ^ 32)

include hFits

theorem subset_iff
    (a : BitVec 32) :
    subset a 4#32 segmentStart segmentLen = true ↔
      segmentStart.toNat ≤ a.toNat ∧
        (a + 4#32).toNat ≤
          segmentStart.toNat + segmentLen.toNat := by
  have hEnd :
      (segmentStart + segmentLen).toNat =
        segmentStart.toNat + segmentLen.toNat := by
    rw [BitVec.toNat_add]
    omega
  simp only [subset, Bool.and_eq_true, decide_eq_true_eq,
    hEnd]

theorem subset_of_inSegment
    {a : BitVec 32}
    (hInside : InSegment segmentStart segmentLen a.toNat) :
    subset a 4#32 segmentStart segmentLen = true := by
  rw [subset_iff hFits]
  unfold InSegment at hInside
  refine ⟨hInside.1, ?_⟩
  bv_omega

/- The test is right where the end of the word does not wrap. -/
theorem inSegment_of_subset
    {a : BitVec 32}
    (hSubset :
      subset a 4#32 segmentStart segmentLen = true)
    (hEnd : a.toNat + 4 < 2 ^ 32) :
    InSegment segmentStart segmentLen a.toNat := by
  rw [subset_iff hFits] at hSubset
  unfold InSegment
  refine ⟨hSubset.1, ?_⟩
  have hNext : (a + 4#32).toNat = a.toNat + 4 := by
    bv_omega
  omega

/- One round, at a word of the segment. -/
theorem scanTable_read
    {table tlen : BitVec 32}
    (hInside :
      InSegment segmentStart segmentLen
        (table + tlen).toNat)
    (fuel : Nat) :
    scanTable segmentStart segmentLen
        (readSegment code segmentStart segmentLen) table
        (fuel + 1) tlen =
      if (code (table + tlen)).toNat % 4 ≠ 0 then .ok tlen
      else if subset (code (table + tlen)) 4#32 segmentStart
          segmentLen then
        scanTable segmentStart segmentLen
          (readSegment code segmentStart segmentLen) table
          fuel (tlen + 4#32)
      else .ok tlen := by
  rw [scanTable, subset_of_inSegment hFits hInside,
    call_readSegment hInside]
  rfl

/- An entry makes the table longer. -/
theorem scanTable_entry
    {table : BitVec 32}
    {m : Nat}
    (hEntry :
      Entry code segmentStart segmentLen
        (table.toNat + 4 * m))
    (fuel : Nat) :
    scanTable segmentStart segmentLen
        (readSegment code segmentStart segmentLen) table
        (fuel + 1) (BitVec.ofNat 32 (4 * m)) =
      scanTable segmentStart segmentLen
        (readSegment code segmentStart segmentLen) table fuel
        (BitVec.ofNat 32 (4 * (m + 1))) := by
  rcases hEntry with ⟨hInside, hAligned, hTarget⟩
  have hAddress : table.toNat + 4 * m < 2 ^ 32 := by
    unfold InSegment at hInside
    omega
  rcases wordAddress_eq hAddress with ⟨hValue, hSame⟩
  rw [hSame] at hAligned hTarget
  rw [← hValue] at hInside
  rw [scanTable_read hFits hInside,
    if_neg (not_not.mpr hAligned),
    if_pos (subset_of_inSegment hFits hTarget),
    ofNat_four_succ]

theorem scanTable_entries
    {table : BitVec 32}
    (fuel : Nat)
    {n m : Nat}
    (hEntries :
      ∀ k < n,
        Entry code segmentStart segmentLen
          (table.toNat + 4 * (m + k))) :
    scanTable segmentStart segmentLen
        (readSegment code segmentStart segmentLen) table
        (fuel + n) (BitVec.ofNat 32 (4 * m)) =
      scanTable segmentStart segmentLen
        (readSegment code segmentStart segmentLen) table fuel
        (BitVec.ofNat 32 (4 * (m + n))) := by
  induction n generalizing m with
  | zero => rfl
  | succ n ih =>
      have hFirst := hEntries 0 (by omega)
      rw [Nat.add_zero] at hFirst
      have hRest :
          ∀ k < n,
            Entry code segmentStart segmentLen
              (table.toNat + 4 * (m + 1 + k)) := by
        intro k hk
        have hEntry := hEntries (k + 1) (by omega)
        rwa [Nat.add_comm k 1, ← Nat.add_assoc] at hEntry
      rw [← Nat.add_assoc, scanTable_entry hFits hFirst,
        ih hRest]
      congr 3
      omega

/- A word that is no entry ends it, if no test goes wrong. -/
theorem scanTable_stop
    {table : BitVec 32}
    {n : Nat}
    (hStop :
      ¬ Entry code segmentStart segmentLen
        (table.toNat + 4 * n))
    (hRight :
      ¬ Slips code segmentStart segmentLen
        (table.toNat + 4 * n))
    (fuel : Nat) :
    scanTable segmentStart segmentLen
        (readSegment code segmentStart segmentLen) table
        (fuel + 1) (BitVec.ofNat 32 (4 * n)) =
      .ok (BitVec.ofNat 32 (4 * n)) := by
  have hEnd : table.toNat + 4 * n + 4 < 2 ^ 32 := by
    by_contra hWraps
    exact hRight (.inl (by omega))
  rcases wordAddress_eq
      (show table.toNat + 4 * n < 2 ^ 32 by omega) with
    ⟨hValue, hSame⟩
  by_cases hInside :
      InSegment segmentStart segmentLen
        (table.toNat + 4 * n)
  · have hWord :
        code (table + BitVec.ofNat 32 (4 * n)) ≠
          0xfffffffc#32 := by
      intro hEq
      apply hRight
      right
      rw [hSame]
      exact ⟨hInside, hEq⟩
    unfold Entry at hStop
    rw [hSame] at hStop
    rw [← hValue] at hInside
    rw [scanTable_read hFits hInside]
    by_cases hAligned :
        (code (table + BitVec.ofNat 32 (4 * n))).toNat % 4 = 0
    · have hNot :
          ¬ subset (code (table + BitVec.ofNat 32 (4 * n)))
            4#32 segmentStart segmentLen = true := by
        intro hSubset
        apply hStop
        rw [hValue] at hInside
        refine ⟨hInside, hAligned, ?_⟩
        apply inSegment_of_subset hFits hSubset
        bv_omega
      rw [if_neg (not_not.mpr hAligned), if_neg hNot]
    · rw [if_pos hAligned]
  · have hNot :
        ¬ subset (table + BitVec.ofNat 32 (4 * n)) 4#32
          segmentStart segmentLen = true := by
      intro hSubset
      apply hInside
      rw [← hValue]
      apply inSegment_of_subset hFits hSubset
      omega
    rw [scanTable, if_neg hNot]
    rfl

/- The whole of a table. -/
theorem scanTable_table
    {table : BitVec 32}
    {n : Nat}
    (hTable :
      IsTable code segmentStart segmentLen table.toNat n)
    (hRight :
      ¬ Slips code segmentStart segmentLen
        (table.toNat + 4 * n))
    (fuel : Nat) :
    scanTable segmentStart segmentLen
        (readSegment code segmentStart segmentLen) table
        (fuel + 1 + n) 0#32 =
      .ok (BitVec.ofNat 32 (4 * n)) := by
  have hEntries :
      ∀ k < n,
        Entry code segmentStart segmentLen
          (table.toNat + 4 * (0 + k)) := by
    intro k hk
    rw [Nat.zero_add]
    exact hTable.1 k hk
  have hScan := scanTable_entries hFits (fuel + 1) hEntries
  rw [Nat.zero_add] at hScan
  exact hScan.trans (scanTable_stop hFits hTable.2 hRight fuel)

variable {table t : BitVec 32}

/- A result is at least as long as the table so far. -/
theorem scanTable_length
    {fuel m : Nat}
    (hAddress : table.toNat + 4 * m < 2 ^ 32)
    (hScan :
      scanTable segmentStart segmentLen
          (readSegment code segmentStart segmentLen) table
          fuel (BitVec.ofNat 32 (4 * m)) =
        .ok t) :
    ∃ n, m ≤ n ∧ t.toNat = 4 * n := by
  have hStop :
      ∃ n, m ≤ n ∧
        (BitVec.ofNat 32 (4 * m)).toNat = 4 * n := by
    refine ⟨m, Nat.le_refl m, ?_⟩
    rw [BitVec.toNat_ofNat]
    omega
  induction fuel generalizing m with
  | zero => cases hScan
  | succ fuel ih =>
      rw [scanTable] at hScan
      split at hScan
      case isFalse =>
        cases hScan
        exact hStop
      case isTrue =>
        rcases Fallible.bind_eq_ok.mp hScan with
          ⟨offset, hRead, hRest⟩
        have hInside := inSegment_of_call hRead
        rw [(wordAddress_eq hAddress).1] at hInside
        unfold InSegment at hInside
        split at hRest
        case isTrue =>
          cases hRest
          exact hStop
        case isFalse =>
          split at hRest
          case isFalse =>
            cases hRest
            exact hStop
          case isTrue =>
            rw [ofNat_four_succ] at hRest
            have hEnd :
                table.toNat + 4 * (m + 1) < 2 ^ 32 := by
              omega
            rcases ih hEnd hRest
                ⟨m + 1, Nat.le_refl _, by
                  rw [BitVec.toNat_ofNat]
                  omega⟩ with
              ⟨n, hLe, hLength⟩
            exact ⟨n, by omega, hLength⟩

/- The search goes on after the last entry. -/
theorem scanTable_after
    {n fuel : Nat}
    (hTable :
      IsTable code segmentStart segmentLen table.toNat n)
    (hScan :
      scanTable segmentStart segmentLen
          (readSegment code segmentStart segmentLen) table
          fuel 0#32 =
        .ok t) :
    scanTable segmentStart segmentLen
        (readSegment code segmentStart segmentLen) table
        (fuel + 1) (BitVec.ofNat 32 (4 * n)) =
      .ok t := by
  have hEntries :
      ∀ k < n,
        Entry code segmentStart segmentLen
          (table.toNat + 4 * (0 + k)) := by
    intro k hk
    rw [Nat.zero_add]
    exact hTable.1 k hk
  have hRun := scanTable_mono hScan (1 + n)
  rwa [← Nat.add_assoc,
    show (0#32) = BitVec.ofNat 32 (4 * 0) from rfl,
    scanTable_entries hFits (fuel + 1) hEntries,
    Nat.zero_add] at hRun

/- Where a test goes wrong, too much is taken for a table. -/
theorem scanTable_slip
    (hSmall : table.toNat < 2 ^ 18)
    {n fuel : Nat}
    (hTable :
      IsTable code segmentStart segmentLen table.toNat n)
    (hSlips :
      Slips code segmentStart segmentLen
        (table.toNat + 4 * n))
    (hScan :
      scanTable segmentStart segmentLen
          (readSegment code segmentStart segmentLen) table
          fuel 0#32 =
        .ok t) :
    ∃ m, n < m ∧ t.toNat = 4 * m := by
  have hRun := scanTable_after hFits hTable hScan
  have hBefore := hTable.bounds
  have hAddress : table.toNat + 4 * n < 2 ^ 32 := by
    omega
  rcases wordAddress_eq hAddress with ⟨hValue, hSame⟩
  rcases hSlips with hWraps | ⟨hInside, hWord⟩
  · have hSubset :
        subset (table + BitVec.ofNat 32 (4 * n)) 4#32
          segmentStart segmentLen = true := by
      rw [subset_iff hFits, hValue]
      refine ⟨by omega, ?_⟩
      rw [BitVec.toNat_add, hValue, BitVec.toNat_ofNat]
      omega
    rw [scanTable, if_pos hSubset] at hRun
    rcases Fallible.bind_eq_ok.mp hRun with
      ⟨offset, hRead, -⟩
    have hInside := inSegment_of_call hRead
    rw [hValue] at hInside
    unfold InSegment at hInside
    omega
  · rw [hSame] at hWord
    have hIn := hInside
    rw [← hValue] at hIn
    have hTarget :
        subset 0xfffffffc#32 4#32 segmentStart segmentLen =
          true := by
      unfold InSegment at hInside
      rw [subset_iff hFits]
      refine ⟨?_, Nat.zero_le _⟩
      change segmentStart.toNat ≤ 4294967292
      omega
    rw [scanTable_read hFits hIn, hWord, if_neg (by decide),
      if_pos hTarget, ofNat_four_succ] at hRun
    unfold InSegment at hInside
    rcases scanTable_length hFits (by omega) hRun with
      ⟨m, hLe, hLength⟩
    exact ⟨m, hLe, hLength⟩

end Scan

------------------------------------------------------------
-- Loops over Instructions
------------------------------------------------------------

section Loop

variable {code : Ps3Uintptr → BitVec 32}
variable {segmentStart segmentLen start len : BitVec 32}
variable {i : Nat} {a : BitVec 32}

theorem loadsAddress_lt
    (hLoads : LoadsAddress code start i a) :
    a.toNat < 2 ^ 18 := by
  rw [hLoads.2, BitVec.toNat_setWidth]
  have hLt := (Spu.i18 (wordAt code start i)).isLt
  omega

/- Instruction `i` loads no address with a table. -/
def Quiet
    (code : Ps3Uintptr → BitVec 32)
    (segmentStart segmentLen start : BitVec 32)
    (i : Nat) : Prop :=
  ∀ a, LoadsAddress code start i a → ∀ fuel,
    scanTable segmentStart segmentLen
        (readSegment code segmentStart segmentLen) a
        (fuel + 1) 0#32 =
      .ok 0#32

/- The rest of the block, from instruction `i` on. -/
def restOf (start len : BitVec 32) (i : Nat) : List Ps3Uintptr :=
  rounds (wordCount len - i) (start + BitVec.ofNat 32 (4 * i))

theorem restOf_eq
    (hLt : i < wordCount len) :
    restOf start len i =
      (start + BitVec.ofNat 32 (4 * i)) ::
        restOf start len (i + 1) := by
  have hCount :
      wordCount len - i = wordCount len - (i + 1) + 1 := by
    omega
  unfold restOf
  rw [hCount, rounds, BitVec.add_assoc, ofNat_four_succ]

/- The name and the address of an `ila`. -/
theorem ila_of_loadsAddress
    (hLoads : LoadsAddress code start i a) :
    nameWords code (start + BitVec.ofNat 32 (4 * i)) =
        .ok (some (.compute .ila)) ∧
      (operand
          (analyzeWords code
            (start + BitVec.ofNat 32 (4 * i))).inputs
          0).imm = a := by
  have hDecode :
      Spu.decode (code (start + BitVec.ofNat 32 (4 * i))) =
        some (.compute .ila) :=
    hLoads.1
  constructor
  · exact nameWords_of_instrAt hLoads.1
  · have hInfo :=
      Spu.analyzeSpu_ila hDecode
        (start + BitVec.ofNat 32 (4 * i))
    rw [hLoads.2]
    exact congrArg (fun inputs => (operand inputs 0).imm)
      hInfo.1

/- One round of the loop, at an instruction that is an `ila`. -/
theorem loop_ila
    (hLoads : LoadsAddress code start i a)
    (fuel : Nat)
    (rest : List Ps3Uintptr)
    (s : BitVec 32 × BitVec 32) :
    discoverJumpTableLoop fuel segmentStart segmentLen
        (analyzeWords code) (nameWords code)
        (readSegment code segmentStart segmentLen)
        ((start + BitVec.ofNat 32 (4 * i)) :: rest) s =
      (scanTable segmentStart segmentLen
          (readSegment code segmentStart segmentLen) a fuel
          s.2 >>= fun tlen =>
        if tlen ≠ 0#32 then .ok (a, tlen)
        else
          discoverJumpTableLoop fuel segmentStart segmentLen
            (analyzeWords code) (nameWords code)
            (readSegment code segmentStart segmentLen) rest
            (a, tlen)) := by
  rcases ila_of_loadsAddress hLoads with ⟨hName, hImm⟩
  rw [discoverJumpTableLoop, hName, hImm]
  rfl

/- A quiet instruction leaves the length at zero. -/
theorem loop_quiet
    (hBlock : CodeBlock code start len)
    (hLt : i < wordCount len)
    (hQuiet : Quiet code segmentStart segmentLen start i)
    (fuel : Nat)
    (table : BitVec 32) :
    ∃ table',
      discoverJumpTableLoop (fuel + 1) segmentStart segmentLen
          (analyzeWords code) (nameWords code)
          (readSegment code segmentStart segmentLen)
          (restOf start len i) (table, 0#32) =
        discoverJumpTableLoop (fuel + 1) segmentStart
          segmentLen (analyzeWords code) (nameWords code)
          (readSegment code segmentStart segmentLen)
          (restOf start len (i + 1)) (table', 0#32) := by
  rw [restOf_eq hLt]
  by_cases hIla : instrAt code start i = some (.compute .ila)
  · have hLoads :
        LoadsAddress code start i
          ((Spu.i18 (wordAt code start i)).setWidth 32) :=
      ⟨hIla, rfl⟩
    refine
      ⟨(Spu.i18 (wordAt code start i)).setWidth 32, ?_⟩
    rw [loop_ila hLoads, hQuiet _ hLoads]
    rfl
  · rcases Option.isSome_iff_exists.mp
        (hBlock.decodes i hLt) with ⟨instr, hInstr⟩
    have hName := nameWords_of_instrAt hInstr
    have hOther : some instr ≠ some (.compute .ila) := by
      rwa [← hInstr]
    refine ⟨table, ?_⟩
    rw [discoverJumpTableLoop, hName]
    exact if_neg hOther

theorem loop_skip
    (hBlock : CodeBlock code start len)
    (fuel : Nat)
    (hLe : i ≤ wordCount len)
    (hQuiet :
      ∀ j < i, Quiet code segmentStart segmentLen start j) :
    ∃ table,
      discoverJumpTable (fuel + 1) start len segmentStart
          segmentLen (analyzeWords code) (nameWords code)
          (readSegment code segmentStart segmentLen) =
        discoverJumpTableLoop (fuel + 1) segmentStart
          segmentLen (analyzeWords code) (nameWords code)
          (readSegment code segmentStart segmentLen)
          (restOf start len i) (table, 0#32) := by
  induction i with
  | zero =>
      refine ⟨0#32, ?_⟩
      unfold discoverJumpTable
      rw [whileLt_segment start len hBlock.fits]
      simp [restOf, wordCount]
  | succ i ih =>
      rcases ih (by omega)
          (fun j hj => hQuiet j (by omega)) with
        ⟨table, hRun⟩
      rcases loop_quiet hBlock hLe (hQuiet i (by omega)) fuel
          table with
        ⟨table', hStep⟩
      exact ⟨table', hRun.trans hStep⟩

/- Without tables the search ends with a length of zero. -/
theorem run_quiet
    (hBlock : CodeBlock code start len)
    (fuel : Nat)
    (hQuiet :
      ∀ i < wordCount len,
        Quiet code segmentStart segmentLen start i) :
    ∃ table,
      discoverJumpTable (fuel + 1) start len segmentStart
          segmentLen (analyzeWords code) (nameWords code)
          (readSegment code segmentStart segmentLen) =
        .ok (table, 0#32) := by
  rcases loop_skip hBlock fuel (Nat.le_refl _) hQuiet with
    ⟨table, hRun⟩
  refine ⟨table, hRun.trans ?_⟩
  unfold restOf
  rw [Nat.sub_self]
  rfl

/- More rounds do not change the result of the search. -/
theorem discoverJumpTableLoop_mono
    {analyze : AnalyzeSpu}
    {name : Name}
    {read : Read}
    {fuel : Nat}
    {ips : List Ps3Uintptr}
    {s t : BitVec 32 × BitVec 32}
    (hLoop :
      discoverJumpTableLoop fuel segmentStart segmentLen
          analyze name read ips s =
        .ok t)
    (more : Nat) :
    discoverJumpTableLoop (fuel + more) segmentStart
        segmentLen analyze name read ips s =
      .ok t := by
  induction ips generalizing s with
  | nil => exact hLoop
  | cons ip rest ih =>
      rw [discoverJumpTableLoop] at hLoop ⊢
      rcases Fallible.bind_eq_ok.mp hLoop with
        ⟨n, hName, hRest⟩
      refine Fallible.bind_eq_ok.mpr ⟨n, hName, ?_⟩
      split at hRest
      case isFalse hOther =>
        rw [if_neg hOther]
        exact ih hRest
      case isTrue hIla =>
        rw [if_pos hIla]
        rcases Fallible.bind_eq_ok.mp hRest with
          ⟨tlen, hScan, hEnd⟩
        refine
          Fallible.bind_eq_ok.mpr
            ⟨tlen, scanTable_mono hScan more, ?_⟩
        split at hEnd
        case isTrue hFound =>
          rw [if_pos hFound]
          exact hEnd
        case isFalse hNone =>
          rw [if_neg hNone]
          exact ih hEnd

/- No address has an entry, and no test goes wrong there. -/
theorem quiet_of_right
    (hFits :
      segmentStart.toNat + segmentLen.toNat < 2 ^ 32)
    {i : Nat}
    (hRight :
      ∀ a, LoadsAddress code start i a →
        ¬ Entry code segmentStart segmentLen a.toNat ∧
          ¬ Slips code segmentStart segmentLen a.toNat) :
    Quiet code segmentStart segmentLen start i := by
  intro a hLoads fuel
  rcases hRight a hLoads with ⟨hStop, hTests⟩
  exact @scanTable_stop code segmentStart segmentLen hFits a
    0 hStop hTests fuel

/- A segment whose end does not fit has no word in reach. -/
theorem quiet_of_wraps
    (hWraps :
      2 ^ 32 ≤ segmentStart.toNat + segmentLen.toNat)
    (i : Nat) :
    Quiet code segmentStart segmentLen start i := by
  intro a hLoads fuel
  have hSmall := loadsAddress_lt hLoads
  have hNot :
      ¬ subset (a + 0#32) 4#32 segmentStart segmentLen =
        true := by
    rw [BitVec.add_zero]
    simp only [subset, Bool.and_eq_true, decide_eq_true_eq,
      not_and, Nat.not_le]
    intro hLower
    have hEnd :
        (segmentStart + segmentLen).toNat =
          segmentStart.toNat + segmentLen.toNat -
            2 ^ 32 := by
      have hLen := segmentLen.isLt
      have hStart := segmentStart.isLt
      rw [BitVec.toNat_add]
      omega
    have hNext : (a + 4#32).toNat = a.toNat + 4 :=
      toNat_add_ofNat _ 4 (by omega)
    have hLen := segmentLen.isLt
    omega
  rw [scanTable, if_neg hNot]
  rfl

/- Nothing is reported if no instruction has a table. -/
theorem findsTable_of_quiet
    (hBlock : CodeBlock code start len)
    (hQuiet :
      ∀ i < wordCount len,
        Quiet code segmentStart segmentLen start i) :
    FindsTable code segmentStart segmentLen start len := by
  rcases run_quiet hBlock 0 hQuiet with ⟨table, hRun⟩
  refine ⟨1, table, 0#32, hRun, ?_, ?_⟩
  · intro hNe
    exact absurd rfl hNe
  · rintro i hLt a hLoads ⟨fuel, found, hScan, hFound⟩
    have hMore := scanTable_mono hScan 1
    rw [hQuiet i hLt a hLoads fuel] at hMore
    exact absurd (Except.ok.inj hMore).symm hFound

/- The table of the first instruction that has one. -/
theorem findsTable_of_table
    (hBlock : CodeBlock code start len)
    (hFits :
      segmentStart.toNat + segmentLen.toNat < 2 ^ 32)
    {i n : Nat}
    (hLt : i < wordCount len)
    (hLoads : LoadsAddress code start i a)
    (hTable :
      IsTable code segmentStart segmentLen a.toNat n)
    (hPos : 0 < n)
    (hTests :
      ¬ Slips code segmentStart segmentLen (a.toNat + 4 * n))
    (hQuiet :
      ∀ j < i, Quiet code segmentStart segmentLen start j) :
    FindsTable code segmentStart segmentLen start len := by
  rcases loop_skip hBlock n (Nat.le_of_lt hLt) hQuiet with
    ⟨table, hRun⟩
  have hScan := scanTable_table hFits hTable hTests 0
  have hLast := (hTable.1 (n - 1) (by omega)).1
  unfold InSegment at hLast
  have hLength :
      (BitVec.ofNat 32 (4 * n)).toNat = 4 * n := by
    rw [BitVec.toNat_ofNat]
    omega
  have hNe : BitVec.ofNat 32 (4 * n) ≠ 0#32 := by
    intro hZero
    rw [hZero] at hLength
    change 0 = 4 * n at hLength
    omega
  refine ⟨n + 1, a, BitVec.ofNat 32 (4 * n), ?_, ?_, ?_⟩
  · rw [hRun, restOf_eq hLt, loop_ila hLoads,
      Nat.add_comm n 1, ← Nat.zero_add 1, hScan]
    exact if_pos hNe
  · intro _
    exact ⟨i, n, hLt, hLoads, hLength, hTable⟩
  · intro _ _ _ _ _
    exact hNe

theorem quiet_of_condition
    (hFits :
      segmentStart.toNat + segmentLen.toNat < 2 ^ 32)
    (hCondition :
      TableCondition code segmentStart segmentLen start len)
    {i : Nat}
    (hLt : i < wordCount len)
    (hNone :
      ∀ j ≤ i, ∀ b, LoadsAddress code start j b →
        ¬ Entry code segmentStart segmentLen b.toNat) :
    Quiet code segmentStart segmentLen start i := by
  apply quiet_of_right hFits
  intro a hLoads
  have hStop := hNone i (Nat.le_refl i) a hLoads
  refine ⟨hStop, ?_⟩
  exact hCondition hFits i hLt a 0 hLoads
    (fun j hj => hNone j (Nat.le_of_lt hj))
    ⟨fun k hk => absurd hk (Nat.not_lt_zero k), hStop⟩

/- The search finds a table whenever all tests are right. -/
theorem findsTable_of_condition
    (hBlock : CodeBlock code start len)
    (hCondition :
      TableCondition code segmentStart segmentLen start len) :
    FindsTable code segmentStart segmentLen start len := by
  by_cases hFits :
      segmentStart.toNat + segmentLen.toNat < 2 ^ 32
  · by_cases hSome :
        ∃ i, i < wordCount len ∧
          ∃ a, LoadsAddress code start i a ∧
            Entry code segmentStart segmentLen a.toNat
    · classical
      rcases Nat.find_spec hSome with
        ⟨hLt, a, hLoads, hEntry⟩
      have hEarlier :
          ∀ j < Nat.find hSome,
            ∀ b, LoadsAddress code start j b →
              ¬ Entry code segmentStart segmentLen
                b.toNat := by
        intro j hj b hLoadsB hEntryB
        exact Nat.find_min hSome hj
          ⟨Nat.lt_trans hj hLt, b, hLoadsB, hEntryB⟩
      rcases @exists_isTable code segmentStart segmentLen
          a.toNat with ⟨n, hTable⟩
      have hPos : 0 < n := by
        apply Nat.pos_of_ne_zero
        rintro rfl
        exact hTable.2 hEntry
      apply findsTable_of_table hBlock hFits hLt hLoads
        hTable hPos
      · exact
          hCondition hFits _ hLt a n hLoads hEarlier hTable
      · intro j hj
        exact
          quiet_of_condition hFits hCondition
            (Nat.lt_trans hj hLt)
            (fun k hk => hEarlier k (by omega))
    · apply findsTable_of_quiet hBlock
      intro i hLt
      apply quiet_of_condition hFits hCondition hLt
      intro j hj b hLoads hEntry
      exact hSome
        ⟨j, Nat.lt_of_le_of_lt hj hLt, b, hLoads, hEntry⟩
  · exact
      findsTable_of_quiet hBlock
        (fun i _ => quiet_of_wraps (by omega) i)

/- A test that goes wrong spoils the search. -/
theorem condition_of_findsTable
    (hBlock : CodeBlock code start len)
    (hFinds :
      FindsTable code segmentStart segmentLen start len) :
    TableCondition code segmentStart segmentLen start len := by
  intro hFits i
  induction i using Nat.strongRecOn with
  | ind i ih =>
      intro hLt a n hLoads hEarlier hTable hSlips
      have hQuiet :
          ∀ j < i,
            Quiet code segmentStart segmentLen start j := by
        intro j hj
        apply quiet_of_right hFits
        intro b hLoadsB
        have hStop := hEarlier j hj b hLoadsB
        refine ⟨hStop, ?_⟩
        exact ih j hj (Nat.lt_trans hj hLt) b 0 hLoadsB
          (fun k hk => hEarlier k (Nat.lt_trans hk hj))
          ⟨fun k hk => absurd hk (Nat.not_lt_zero k), hStop⟩
      rcases hFinds with
        ⟨fuel, table, tlen, hRun, hReported, -⟩
      have hMore :
          discoverJumpTable (fuel + 1) start len segmentStart
              segmentLen (analyzeWords code) (nameWords code)
              (readSegment code segmentStart segmentLen) =
            .ok (table, tlen) :=
        discoverJumpTableLoop_mono hRun 1
      rcases loop_skip hBlock fuel (Nat.le_of_lt hLt) hQuiet
        with ⟨table', hSkip⟩
      rw [hSkip, restOf_eq hLt, loop_ila hLoads] at hMore
      rcases Fallible.bind_eq_ok.mp hMore with
        ⟨found, hScan, hRest⟩
      rcases scanTable_slip hFits (loadsAddress_lt hLoads)
          hTable hSlips hScan with
        ⟨m, hLonger, hLength⟩
      have hNe : found ≠ 0#32 := by
        rintro rfl
        change 0 = 4 * m at hLength
        omega
      rw [if_pos hNe] at hRest
      cases hRest
      rcases hReported hNe with
        ⟨i', n', -, -, hLength', hTable'⟩
      have hSame : n' = m := by omega
      subst hSame
      exact hTable.2 (hTable'.1 n hLonger)

/-
  The search is right when no word of a table, and none that
  ends it, lies at the end of the address space, where the
  bounds that are tested wrap around.
-/
theorem findsTable_iff
    (code : Ps3Uintptr → BitVec 32)
    (segmentStart segmentLen start len : BitVec 32)
    (hBlock : CodeBlock code start len) :
    FindsTable code segmentStart segmentLen start len ↔
      TableCondition code segmentStart segmentLen start len :=
  ⟨condition_of_findsTable hBlock,
    findsTable_of_condition hBlock⟩

/-
  ila r55,0x3168 and bi r2, before a table of the address of
  the first of them, the address -4, and a number.
-/
def tableWords : List (BitVec 32) :=
  [0x4218b437, 0x35000100, 0x3160, 0xfffffffc, 1]

theorem codeBlock_tableWords :
    CodeBlock (listing tableWords) 0x3160#32 8#32 where
  aligned := by decide
  fits := by decide
  decodes := by decide

theorem findsTable_iff_tableWords :
    FindsTable (listing tableWords) 0x3160#32 12#32 0x3160#32
        8#32 ↔
      TableCondition (listing tableWords) 0x3160#32 12#32
        0x3160#32 8#32 :=
  findsTable_iff _ _ _ _ _ codeBlock_tableWords

/- The address -4 is taken for one in the segment. -/
theorem tableWords_not_findsTable :
    ¬ ∀ (code : Ps3Uintptr → BitVec 32)
        (segmentStart segmentLen start len : BitVec 32),
        CodeBlock code start len →
          FindsTable code segmentStart segmentLen start
            len := by
  intro hAll
  have hCondition :=
    condition_of_findsTable codeBlock_tableWords
      (hAll _ 0x3160#32 20#32 _ _ codeBlock_tableWords)
  have hTable :
      IsTable (listing tableWords) 0x3160#32 20#32
        (0x3168#32).toNat 1 := by
    unfold IsTable
    decide
  have hSlips :
      Slips (listing tableWords) 0x3160#32 20#32
        ((0x3168#32).toNat + 4 * 1) := by
    unfold Slips
    decide
  exact hCondition (by decide) 0 (by decide) 0x3168#32 1
    ⟨by decide, by decide⟩
    (fun j hj => absurd hj (Nat.not_lt_zero j)) hTable hSlips

end Loop

end Rewriter

end Ps3emu
