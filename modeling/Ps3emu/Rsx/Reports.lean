import Ps3emu.Library.Transition
import Ps3emu.Memory.GuestBytes
import Ps3emu.Rsx.OffsetTable

/-
  The reports that the RSX writes to memory: sixteen bytes
  each, with a time stamp, a value and padding.

  Key definitions include:
    * `Rsx`, `Command`, `step`
    * `Latest`, `Latest.after`
    * `Holds`, `KeepsReports`
    * `Ready`

  Key theorems include:
    * `Written.of_getReport`
    * `Holds.exists_step`, `ready_of_holds`
    * `keepsReports_iff`
-/

------------------------------------------------------------
-- Commands
------------------------------------------------------------

namespace Ps3emu

namespace Reports

inductive RsxOperationMode where
  | Run | RunCapture | Replay
deriving DecidableEq

structure Rsx where
  mode : RsxOperationMode
  reportLocation : MemoryLocation
  mm : MainMemory

def CELL_GCM_CONTEXT_DMA_REPORT_LOCATION_MAIN : BitVec 32 :=
  0xbad68000

/- The indices that are asserted. -/
def reportCount : MemoryLocation → BitVec 32
  | .Local => 2048
  | .Main => 1024 * 1024

def getReportDataAddressLocation
    (table : OffsetTable)
    (index : BitVec 32)
    (location : MemoryLocation) :
    Except TableFault Ps3Uintptr :=
  if index < reportCount location then
    rsxOffsetToEa table location (0x0e000000 + 16 * index)
  else .error .assertion

def locationOf (handle : BitVec 32) : MemoryLocation :=
  if handle = CELL_GCM_CONTEXT_DMA_REPORT_LOCATION_MAIN then
    .Main
  else .Local

/- `Rsx::ContextDmaReport`. -/
def contextDmaReport (s : Rsx) (handle : BitVec 32) : Rsx :=
  { s with reportLocation := locationOf handle }

/-
  `Rsx::GetReport`, at a time.  The type of the report is not
  used: there are no counters of pixels.
-/
def getReport
    (table : OffsetTable)
    (granule : Option GranuleId)
    (s : Rsx)
    (_type : BitVec 8)
    (offset : BitVec 32)
    (timeBase : BitVec 64) : Option Rsx :=
  if s.mode = .Replay then some s
  else
    (getReportDataAddressLocation table (offset / 16)
        s.reportLocation).toOption.bind (fun ea =>
      (s.mm.store .eight ea timeBase granule).bind (fun mm =>
        (mm.store .eight (ea + 8 + 4) (0 : BitVec 64)
            granule).map
          (fun mm => { s with mm := mm })))

inductive Command where
  | contextDmaReport (handle : BitVec 32)
  | getReport
      (type : BitVec 8)
      (offset : BitVec 32)
      (timeBase : BitVec 64)

def step
    (table : OffsetTable)
    (granule : Option GranuleId)
    (s : Rsx) : Command → Option Rsx
  | .contextDmaReport handle => some (contextDmaReport s handle)
  | .getReport type offset timeBase =>
      getReport table granule s type offset timeBase

------------------------------------------------------------
-- Slots and Their Addresses
------------------------------------------------------------

/- The address of the report with some index. -/
def IsSlot (table : OffsetTable) (a : Ps3Uintptr) : Prop :=
  ∃ index location,
    getReportDataAddressLocation table index location = .ok a

/- A time stamp, a value of four bytes and four of padding. -/
def reportBytes (timer : BitVec 64) : List Byte :=
  @Bytes.bigEndian 8 timer ++ List.replicate 8 0

/- The slot at an address holds a report. -/
def HoldsReport
    (m : MainMemory)
    (a : Ps3Uintptr)
    (timer : BitVec 64) : Prop :=
  ∀ i < 16,
    m.byte (a + BitVec.ofNat 32 i) =
      some ((reportBytes timer).getD i 0)

/- Where reports go, and the last time stamp of each slot. -/
structure Latest where
  location : MemoryLocation
  timer : Ps3Uintptr → Option (BitVec 64)

namespace Latest

def start (location : MemoryLocation) : Latest where
  location := location
  timer := fun _ => none

def step (table : OffsetTable) (l : Latest) : Command → Latest
  | .contextDmaReport handle =>
      { l with location := locationOf handle }
  | .getReport _ offset timeBase =>
      match
        getReportDataAddressLocation table (offset / 16)
          l.location with
      | .ok a =>
          { l with
            timer := Function.update l.timer a (some timeBase) }
      | .error _ => l

def after
    (table : OffsetTable)
    (location : MemoryLocation)
    (commands : List Command) : Latest :=
  commands.foldl (step table) (start location)

end Latest

/-
  A slot that a command has targeted holds the report of the
  last one.  The others are as they were at the start.
-/
structure Holds
    (table : OffsetTable)
    (start : MainMemory)
    (l : Latest)
    (s : Rsx) : Prop where
  location : s.reportLocation = l.location
  targeted :
    ∀ a timer, IsSlot table a → l.timer a = some timer →
      HoldsReport s.mm a timer
  others :
    ∀ a, IsSlot table a → l.timer a = none →
      ∀ i < 16,
        s.mm.byte (a + BitVec.ofNat 32 i) =
          start.byte (a + BitVec.ofNat 32 i)

/-
  No command fails, and the slots are as they should be after
  every one, so that it has changed no slot but its own.
-/
def KeepsReports
    (table : OffsetTable)
    (granule : Option GranuleId)
    (start : Rsx)
    (commands : List Command) : Prop :=
  ∀ before rest, commands = before ++ rest →
    ∃ s,
      Transition.exec (step table granule) start before =
          some s ∧
        Holds table start.mm
          (Latest.after table start.reportLocation before) s

/-
  The slot lies in memory and its value is zero already, and
  so are the first bytes of the slot that comes after it in
  host memory.  A replay writes nothing: the report is there.
-/
def Ready
    (table : OffsetTable)
    (s : Rsx) : Command → Prop
  | .contextDmaReport _ => True
  | .getReport _ offset timeBase =>
      let slot :=
        getReportDataAddressLocation table (offset / 16)
          s.reportLocation
      if s.mode = .Replay then
        ∀ a, slot = .ok a → HoldsReport s.mm a timeBase
      else
        ∃ a p,
          slot = .ok a ∧ s.mm.getMemoryPointer a = some p ∧
            (∀ i < 4,
              s.mm.byte (a + BitVec.ofNat 32 (8 + i)) =
                some 0) ∧
            (IsSlot table (a + 16) →
              s.mm.getMemoryPointer (a + 16) =
                  some (p.add 16) →
                ∀ i < 4,
                  s.mm.byte (a + 16 + BitVec.ofNat 32 i) =
                    some 0)

/- Every command is ready in the state that it finds. -/
def ReadyThroughout
    (table : OffsetTable)
    (granule : Option GranuleId)
    (start : Rsx)
    (commands : List Command) : Prop :=
  ∀ before c rest, commands = before ++ c :: rest →
    ∀ s,
      Transition.exec (step table granule) start before =
          some s →
        Ready table s c

variable {table : OffsetTable} {m m' : MainMemory} {a b : Ps3Uintptr}
variable {p : HostPointer}

theorem IsSlot.aligned (hSlot : IsSlot table a) :
    a.toNat % 16 = 0 := by
  rcases hSlot with ⟨index, location, hAddress⟩
  have hOffset :
      (0x0e000000 + 16 * index : BitVec 32).toNat % 16 = 0 := by
    bv_omega
  rw [getReportDataAddressLocation] at hAddress
  generalize (0x0e000000 + 16 * index : BitVec 32) = offset
    at hOffset hAddress
  split at hAddress
  case isFalse => cases hAddress
  case isTrue =>
    cases location with
    | Local =>
        obtain rfl := Except.ok.inj hAddress
        have hBase : rsxFbBaseAddr.toNat = 0xc0000000 := rfl
        rw [BitVec.toNat_add, hBase]
        omega
    | Main =>
        rcases Fallible.map_eq_ok.mp hAddress with
          ⟨page, -, rfl⟩
        rw [OffsetTable.toNat_joinPage]
        omega

variable {i : Nat}

/- A slot lies on one page. -/
theorem getMemoryPointer_slot
    (m : MainMemory)
    (hAligned : a.toNat % 16 = 0)
    (hI : i < 16) :
    m.getMemoryPointer (a + BitVec.ofNat 32 i) =
      (m.getMemoryPointer a).map (fun p => p.add i) := by
  apply m.getMemoryPointer_add_eq
  rw [VirtualAddress.offset_eq, defaultMainMemoryPageSize_eq]
  omega

/- The bytes of another slot are sixteen bytes away or more. -/
theorem distance_slot
    (hA : a.toNat % 16 = 0)
    (hB : b.toNat % 16 = 0)
    (hNe : b ≠ a)
    (hI : i < 16) :
    16 ≤ distance a (b + BitVec.ofNat 32 i) ∧
      (distance a (b + BitVec.ofNat 32 i) < 20 →
        b = a + 16 ∧ i < 4) := by
  have hALt := a.isLt
  have hBLt := b.isLt
  have hToNat : a.toNat ≠ b.toNat := by
    intro hEq
    exact hNe (BitVec.eq_of_toNat_eq hEq.symm)
  have hDistance :
      distance a (b + BitVec.ofNat 32 i) =
        (b - a).toNat + i := by
    rw [distance, BitVec.toNat_sub, BitVec.toNat_add,
      BitVec.toNat_ofNat, BitVec.toNat_sub]
    omega
  rw [hDistance, BitVec.toNat_sub]
  refine ⟨by omega, fun hNear => ⟨?_, by omega⟩⟩
  have hSixteen : (16 : BitVec 32).toNat = 16 := rfl
  apply BitVec.eq_of_toNat_eq
  rw [BitVec.toNat_add, hSixteen]
  omega

------------------------------------------------------------
-- Two Stores
------------------------------------------------------------

/-
  The stores write the time stamp and the padding of a slot,
  and go on into the slot that comes after it in host memory.
-/
structure Written
    (m m' : MainMemory)
    (a : Ps3Uintptr)
    (p : HostPointer)
    (timer : BitVec 64) : Prop where
  timer :
    ∀ i < 8,
      m'.byte (a + BitVec.ofNat 32 i) =
        some ((reportBytes timer).getD i 0)
  value :
    ∀ i < 4,
      m'.byte (a + BitVec.ofNat 32 (8 + i)) =
        m.byte (a + BitVec.ofNat 32 (8 + i))
  padding :
    ∀ i < 4, m'.byte (a + BitVec.ofNat 32 (12 + i)) = some 0
  next :
    m.getMemoryPointer (a + 16) = some (p.add 16) →
      ∀ i < 4,
        m'.byte (a + 16 + BitVec.ofNat 32 i) = some 0
  others :
    ∀ b, b.toNat % 16 = 0 → b ≠ a →
      ∀ i < 16,
        (b = a + 16 → i < 4 →
            m.getMemoryPointer (a + 16) ≠
              some (p.add 16)) →
          m'.byte (b + BitVec.ofNat 32 i) =
            m.byte (b + BitVec.ofNat 32 i)

theorem getD_timer
    (timer : BitVec 64)
    (hI : i < 8) :
    (reportBytes timer).getD i 0 =
      (@Bytes.bigEndian 8 timer).getD i 0 := by
  rw [reportBytes, List.getD_append]
  rw [Bytes.length_bigEndian]
  exact hI

theorem getD_rest
    (timer : BitVec 64)
    (hI : 8 ≤ i) :
    (reportBytes timer).getD i 0 = 0 := by
  rw [reportBytes, List.getD_append_right]
  · rw [List.getD_eq_getElem?_getD]
    exact List.getElem?_getD_replicate_default_eq _ _ _
  · rw [Bytes.length_bigEndian]
    exact hI

/- Host memory after the two stores. -/
def written
    (m : MainMemory)
    (p : HostPointer)
    (timer : BitVec 64) : MainMemory :=
  (m.write p (@Bytes.bigEndian 8 timer)).write (p.add 12)
    (List.replicate 8 0)

/- An address whose pointer the second store reaches. -/
theorem byte_written_zero
    {x : Ps3Uintptr}
    (timer : BitVec 64)
    (hI : i < 8)
    (hX : m.getMemoryPointer x = some ((p.add 12).add i)) :
    (written m p timer).byte x = some 0 := by
  have hReplicate :
      (List.replicate 8 (0 : Byte)).getD i 0 = 0 := by
    rw [List.getD_eq_getElem?_getD]
    exact List.getElem?_getD_replicate_default_eq _ _ _
  rw [written, (m.write p _).byte_write_of_pointer _ i hX,
    hReplicate]
  exact hI

theorem byte_written_of_far
    {x : Ps3Uintptr}
    (timer : BitVec 64)
    (hp : m.getMemoryPointer a = some p)
    (hq : m.getMemoryPointer (a + 12) = some (p.add 12))
    (hFirst : ¬ distance a x < 8)
    (hSecond : ¬ distance (a + 12) x < 8) :
    (written m p timer).byte x = m.byte x := by
  rw [written, (m.write p _).byte_write_of_far _ hq x,
    m.byte_write_of_far _ hp x]
  · exact hFirst
  · exact hSecond

theorem byte_written_timer
    (hAligned : a.toNat % 16 = 0)
    (hp : m.getMemoryPointer a = some p)
    (hq : m.getMemoryPointer (a + 12) = some (p.add 12))
    (timer : BitVec 64)
    (hI : i < 8) :
    (written m p timer).byte (a + BitVec.ofNat 32 i) =
      some ((reportBytes timer).getD i 0) := by
  have hFar :
      ¬ distance (a + 12) (a + BitVec.ofNat 32 i) < 8 := by
    rw [distance]
    bv_omega
  have hPointer :
      m.getMemoryPointer (a + BitVec.ofNat 32 i) =
        some (p.add i) := by
    rw [getMemoryPointer_slot m hAligned (by omega), hp,
      Option.map_some]
  rw [written, (m.write p _).byte_write_of_far _ hq,
    m.byte_write_of_pointer _ i hPointer, getD_timer timer hI]
  · rw [Bytes.length_bigEndian]
    exact hI
  · exact hFar

/- The next slot, when it does not come next in host memory. -/
theorem byte_written_apart
    (hB : (a + 16).toNat % 16 = 0)
    (hp : m.getMemoryPointer a = some p)
    (hApart : m.getMemoryPointer (a + 16) ≠ some (p.add 16))
    (timer : BitVec 64)
    (hI : i < 16) :
    (written m p timer).byte (a + 16 + BitVec.ofNat 32 i) =
      m.byte (a + 16 + BitVec.ofNat 32 i) := by
  have hSlot := getMemoryPointer_slot m hB hI
  have hALt := m.toNat_lt_of_pointer hp
  cases hQ : m.getMemoryPointer (a + 16) with
  | none =>
      rw [hQ, Option.map_none] at hSlot
      rw [written, MainMemory.byte, MainMemory.byte,
        MainMemory.getMemoryPointer_write,
        MainMemory.getMemoryPointer_write, hSlot]
      rfl
  | some q =>
      rw [hQ, Option.map_some] at hSlot
      have hBlock : q.block ≠ p.block := by
        intro hBlock
        apply hApart
        have hLinear :=
          m.getMemoryPointer_linear hp hQ hBlock.symm
        have hNat : (a + 16).toNat = a.toNat + 16 := by
          bv_omega
        have hOffset : q.offset = p.offset + 16 := by omega
        rw [hQ, HostPointer.add, ← hBlock, ← hOffset]
      have hSecond : (q.add i).block ≠ (p.add 12).block :=
        hBlock
      rw [written,
        (m.write p _).byte_write_of_block _ hSlot hSecond,
        m.byte_write_of_block _ hSlot hBlock]

theorem Written.of_writes
    (hAligned : a.toNat % 16 = 0)
    (hp : m.getMemoryPointer a = some p)
    (timer : BitVec 64) :
    Written m (written m p timer) a p timer := by
  have hALt := m.toNat_lt_of_pointer hp
  have hPointer :
      ∀ i < 16,
        m.getMemoryPointer (a + BitVec.ofNat 32 i) =
          some (p.add i) := by
    intro i hI
    rw [getMemoryPointer_slot m hAligned hI, hp,
      Option.map_some]
  have hq := hPointer 12 (by omega)
  refine ⟨?_, ?_, ?_, ?_, ?_⟩
  · intro i hI
    exact byte_written_timer hAligned hp hq timer hI
  · intro i hI
    apply byte_written_of_far timer hp hq
    · rw [distance_add a (8 + i) (by omega)]
      omega
    · rw [distance]
      bv_omega
  · intro i hI
    apply byte_written_zero timer (Nat.lt_of_lt_of_le hI _)
    · rw [hPointer (12 + i) (by omega)]
      simp only [HostPointer.add, Nat.add_assoc]
    · decide
  · intro hNext i hI
    have hAligned' : (a + 16).toNat % 16 = 0 := by
      bv_omega
    have hFour : 4 + i < 8 := by omega
    apply byte_written_zero timer hFour
    rw [getMemoryPointer_slot m hAligned' (by omega), hNext,
      Option.map_some]
    simp only [HostPointer.add, Nat.add_assoc]
    rw [← Nat.add_assoc 12 4 i]
  · intro b hB hNe i hI hApart
    rcases distance_slot hAligned hB hNe hI with
      ⟨hFar, hNear⟩
    by_cases hClose :
        distance a (b + BitVec.ofNat 32 i) < 20
    · rcases hNear hClose with ⟨rfl, hLow⟩
      exact
        byte_written_apart hB hp (hApart rfl hLow) timer hI
    · apply byte_written_of_far timer hp hq
      · omega
      · unfold distance at hClose ⊢
        generalize b + BitVec.ofNat 32 i = x at hClose ⊢
        bv_omega

/- Both stores are made if the slot is in memory. -/
theorem Written.of_stores
    (granule : Option GranuleId)
    (hAligned : a.toNat % 16 = 0)
    (hp : m.getMemoryPointer a = some p)
    (timer : BitVec 64) :
    ∃ u m',
      m.store .eight a timer granule = some u ∧
        u.store .eight (a + 8 + 4) (0 : BitVec 64) granule =
            some m' ∧
          m'.pages = m.pages ∧ Written m m' a p timer := by
  have hSecond : a + 8 + 4 = a + BitVec.ofNat 32 12 :=
    BitVec.add_assoc a 8 4
  rcases m.store_of_pointer .eight timer granule hp with
    ⟨u, hStore, hPages, hHost⟩
  have hQ :
      u.getMemoryPointer (a + 8 + 4) = some (p.add 12) := by
    have hSlot := getMemoryPointer_slot m hAligned (i := 12)
    rw [MainMemory.getMemoryPointer, hPages, hSecond]
    refine (hSlot (by omega)).trans ?_
    rw [hp, Option.map_some]
  rcases u.store_of_pointer .eight (0 : BitVec 64) granule hQ
    with ⟨m', hStore', hPages', hHost'⟩
  have hSame : m'.pages = (written m p timer).pages :=
    hPages'.trans hPages
  have hByte :
      ∀ x, m'.byte x = (written m p timer).byte x := by
    apply MainMemory.byte_congr hSame
    rw [hHost', hHost]
    rfl
  have hWritten := Written.of_writes hAligned hp timer
  refine
    ⟨u, m', hStore, hStore', hPages'.trans hPages,
      ?_, ?_, ?_, ?_, ?_⟩
  · intro i hI
    rw [hByte, hWritten.timer i hI]
  · intro i hI
    rw [hByte, hWritten.value i hI]
  · intro i hI
    rw [hByte, hWritten.padding i hI]
  · intro hNext i hI
    rw [hByte, hWritten.next hNext i hI]
  · intro b hB hNe i hI hApart
    rw [hByte, hWritten.others b hB hNe i hI hApart]

variable {timer : BitVec 64}

/- The slot holds the report if its value was zero before. -/
theorem Written.holdsReport_iff
    (hWritten : Written m m' a p timer) :
    HoldsReport m' a timer ↔
      ∀ i < 4,
        m.byte (a + BitVec.ofNat 32 (8 + i)) = some 0 := by
  constructor
  · intro hReport i hI
    rw [← hWritten.value i hI, hReport _ (by omega),
      getD_rest timer (by omega)]
  · intro hValue i hI
    by_cases hTimer : i < 8
    · exact hWritten.timer i hTimer
    · rw [getD_rest timer (by omega)]
      by_cases hLow : i < 12
      · have hByte := hWritten.value (i - 8) (by omega)
        rw [hValue (i - 8) (by omega),
          Nat.add_sub_cancel' (by omega)] at hByte
        exact hByte
      · have hByte := hWritten.padding (i - 12) (by omega)
        rw [Nat.add_sub_cancel' (by omega)] at hByte
        exact hByte

/- A report needs its slot to be in memory. -/
theorem HoldsReport.pointer
    (hReport : HoldsReport m a timer) :
    ∃ p, m.getMemoryPointer a = some p := by
  have hByte := hReport 0 (by omega)
  have hZero : a + BitVec.ofNat 32 0 = a := BitVec.add_zero a
  rw [hZero] at hByte
  rcases Option.map_eq_some_iff.mp hByte with ⟨p, hp, -⟩
  exact ⟨p, hp⟩

------------------------------------------------------------
-- Steps
------------------------------------------------------------

variable {granule : Option GranuleId} {start : MainMemory} {l : Latest}
variable {s t : Rsx}

/- The steps of a report that is written. -/
theorem getReport_eq_some
    (type : BitVec 8)
    {offset : BitVec 32}
    {timeBase : BitVec 64}
    (hMode : s.mode ≠ .Replay) :
    getReport table granule s type offset timeBase = some t ↔
      ∃ a u m',
        getReportDataAddressLocation table (offset / 16)
              s.reportLocation =
            .ok a ∧
          s.mm.store .eight a timeBase granule = some u ∧
            u.store .eight (a + 8 + 4) (0 : BitVec 64)
                granule =
                some m' ∧
              { s with mm := m' } = t := by
  rw [getReport, if_neg hMode]
  cases getReportDataAddressLocation table (offset / 16)
    s.reportLocation with
  | error fault =>
      constructor
      · intro hStep
        cases hStep
      · rintro ⟨a, u, m', hSlot, -⟩
        cases hSlot
  | ok a =>
      change
        (s.mm.store .eight a timeBase granule).bind _ = _ ↔ _
      constructor
      · intro hStep
        rcases Option.bind_eq_some_iff.mp hStep with
          ⟨u, hFirst, hRest⟩
        rcases Option.map_eq_some_iff.mp hRest with
          ⟨m', hSecond, rfl⟩
        exact ⟨a, u, m', rfl, hFirst, hSecond, rfl⟩
      · rintro ⟨b, u, m', hSlot, hFirst, hSecond, rfl⟩
        obtain rfl := Except.ok.inj hSlot
        refine Option.bind_eq_some_iff.mpr ⟨u, hFirst, ?_⟩
        exact Option.map_eq_some_iff.mpr ⟨m', hSecond, rfl⟩

/- A report that is the only slot to change. -/
theorem Holds.report
    {a : Ps3Uintptr}
    {m' : MainMemory}
    (hHolds : Holds table start l s)
    (hReport : HoldsReport m' a timer)
    (hOthers :
      ∀ b, IsSlot table b → b ≠ a →
        ∀ i < 16,
          m'.byte (b + BitVec.ofNat 32 i) =
            s.mm.byte (b + BitVec.ofNat 32 i)) :
    Holds table start
      { l with timer := Function.update l.timer a (some timer) }
      { s with mm := m' } := by
  refine ⟨hHolds.location, ?_, ?_⟩
  · intro b timer' hSlot hTimer
    dsimp only at hTimer
    by_cases hSame : b = a
    · rw [hSame, Function.update_self] at hTimer
      rw [hSame, ← Option.some.inj hTimer]
      exact hReport
    · rw [Function.update_of_ne hSame] at hTimer
      intro i hI
      rw [hOthers b hSlot hSame i hI]
      exact hHolds.targeted b timer' hSlot hTimer i hI
  · intro b hSlot hTimer i hI
    dsimp only at hTimer
    by_cases hSame : b = a
    · rw [hSame, Function.update_self] at hTimer
      cases hTimer
    · rw [Function.update_of_ne hSame] at hTimer
      rw [hOthers b hSlot hSame i hI]
      exact hHolds.others b hSlot hTimer i hI

/- A slot that a step does not target keeps its bytes. -/
theorem Holds.byte_eq
    {l' : Latest}
    {b : Ps3Uintptr}
    (hBefore : Holds table start l s)
    (hAfter : Holds table start l' t)
    (hSlot : IsSlot table b)
    (hTimer : l'.timer b = l.timer b)
    (hI : i < 16) :
    t.mm.byte (b + BitVec.ofNat 32 i) =
      s.mm.byte (b + BitVec.ofNat 32 i) := by
  cases hLast : l.timer b with
  | none =>
      rw [hAfter.others b hSlot (hTimer.trans hLast) i hI,
        hBefore.others b hSlot hLast i hI]
  | some timer =>
      rw [hAfter.targeted b timer hSlot (hTimer.trans hLast)
          i hI,
        hBefore.targeted b timer hSlot hLast i hI]

theorem Latest.step_getReport
    {type : BitVec 8}
    {offset : BitVec 32}
    {timeBase : BitVec 64}
    {a : Ps3Uintptr}
    (hSlot :
      getReportDataAddressLocation table (offset / 16)
          l.location =
        .ok a) :
    l.step table (.getReport type offset timeBase) =
      { l with
        timer := Function.update l.timer a (some timeBase) } := by
  rw [Latest.step, hSlot]

/- A command that is ready does not fail. -/
theorem Holds.exists_step
    {c : Command}
    (hHolds : Holds table start l s)
    (hReady : Ready table s c) :
    ∃ t,
      step table granule s c = some t ∧
        Holds table start (l.step table c) t := by
  cases c with
  | contextDmaReport handle =>
      exact ⟨_, rfl, rfl, hHolds.targeted, hHolds.others⟩
  | getReport type offset timeBase =>
      by_cases hMode : s.mode = .Replay
      · rw [Ready, if_pos hMode] at hReady
        refine ⟨s, if_pos hMode, ?_⟩
        cases hSlot :
          getReportDataAddressLocation table (offset / 16)
            l.location with
        | error fault =>
            rw [Latest.step, hSlot]
            exact hHolds
        | ok a =>
            rw [Latest.step_getReport hSlot]
            rw [← hHolds.location] at hSlot
            exact
              hHolds.report (hReady a hSlot)
                (fun _ _ _ _ _ => rfl)
      · rw [Ready, if_neg hMode] at hReady
        rcases hReady with ⟨a, p, hSlot, hp, hValue, hNext⟩
        have hIsSlot : IsSlot table a := ⟨_, _, hSlot⟩
        rcases
          Written.of_stores granule hIsSlot.aligned hp timeBase
          with
          ⟨u, m', hFirst, hSecond, -, hWritten⟩
        have hStep :
            step table granule s
                (.getReport type offset timeBase) =
              some { s with mm := m' } :=
          (getReport_eq_some type hMode).mpr
            ⟨a, u, m', hSlot, hFirst, hSecond, rfl⟩
        refine ⟨_, hStep, ?_⟩
        rw [hHolds.location] at hSlot
        rw [Latest.step_getReport hSlot]
        apply
          hHolds.report (hWritten.holdsReport_iff.mpr hValue)
        intro b hB hNe i hI
        by_cases hReached :
            b = a + 16 ∧ i < 4 ∧
              s.mm.getMemoryPointer (a + 16) =
                some (p.add 16)
        · rcases hReached with ⟨rfl, hLow, hPointer⟩
          rw [hWritten.next hPointer i hLow,
            hNext hB hPointer i hLow]
        · apply hWritten.others b hB.aligned hNe i hI
          intro hHere hLow hPointer
          exact hReached ⟨hHere, hLow, hPointer⟩

/- No other command leaves the slots as they should be. -/
theorem ready_of_holds
    {c : Command}
    (hBefore : Holds table start l s)
    (hStep : step table granule s c = some t)
    (hAfter : Holds table start (l.step table c) t) :
    Ready table s c := by
  cases c with
  | contextDmaReport handle => exact trivial
  | getReport type offset timeBase =>
      by_cases hMode : s.mode = .Replay
      · rw [Ready, if_pos hMode]
        rw [step, getReport, if_pos hMode] at hStep
        obtain rfl := Option.some.inj hStep
        intro a hSlot
        have hIsSlot : IsSlot table a := ⟨_, _, hSlot⟩
        rw [hBefore.location] at hSlot
        rw [Latest.step_getReport hSlot] at hAfter
        exact
          hAfter.targeted a timeBase hIsSlot
            (Function.update_self _ _ _)
      · rw [Ready, if_neg hMode]
        rcases (getReport_eq_some type hMode).mp hStep with
          ⟨a, u, m', hSlot, hFirst, hSecond, rfl⟩
        have hIsSlot : IsSlot table a := ⟨_, _, hSlot⟩
        have hTarget := hSlot
        rw [hBefore.location] at hTarget
        rw [Latest.step_getReport hTarget] at hAfter
        have hReport : HoldsReport m' a timeBase :=
          hAfter.targeted a timeBase hIsSlot
            (Function.update_self _ _ _)
        have hPages : m'.pages = s.mm.pages :=
          (MainMemory.pages_store hSecond).trans
            (MainMemory.pages_store hFirst)
        rcases hReport.pointer with ⟨p, hp⟩
        rw [MainMemory.getMemoryPointer, hPages] at hp
        rcases
          Written.of_stores granule hIsSlot.aligned hp timeBase
          with
          ⟨u', m'', hFirst', hSecond', -, hWritten⟩
        obtain rfl :=
          Option.some.inj (hFirst.symm.trans hFirst')
        obtain rfl :=
          Option.some.inj (hSecond.symm.trans hSecond')
        refine
          ⟨a, p, hSlot, hp,
            hWritten.holdsReport_iff.mp hReport, ?_⟩
        intro hNext hPointer i hI
        have hNe : a + 16 ≠ a := by bv_omega
        rw [← hWritten.next hPointer i hI]
        exact
          (hBefore.byte_eq hAfter hNext
            (Function.update_of_ne hNe _ _)
            (by omega)).symm

/-
  The slots are independent in exactly those runs in which
  every report finds the value of its slot zero, and zeros
  at the start of the slot after it.
-/
theorem keepsReports_iff
    (table : OffsetTable)
    (granule : Option GranuleId)
    (start : Rsx)
    (commands : List Command) :
    KeepsReports table granule start commands ↔
      ReadyThroughout table granule start commands := by
  refine
    Transition.exec_everywhere_iff
      ⟨rfl, fun _ _ _ hTimer => ?_, fun _ _ _ _ _ => rfl⟩
      ?_ ?_
  · cases hTimer
  · intro before s c hBefore hReady
    rw [Latest.after, List.foldl_append]
    exact hBefore.exists_step hReady
  · intro before s c t hBefore hStep hAfter
    rw [Latest.after, List.foldl_append] at hAfter
    exact ready_of_holds hBefore hStep hAfter

/- The first page of reports, at an address of main memory. -/
def reportTable : OffsetTable :=
  { OffsetTable.reset with
    eaAddress := fun page => if page = 0xe0 then 0x100 else 0xffff }

/-
  The first report is written after the second one and clears
  the upper half of its time stamp.
-/
theorem keepsReports_fails :
    ¬ KeepsReports reportTable none
        ⟨.Run, .Local, MainMemory.reset⟩
        [.contextDmaReport
            CELL_GCM_CONTEXT_DMA_REPORT_LOCATION_MAIN,
          .getReport 1 16 0x100000000,
          .getReport 1 0 0x200000000] := by
  intro hKeeps
  rcases hKeeps _ [] (List.append_nil _).symm with
    ⟨s, hExec, hHolds⟩
  obtain rfl := Option.some.inj hExec
  have hSlot : IsSlot reportTable 0x10000010 :=
    ⟨1, .Main, rfl⟩
  have hTimer :=
    hHolds.targeted 0x10000010 0x100000000 hSlot rfl 3
      (by decide)
  revert hTimer
  decide

end Reports

end Ps3emu
