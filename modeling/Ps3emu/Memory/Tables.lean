import Ps3emu.Memory.MainMemory

/-
  The sizes of the reservation table and of the modification
  map, and the indexes that accesses use in them.

  Key definitions include:
    * `ReservationMap.slotNumber`
    * `ModificationMap.pageCount`
    * `Tables.Access`
    * `Tables.lines`, `Tables.pages`

  Key theorems include:
    * `Tables.mem_writeLines`
    * `Tables.inside_iff_below`
-/

------------------------------------------------------------
-- Sizes
------------------------------------------------------------

namespace Ps3emu

/- `_slotNumber`. -/
def ReservationMap.slotNumber : Nat := 0xffffffff / cacheLine

/- `PageCount`, with the largest address as `MaxAddress`. -/
def ModificationMap.pageCount : Nat :=
  0xffffffff / 2 ^ ModificationMap.pageShift

------------------------------------------------------------
-- Accesses
------------------------------------------------------------

namespace Tables

/-
  The calls that use the tables.  The operations of the
  modification map are called on their own by the renderer.
-/
inductive Access where
  | store
      (len : AccessLen)
      (va : Ps3Uintptr)
  | writeMemory (va len : Ps3Uintptr)
  | loadReserve
      (len : ReserveLen)
      (va : Ps3Uintptr)
  | writeCond
      (len : ReserveLen)
      (unconditional : Bool)
      (granule : Option GranuleId)
      (va : Ps3Uintptr)
      (buf : List Byte)
  | marked (va size : Ps3Uintptr)
  | reset (va size : Ps3Uintptr)

/- The lines that `lock<Len>` takes out of the table. -/
def lockIndexes (len : Nat) (va : Ps3Uintptr) : List Nat :=
  (lockedLines len va).1 :: (lockedLines len va).2.toList

/-
  The lines that the loop of `writeMemory` locks.  Each is
  locked after the pointer of its page was found.
-/
def writeLines
    (m : MainMemory)
    (last : Ps3Uintptr) : Nat → Ps3Uintptr → List Nat
  | 0, _ => []
  | fuel + 1, va =>
      if va = last then []
      else
        match m.getMemoryPointer va with
        | none => []
        | some _ =>
            lockIndexes cacheLine (va &&& 0xffffff80#32) ++
              writeLines m last fuel
                (MainMemory.chunkEnd va last)

/-
  The indexes into the reservation table.  `loadReserve` and
  `writeCond` lock the line before they look for the page,
  and do not test for the special windows.
-/
def lines (m : MainMemory) : Access → List Nat
  | .store len va =>
      if isSpecialVa va then [] else lockIndexes len.bytes va
  | .writeMemory va len =>
      if isSpecialVa va then []
      else writeLines m (va + len) len.toNat va
  | .loadReserve len va =>
      if MainMemory.reserveAligned len va then
        lockIndexes len.bytes va
      else []
  | .writeCond len _ _ va _ => lockIndexes len.bytes va
  | .marked _ _ | .reset _ _ => []

/- The page of an address and the one after it. -/
def markIndexes (va : Ps3Uintptr) : List Nat :=
  [ModificationMap.pageIndex va,
    ModificationMap.pageIndex va + 1]

/-
  The indexes into the modification map.  `writeMemory` marks
  its pages first, the others when they have stored.
-/
def pages (m : MainMemory) : Access → List Nat
  | .store _ va =>
      if isSpecialVa va then []
      else if (m.getMemoryPointer va).isSome then
        markIndexes va
      else []
  | .writeMemory va len =>
      if isSpecialVa va then []
      else ModificationMap.pages va len
  | .loadReserve _ _ => []
  | .writeCond len unconditional granule va buf =>
      match
        m.writeCondLocked len unconditional granule va buf
      with
      | some (_, true) => markIndexes va
      | _ => []
  | .marked va size | .reset va size =>
      ModificationMap.pages va size

/- Every index is inside its table. -/
structure Inside (m : MainMemory) (a : Access) : Prop where
  lines :
    ∀ line ∈ lines m a, line < ReservationMap.slotNumber
  pages :
    ∀ page ∈ pages m a, page < ModificationMap.pageCount

/- The range does not end in the last page of the map. -/
def RangeOk (va size : Ps3Uintptr) : Prop :=
  (va + size).toNat < 0xffffc000

/-
  A reserving access ends below the last line, and a range of
  the map ends below the last page.
-/
def Access.Below : Access → Prop
  | .store _ _ => True
  | .writeMemory va len =>
      isSpecialVa va = true ∨ RangeOk va len
  | .loadReserve len va =>
      MainMemory.reserveAligned len va = true →
        va.toNat + len.bytes ≤ 0xffffff80
  | .writeCond len _ _ va _ =>
      va.toNat + len.bytes ≤ 0xffffff80
  | .marked va size | .reset va size => RangeOk va size

------------------------------------------------------------
-- Indexes
------------------------------------------------------------

theorem slotNumber_eq :
    ReservationMap.slotNumber = 33554431 := rfl

theorem pageCount_eq : ModificationMap.pageCount = 262143 := rfl

/- The last line that is locked is that of the last byte. -/
theorem lockIndexes_lt_iff
    {len : Nat}
    (va : Ps3Uintptr)
    (hPos : 0 < len)
    (hLine : len ≤ cacheLine) :
    (∀ line ∈ lockIndexes len va,
        line < ReservationMap.slotNumber) ↔
      va.toNat + len ≤ 0xffffff80 := by
  rw [cacheLine] at hLine
  simp only [lockIndexes, lockedLines, lineIndex_eq,
    lineOffset_eq, slotNumber_eq]
  split
  case isTrue hCross =>
    simp only [Option.toList_some, List.mem_cons,
      List.not_mem_nil, or_false, forall_eq_or_imp, forall_eq]
    omega
  case isFalse hWithin =>
    simp only [Option.toList_none, List.mem_cons,
      List.not_mem_nil, or_false, forall_eq]
    omega

/- A line that the loop locks belongs to an allocated page. -/
theorem mem_writeLines
    {m : MainMemory}
    {last va : Ps3Uintptr}
    {fuel line : Nat}
    (hMem : line ∈ writeLines m last fuel va) :
    line < ReservationMap.slotNumber := by
  induction fuel generalizing va with
  | zero => cases hMem
  | succ fuel ih =>
      rw [writeLines] at hMem
      split at hMem
      case isTrue => cases hMem
      case isFalse =>
        split at hMem
        case h_1 => cases hMem
        case h_2 p hPointer =>
          rcases List.mem_append.mp hMem with hHere | hRest
          · have hRam := m.toNat_lt_of_pointer hPointer
            have hBase :
                (va &&& 0xffffff80#32).toNat =
                  va.toNat / 128 * 128 :=
              Masks.toNat_and_high va 7 (by omega)
            refine
              (lockIndexes_lt_iff _ (by decide)
                (Nat.le_refl _)).mpr ?_ line hHere
            rw [hBase, cacheLine]
            omega
          · exact ih hRest

theorem markIndexes_lt
    {va : Ps3Uintptr}
    (hRam : va.toNat < 0xe0000000) :
    ∀ page ∈ markIndexes va,
      page < ModificationMap.pageCount := by
  intro page hPage
  simp only [markIndexes, ModificationMap.pageIndex_eq,
    List.mem_cons, List.not_mem_nil, or_false] at hPage
  rw [pageCount_eq]
  omega

theorem pages_lt_iff (va size : Ps3Uintptr) :
    (∀ page ∈ ModificationMap.pages va size,
        page < ModificationMap.pageCount) ↔
      RangeOk va size := by
  have hVa := va.isLt
  have hEnd := (va + size).isLt
  simp only [ModificationMap.mem_pages,
    ModificationMap.pageIndex_eq, pageCount_eq, RangeOk]
  constructor
  · intro hLt
    by_contra hLast
    have hPage := hLt ((va + size).toNat / 16384) (by omega)
    omega
  · intro hBelow page hPage
    omega

/- A store under a reservation reached an allocated page. -/
theorem ram_of_stored
    {m m' : MainMemory}
    {len : ReserveLen}
    {unconditional : Bool}
    {granule : Option GranuleId}
    {va : Ps3Uintptr}
    {buf : List Byte}
    (hStored :
      m.writeCondLocked len unconditional granule va buf =
        some (m', true)) :
    va.toNat < 0xe0000000 := by
  simp only [MainMemory.writeCondLocked] at hStored
  split at hStored
  case isTrue => cases hStored
  case isFalse =>
    split at hStored
    case isTrue => cases hStored
    case isFalse =>
      split at hStored
      case isTrue =>
        rcases Option.map_eq_some_iff.mp hStored with
          ⟨ptr, hPointer, -⟩
        exact m.toNat_lt_of_pointer hPointer
      case isFalse => cases hStored

------------------------------------------------------------
-- Tables
------------------------------------------------------------

/- There is no index in an empty list. -/
theorem forall_mem_nil_lt (bound : Nat) :
    ∀ i ∈ ([] : List Nat), i < bound := by
  intro i hi
  exact absurd hi List.not_mem_nil

/- The lines and the pages of a store are always inside. -/
theorem inside_store
    (m : MainMemory)
    (len : AccessLen)
    (va : Ps3Uintptr) :
    Inside m (.store len va) := by
  by_cases hSpecial : isSpecialVa va = true
  · constructor
    · rw [lines, if_pos hSpecial]
      exact forall_mem_nil_lt _
    · rw [pages, if_pos hSpecial]
      exact forall_mem_nil_lt _
  · have hRam :=
      (isSpecialVa_eq_false_iff va).mp
        (Bool.eq_false_iff.mpr hSpecial)
    have hLen := len.bytes_le
    constructor
    · rw [lines, if_neg hSpecial]
      refine
        (lockIndexes_lt_iff va len.bytes_pos ?_).mpr ?_
      · rw [cacheLine]
        omega
      · omega
    · rw [pages, if_neg hSpecial]
      split
      case isTrue => exact markIndexes_lt hRam
      case isFalse => exact forall_mem_nil_lt _

theorem inside_writeMemory_iff
    (m : MainMemory)
    (va len : Ps3Uintptr) :
    Inside m (.writeMemory va len) ↔
      isSpecialVa va = true ∨ RangeOk va len := by
  by_cases hSpecial : isSpecialVa va = true
  · refine ⟨fun _ => .inl hSpecial, fun _ => ?_⟩
    constructor
    · rw [lines, if_pos hSpecial]
      exact forall_mem_nil_lt _
    · rw [pages, if_pos hSpecial]
      exact forall_mem_nil_lt _
  · constructor
    · intro hInside
      have hLt := hInside.pages
      rw [pages, if_neg hSpecial] at hLt
      exact .inr ((pages_lt_iff va len).mp hLt)
    · rintro (hYes | hRange)
      · exact absurd hYes hSpecial
      · constructor
        · rw [lines, if_neg hSpecial]
          exact fun line hLine => mem_writeLines hLine
        · rw [pages, if_neg hSpecial]
          exact (pages_lt_iff va len).mpr hRange

/-
  An access stays inside the tables if and only if it ends
  below their last line and page.
-/
theorem inside_iff_below (m : MainMemory) (a : Access) :
    Inside m a ↔ a.Below := by
  cases a with
  | store len va =>
      exact ⟨fun _ => trivial, fun _ => inside_store m len va⟩
  | writeMemory va len => exact inside_writeMemory_iff m va len
  | loadReserve len va =>
      have hLock :=
        lockIndexes_lt_iff va len.bytes_pos len.bytes_le
      constructor
      · intro hInside hAligned
        have hLt := hInside.lines
        rw [lines, if_pos hAligned] at hLt
        exact hLock.mp hLt
      · intro hBelow
        refine ⟨?_, forall_mem_nil_lt _⟩
        rw [lines]
        split
        case isTrue hAligned => exact hLock.mpr (hBelow hAligned)
        case isFalse => exact forall_mem_nil_lt _
  | writeCond len unconditional granule va buf =>
      have hLock :=
        lockIndexes_lt_iff va len.bytes_pos len.bytes_le
      refine
        ⟨fun hInside => hLock.mp hInside.lines,
          fun hBelow => ⟨hLock.mpr hBelow, ?_⟩⟩
      rw [pages]
      split
      case h_1 m' hStored =>
        exact markIndexes_lt (ram_of_stored hStored)
      case h_2 => exact forall_mem_nil_lt _
  | marked va size =>
      exact
        ⟨fun hInside => (pages_lt_iff va size).mp hInside.pages,
          fun hRange =>
            ⟨forall_mem_nil_lt _,
              (pages_lt_iff va size).mpr hRange⟩⟩
  | reset va size =>
      exact
        ⟨fun hInside => (pages_lt_iff va size).mp hInside.pages,
          fun hRange =>
            ⟨forall_mem_nil_lt _,
              (pages_lt_iff va size).mpr hRange⟩⟩

/- A word reservation in the last line of the address space. -/
theorem last_line_outside :
    ¬ Inside MainMemory.reset
      (.loadReserve .four 0xffffff80#32) := by
  intro hInside
  have hLt := hInside.lines 33554431 (by decide)
  rw [slotNumber_eq] at hLt
  omega

end Tables

end Ps3emu
