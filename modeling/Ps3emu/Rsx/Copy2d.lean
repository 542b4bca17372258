import Ps3emu.Library.Writes
import Ps3emu.Memory.MainMemory
import Ps3emu.Rsx.CacheCoherence
import Ps3emu.Rsx.OffsetTable

/-
  Copies from memory to memory, line by line and one byte for
  each element, which make the cached textures dirty.

  Key definitions include:
    * `CopySettings`, `startCopy2d`
    * `CopySettings.elements`
    * `Copies`, `CanCopy`

  Key theorems include:
    * `copyLines_iff`
    * `copies_iff`
-/

------------------------------------------------------------
-- The Copy
------------------------------------------------------------

namespace Ps3emu

namespace Copy2d

structure CopySettings where
  srcOffset : BitVec 32
  destOffset : BitVec 32
  srcLocation : MemoryLocation
  destLocation : MemoryLocation
  srcPitch : BitVec 32
  destPitch : BitVec 32
  lineLength : BitVec 32
  lineCount : BitVec 32
  srcFormat : BitVec 8
  destFormat : BitVec 8

/-
  The pointer that is some bytes after that of an address.
  It is good for no other address than the one that is as far
  from the first: the range has to be continuous.
-/
def pointerAfter
    (m : MainMemory)
    (va : Ps3Uintptr)
    (n : Nat) : Option HostPointer :=
  (m.getMemoryPointer va).bind (fun p =>
    if m.getMemoryPointer (va + BitVec.ofNat 32 n) =
        some (p.add n) then
      some (p.add n)
    else none)

/- `*dest = *src`. -/
def copyElement
    (m : MainMemory)
    (srcLine destLine : Ps3Uintptr)
    (src dest : Nat) : Option MainMemory :=
  (pointerAfter m srcLine src).bind (fun p =>
    (pointerAfter m destLine dest).map (fun q =>
      m.write q [m.host p.block p.offset]))

/- The source advances until it has reached the line's end. -/
def CopySettings.elementCount (c : CopySettings) : Nat :=
  (c.lineLength.toNat + (c.srcFormat.toNat - 1)) /
    c.srcFormat.toNat

/- A line, whose pointers are taken even if it is empty. -/
def copyLine
    (c : CopySettings)
    (m : MainMemory)
    (srcLine destLine : Ps3Uintptr) : Option MainMemory :=
  if (m.getMemoryPointer srcLine).isSome = true ∧
      (m.getMemoryPointer destLine).isSome = true then
    (List.range c.elementCount).foldlM
      (fun m i =>
        copyElement m srcLine destLine (i * c.srcFormat.toNat)
          (i * c.destFormat.toNat)) m
  else none

variable {K : Type} [DecidableEq K]

/- The loop over the lines that remain. -/
def copyLines
    (c : CopySettings) :
    Nat → Ps3Uintptr → Ps3Uintptr →
      MainMemory × ResourceCache K →
        Option (MainMemory × ResourceCache K)
  | 0, _, _, s => some s
  | n + 1, srcLine, destLine, (m, cache) =>
      (copyLine c m srcLine destLine).bind (fun m =>
        let srcLine := srcLine + c.srcPitch
        let destLine := destLine + c.destPitch
        copyLines c n srcLine destLine
          (m, cache.invalidate destLine c.lineLength))

/- The strides that `startCopy2d` asserts. -/
def IsFormat (format : BitVec 8) : Prop :=
  format = 1 ∨ format = 2 ∨ format = 4

instance (format : BitVec 8) : Decidable (IsFormat format) :=
  inferInstanceAs (Decidable (_ ∨ _))

/- `Rsx::startCopy2d`. -/
def startCopy2d
    (table : OffsetTable)
    (c : CopySettings)
    (s : MainMemory × ResourceCache K) :
    Option (MainMemory × ResourceCache K) :=
  (rsxOffsetToEa table c.srcLocation
      c.srcOffset).toOption.bind (fun sourceEa =>
    (rsxOffsetToEa table c.destLocation
        c.destOffset).toOption.bind (fun destEa =>
      if IsFormat c.srcFormat ∧ IsFormat c.destFormat then
        copyLines c c.lineCount.toNat sourceEa destEa s
      else none))

------------------------------------------------------------
-- Elements and Textures
------------------------------------------------------------

/- Where a line begins; pitches are signed. -/
def lineAt
    (start pitch : BitVec 32)
    (line : Nat) : Ps3Uintptr :=
  start + BitVec.ofNat 32 line * pitch

/- The elements of a line, from the source to the copy. -/
def CopySettings.lineMoves
    (c : CopySettings)
    (srcLine destLine : Ps3Uintptr) :
    List (Ps3Uintptr × Ps3Uintptr) :=
  (List.range c.elementCount).map (fun i =>
    (srcLine + BitVec.ofNat 32 (i * c.srcFormat.toNat),
      destLine + BitVec.ofNat 32 (i * c.destFormat.toNat)))

/- The elements of some lines, one line after another. -/
def CopySettings.elements
    (c : CopySettings)
    (lines : Nat)
    (sourceEa destEa : Ps3Uintptr) :
    List (Ps3Uintptr × Ps3Uintptr) :=
  (List.range lines).flatMap (fun line =>
    c.lineMoves (lineAt sourceEa c.srcPitch line)
      (lineAt destEa c.destPitch line))

/-
  The copy moves the elements, in their order, and nothing
  else; every texture with a byte that was written is dirty.
-/
def Copies
    (table : OffsetTable)
    (c : CopySettings)
    (m : MainMemory)
    (cache : ResourceCache K) : Prop :=
  ∃ sourceEa destEa m' cache',
    rsxOffsetToEa table c.srcLocation c.srcOffset =
        .ok sourceEa ∧
      rsxOffsetToEa table c.destLocation c.destOffset =
        .ok destEa ∧
      startCopy2d table c (m, cache) = some (m', cache') ∧
        m'.byte =
          Writes.move m.byte
            (c.elements c.lineCount.toNat sourceEa destEa) ∧
        cache'.store = cache.store ∧
          ∀ p ∈ cache'.store,
            ∀ e ∈ c.elements c.lineCount.toNat sourceEa destEa,
              ResourceCache.InRange p.2.va p.2.size e.2 →
                p.1 ∈ cache'.dirty

/- The ranges of a line are continuous as far as it is copied. -/
structure LineReady
    (c : CopySettings)
    (m : MainMemory)
    (srcLine destLine : Ps3Uintptr) : Prop where
  source : (m.getMemoryPointer srcLine).isSome = true
  dest : (m.getMemoryPointer destLine).isSome = true
  elements :
    ∀ i < c.elementCount,
      (pointerAfter m srcLine
          (i * c.srcFormat.toNat)).isSome = true ∧
        (pointerAfter m destLine
          (i * c.destFormat.toNat)).isSome = true

/-
  The lines lie in memory, and a texture with a byte that is
  written is dirty before, or meets the range of a line's
  length that begins one pitch after one of the lines.
-/
def CanCopy
    (table : OffsetTable)
    (c : CopySettings)
    (m : MainMemory)
    (cache : ResourceCache K) : Prop :=
  ∃ sourceEa destEa,
    rsxOffsetToEa table c.srcLocation c.srcOffset =
        .ok sourceEa ∧
      rsxOffsetToEa table c.destLocation c.destOffset =
        .ok destEa ∧
      (∀ line < c.lineCount.toNat,
        LineReady c m (lineAt sourceEa c.srcPitch line)
          (lineAt destEa c.destPitch line)) ∧
        ∀ p ∈ cache.store,
          ∀ e ∈ c.elements c.lineCount.toNat sourceEa destEa,
            ResourceCache.InRange p.2.va p.2.size e.2 →
              p.1 ∈ cache.dirty ∨
                ∃ line < c.lineCount.toNat,
                  ∃ q ∈ cache.store,
                    Cache.intersects q.2.va q.2.size
                          (lineAt destEa c.destPitch (line + 1))
                          c.lineLength =
                        true ∧
                      q.1 = p.1

------------------------------------------------------------
-- Elements of a Line
------------------------------------------------------------

variable {m m' : MainMemory} {c : CopySettings}
variable {srcLine destLine : Ps3Uintptr}

theorem getMemoryPointer_congr (hPages : m'.pages = m.pages) :
    m'.getMemoryPointer = m.getMemoryPointer := by
  funext va
  rw [MainMemory.getMemoryPointer, MainMemory.getMemoryPointer,
    hPages]

theorem pointerAfter_congr (hPages : m'.pages = m.pages) :
    pointerAfter m' = pointerAfter m := by
  funext va n
  simp only [pointerAfter, getMemoryPointer_congr hPages]

theorem getMemoryPointer_of_after
    {va : Ps3Uintptr}
    {n : Nat}
    {p : HostPointer}
    (hAfter : pointerAfter m va n = some p) :
    m.getMemoryPointer (va + BitVec.ofNat 32 n) = some p := by
  rcases Option.bind_eq_some_iff.mp hAfter with ⟨q, -, hAfter⟩
  rw [Option.ite_none_right_eq_some] at hAfter
  rw [hAfter.1, hAfter.2]

/- An element that is copied is a byte that is moved. -/
theorem byte_of_copyElement
    {src dest : Nat}
    (hCopy : copyElement m srcLine destLine src dest = some m') :
    m'.pages = m.pages ∧
      m'.byte =
        Function.update m.byte
          (destLine + BitVec.ofNat 32 dest)
          (m.byte (srcLine + BitVec.ofNat 32 src)) := by
  rcases Option.bind_eq_some_iff.mp hCopy with
    ⟨p, hP, hCopy⟩
  rcases Option.map_eq_some_iff.mp hCopy with ⟨q, hQ, rfl⟩
  refine ⟨rfl, funext fun a => ?_⟩
  have hRead := getMemoryPointer_of_after hP
  have hWrite := getMemoryPointer_of_after hQ
  by_cases hHere : a = destLine + BitVec.ofNat 32 dest
  · have hValue :
        m.byte (srcLine + BitVec.ofNat 32 src) =
          some (m.host p.block p.offset) := by
      rw [MainMemory.byte, hRead]
      rfl
    rw [hHere, Function.update_self, hValue]
    exact
      m.byte_write_of_pointer _ 0 hWrite (Nat.lt_succ_self 0)
  · rw [Function.update_of_ne hHere]
    apply m.byte_write_of_far _ hWrite
    intro hNear
    have hZero :
        (a - (destLine + BitVec.ofNat 32 dest)).toNat = 0 :=
      Nat.lt_one_iff.mp hNear
    generalize destLine + BitVec.ofNat 32 dest = b
      at hHere hZero
    bv_omega

theorem isSome_copyElement (src dest : Nat) :
    (copyElement m srcLine destLine src dest).isSome = true ↔
      (pointerAfter m srcLine src).isSome = true ∧
        (pointerAfter m destLine dest).isSome = true := by
  rw [copyElement]
  cases pointerAfter m srcLine src <;>
    cases pointerAfter m destLine dest <;> simp

/- Elements are copied if each of them can be. -/
theorem copyElements_iff
    (c : CopySettings)
    (m : MainMemory)
    (srcLine destLine : Ps3Uintptr)
    (is : List Nat) :
    let copied :=
      is.foldlM
        (fun m i =>
          copyElement m srcLine destLine
            (i * c.srcFormat.toNat) (i * c.destFormat.toNat)) m
    (copied.isSome = true ↔
      ∀ i ∈ is,
        (pointerAfter m srcLine
            (i * c.srcFormat.toNat)).isSome = true ∧
          (pointerAfter m destLine
            (i * c.destFormat.toNat)).isSome = true) ∧
      ∀ m', copied = some m' →
        m'.pages = m.pages ∧
          m'.byte =
            Writes.move m.byte
              (is.map (fun i =>
                (srcLine +
                    BitVec.ofNat 32 (i * c.srcFormat.toNat),
                  destLine +
                    BitVec.ofNat 32
                      (i * c.destFormat.toNat)))) := by
  induction is generalizing m with
  | nil =>
      refine ⟨by simp, fun m' hm' => ?_⟩
      obtain rfl := Option.some.inj hm'
      exact ⟨rfl, rfl⟩
  | cons i rest ih =>
      have hFirst :
          (copyElement m srcLine destLine
              (i * c.srcFormat.toNat)
              (i * c.destFormat.toNat)).isSome = true ↔ _ :=
        isSome_copyElement _ _
      simp only [List.foldlM_cons]
      cases hCopy :
          copyElement m srcLine destLine
            (i * c.srcFormat.toNat)
            (i * c.destFormat.toNat) with
      | none =>
          rw [hCopy] at hFirst
          refine ⟨?_, nofun⟩
          simp only [Option.isSome_none, Bool.false_eq_true,
            false_iff] at hFirst
          refine iff_of_false Bool.false_ne_true ?_
          exact fun h => hFirst (h i List.mem_cons_self)
      | some u =>
          rw [hCopy] at hFirst
          rcases byte_of_copyElement hCopy with ⟨hPages, hByte⟩
          have hRest := ih u
          simp only [pointerAfter_congr hPages] at hRest
          refine ⟨?_, fun m' hm' => ?_⟩
          · rw [List.forall_mem_cons]
            exact
              hRest.1.trans
                (and_iff_right (hFirst.mp rfl)).symm
          · rcases hRest.2 m' hm' with ⟨hPages', hByte'⟩
            refine ⟨hPages'.trans hPages, ?_⟩
            rw [hByte', hByte]
            rfl

------------------------------------------------------------
-- Lines
------------------------------------------------------------

variable {cache cache' : ResourceCache K}

theorem isSome_copyLine (srcLine destLine : Ps3Uintptr) :
    (copyLine c m srcLine destLine).isSome = true ↔
      LineReady c m srcLine destLine := by
  rw [copyLine]
  split
  case isTrue hPointers =>
    have hElements :=
      (copyElements_iff c m srcLine destLine
        (List.range c.elementCount)).1
    simp only [List.mem_range] at hElements
    rw [hElements]
    exact
      ⟨fun h => ⟨hPointers.1, hPointers.2, h⟩,
        fun h => h.elements⟩
  case isFalse hPointers =>
    refine iff_of_false Bool.false_ne_true ?_
    exact fun h => hPointers ⟨h.source, h.dest⟩

theorem byte_of_copyLine
    {srcLine destLine : Ps3Uintptr}
    (hCopy : copyLine c m srcLine destLine = some m') :
    m'.pages = m.pages ∧
      m'.byte =
        Writes.move m.byte (c.lineMoves srcLine destLine) := by
  rw [copyLine, Option.ite_none_right_eq_some] at hCopy
  exact (copyElements_iff _ _ _ _ _).2 m' hCopy.2

theorem lineReady_congr
    (hPages : m'.pages = m.pages)
    (srcLine destLine : Ps3Uintptr) :
    LineReady c m' srcLine destLine ↔
      LineReady c m srcLine destLine := by
  constructor
  · rintro ⟨hSource, hDest, hElements⟩
    rw [getMemoryPointer_congr hPages] at hSource hDest
    rw [pointerAfter_congr hPages] at hElements
    exact ⟨hSource, hDest, hElements⟩
  · rintro ⟨hSource, hDest, hElements⟩
    rw [← getMemoryPointer_congr hPages] at hSource hDest
    rw [← pointerAfter_congr hPages] at hElements
    exact ⟨hSource, hDest, hElements⟩

theorem lineAt_succ (start pitch : BitVec 32) (line : Nat) :
    lineAt (start + pitch) pitch line =
      lineAt start pitch (line + 1) := by
  simp only [lineAt, BitVec.ofNat_add, BitVec.add_mul,
    BitVec.add_assoc]
  rw [BitVec.add_comm (BitVec.ofNat 32 line * pitch)]
  simp

theorem lineAt_zero (start pitch : BitVec 32) :
    lineAt start pitch 0 = start := by
  simp [lineAt]

theorem elements_succ
    (lines : Nat)
    (sourceEa destEa : Ps3Uintptr) :
    c.elements (lines + 1) sourceEa destEa =
      c.lineMoves sourceEa destEa ++
        c.elements lines (sourceEa + c.srcPitch)
          (destEa + c.destPitch) := by
  simp only [CopySettings.elements, lineAt_succ]
  rw [List.range_succ_eq_map, List.flatMap_cons,
    List.flatMap_map, lineAt_zero, lineAt_zero]

/- Lines are copied if each of them can be. -/
theorem copyLines_iff
    (m : MainMemory)
    (cache : ResourceCache K)
    (lines : Nat)
    (sourceEa destEa : Ps3Uintptr) :
    let copied := copyLines c lines sourceEa destEa (m, cache)
    (copied.isSome = true ↔
      ∀ line < lines,
        LineReady c m (lineAt sourceEa c.srcPitch line)
          (lineAt destEa c.destPitch line)) ∧
      ∀ m' cache', copied = some (m', cache') →
        m'.byte =
            Writes.move m.byte
              (c.elements lines sourceEa destEa) ∧
          cache'.store = cache.store ∧
            ∀ key,
              key ∈ cache'.dirty ↔
                key ∈ cache.dirty ∨
                  ∃ line < lines,
                    ∃ q ∈ cache.store,
                      Cache.intersects q.2.va q.2.size
                            (lineAt destEa c.destPitch
                              (line + 1))
                            c.lineLength =
                          true ∧
                        q.1 = key := by
  induction lines generalizing m cache sourceEa destEa with
  | zero =>
      refine ⟨by simp [copyLines], fun m' cache' hEq => ?_⟩
      obtain ⟨rfl, rfl⟩ := Prod.mk.inj (Option.some.inj hEq)
      refine ⟨rfl, rfl, fun key => ?_⟩
      simp
  | succ lines ih =>
      have hFirst :
          (copyLine c m sourceEa destEa).isSome = true ↔ _ :=
        isSome_copyLine sourceEa destEa
      simp only [copyLines]
      cases hCopy : copyLine c m sourceEa destEa with
      | none =>
          rw [hCopy] at hFirst
          refine ⟨iff_of_false Bool.false_ne_true ?_, nofun⟩
          intro hReady
          have hLine := hReady 0 (Nat.succ_pos _)
          rw [lineAt_zero, lineAt_zero] at hLine
          exact absurd (hFirst.mpr hLine) Bool.false_ne_true
      | some u =>
          rw [hCopy] at hFirst
          rcases byte_of_copyLine hCopy with ⟨hPages, hByte⟩
          have hRest :=
            @ih u
              (cache.invalidate (destEa + c.destPitch)
                c.lineLength)
              (sourceEa + c.srcPitch) (destEa + c.destPitch)
          simp only [lineAt_succ, lineReady_congr hPages]
            at hRest
          refine ⟨?_, fun m' cache' hEq => ?_⟩
          · refine hRest.1.trans ⟨fun h line hLine => ?_,
              fun h line hLine => h (line + 1) (by omega)⟩
            cases line with
            | zero =>
                rw [lineAt_zero, lineAt_zero]
                exact hFirst.mp rfl
            | succ line => exact h line (by omega)
          · rcases hRest.2 m' cache' hEq with
              ⟨hByte', hStore, hDirty⟩
            refine ⟨?_, hStore, fun key => ?_⟩
            · rw [hByte', hByte, elements_succ,
                Writes.move_append]
            · have hOne :
                  destEa + c.destPitch =
                    lineAt destEa c.destPitch 1 := by
                rw [← lineAt_succ, lineAt_zero]
              rw [hDirty, ResourceCache.invalidate,
                ResourceCache.mem_dirty_watch,
                Nat.exists_lt_succ_left, or_assoc, hOne]
              rfl

variable {table : OffsetTable}

theorem startCopy2d_eq
    {sourceEa destEa : Ps3Uintptr}
    (hSource :
      rsxOffsetToEa table c.srcLocation c.srcOffset =
        .ok sourceEa)
    (hDest :
      rsxOffsetToEa table c.destLocation c.destOffset =
        .ok destEa)
    (hFormats : IsFormat c.srcFormat ∧ IsFormat c.destFormat)
    (s : MainMemory × ResourceCache K) :
    startCopy2d table c s =
      copyLines c c.lineCount.toNat sourceEa destEa s := by
  rw [startCopy2d, hSource, hDest]
  exact if_pos hFormats

theorem canCopy_of_copies
    (hSrc : IsFormat c.srcFormat)
    (hDest : IsFormat c.destFormat)
    (hCopies : Copies table c m cache) :
    CanCopy table c m cache := by
  rcases hCopies with
    ⟨sourceEa, destEa, m', cache', hSourceEa, hDestEa, hCopy, -,
      hStore, hTextures⟩
  rw [startCopy2d_eq hSourceEa hDestEa ⟨hSrc, hDest⟩] at hCopy
  have hLines :=
    copyLines_iff (c := c) m cache c.lineCount.toNat sourceEa
      destEa
  simp only [hCopy, Option.isSome_some, true_iff] at hLines
  refine ⟨sourceEa, destEa, hSourceEa, hDestEa, hLines.1,
    fun p hp e he hIn => ?_⟩
  rw [← (hLines.2 m' cache' rfl).2.2 p.1]
  exact hTextures p (by rw [hStore]; exact hp) e he hIn

theorem copies_of_canCopy
    (hSrc : IsFormat c.srcFormat)
    (hDest : IsFormat c.destFormat)
    (hCan : CanCopy table c m cache) :
    Copies table c m cache := by
  rcases hCan with
    ⟨sourceEa, destEa, hSourceEa, hDestEa, hReady, hTextures⟩
  have hLines :=
    copyLines_iff (c := c) m cache c.lineCount.toNat sourceEa
      destEa
  rcases Option.isSome_iff_exists.mp (hLines.1.mpr hReady) with
    ⟨⟨m', cache'⟩, hCopy⟩
  rcases hLines.2 m' cache' hCopy with ⟨hByte, hStore, hDirty⟩
  refine ⟨sourceEa, destEa, m', cache', hSourceEa, hDestEa, ?_,
    hByte, hStore, fun p hp e he hIn => ?_⟩
  · rw [startCopy2d_eq hSourceEa hDestEa ⟨hSrc, hDest⟩]
    exact hCopy
  · rw [hDirty]
    rw [hStore] at hp
    exact hTextures p hp e he hIn

/-
  What a copy leaves: other bytes as they were, and each copied
  byte as the source was if no line overlaps a source.
-/
theorem startCopy2d_of_canCopy
    (hSrc : IsFormat c.srcFormat)
    (hDest : IsFormat c.destFormat)
    (hCan : CanCopy table c m cache) :
    ∃ sourceEa destEa m' cache',
      rsxOffsetToEa table c.srcLocation c.srcOffset =
          .ok sourceEa ∧
        rsxOffsetToEa table c.destLocation c.destOffset =
          .ok destEa ∧
        startCopy2d table c (m, cache) = some (m', cache') ∧
          let es := c.elements c.lineCount.toNat sourceEa destEa
          (∀ a, (∀ e ∈ es, e.2 ≠ a) → m'.byte a = m.byte a) ∧
            ((∀ e ∈ es, ∀ e' ∈ es, e.2 ≠ e'.1) →
              m'.byte =
                Writes.apply m.byte
                  (es.map (fun e => (e.2, m.byte e.1)))) := by
  obtain
    ⟨sourceEa, destEa, m', cache', hSource, hDestEa, hCopy,
      hByte, -⟩ :=
    copies_of_canCopy hSrc hDest hCan
  refine
    ⟨sourceEa, destEa, m', cache', hSource, hDestEa, hCopy,
      fun a hNot => ?_, fun hDisjoint => ?_⟩
  · rw [hByte]
    exact Writes.move_of_not_mem hNot
  · rw [hByte]
    exact Writes.move_of_disjoint hDisjoint

/-
  A copy is right if and only if its lines lie in memory and
  the ranges that are invalidated, each one line too late,
  happen to find the textures that were written.
-/
theorem copies_iff
    {table : OffsetTable}
    (hSrc : IsFormat c.srcFormat)
    (hDest : IsFormat c.destFormat)
    (m : MainMemory)
    (cache : ResourceCache K) :
    Copies table c m cache ↔ CanCopy table c m cache :=
  ⟨canCopy_of_copies hSrc hDest, copies_of_canCopy hSrc hDest⟩

/- The first page of offsets is mapped. -/
def onePage : OffsetTable :=
  { OffsetTable.reset with
    eaAddress :=
      Function.update OffsetTable.reset.eaAddress 0 0x400 }

/- A line of four bytes, to the next page of memory. -/
def oneLine : CopySettings where
  srcOffset := 0
  destOffset := 0x1000
  srcLocation := .Main
  destLocation := .Main
  srcPitch := 0x100
  destPitch := 0x100
  lineLength := 4
  lineCount := 1
  srcFormat := 1
  destFormat := 1

theorem startCopy2d_of_canCopy_oneLine :
    ∃ sourceEa, ∃ s : MainMemory × ResourceCache Nat,
      rsxOffsetToEa onePage .Main 0 = .ok sourceEa ∧
        startCopy2d onePage oneLine
            (MainMemory.reset, ResourceCache.empty) =
          some s := by
  obtain ⟨sourceEa, _, _, _, hSource, -, hCopy, -⟩ :=
    startCopy2d_of_canCopy (.inl rfl) (.inl rfl)
      (⟨0x40000000, 0x40001000, rfl, rfl,
        fun line hLine => by
          obtain rfl := Nat.lt_one_iff.mp hLine
          exact ⟨by decide, by decide, by decide⟩,
        fun _ hp => by cases hp⟩ :
        CanCopy onePage oneLine MainMemory.reset
          (ResourceCache.empty : ResourceCache Nat))
  exact ⟨sourceEa, _, hSource, hCopy⟩

theorem copies_oneLine :
    Copies onePage oneLine MainMemory.reset
      (ResourceCache.empty : ResourceCache Nat) := by
  rw [copies_iff (.inl rfl) (.inl rfl)]
  refine ⟨0x40000000, 0x40001000, rfl, rfl,
    fun line hLine => ?_, nofun⟩
  obtain rfl := Nat.lt_one_iff.mp hLine
  exact ⟨by decide, by decide, by decide⟩

/- The texture that is copied over stays clean. -/
theorem copies_fails :
    ¬ Copies onePage oneLine MainMemory.reset
      ({ store := [(0, ⟨7, 0x40001000, 4, some 0⟩)]
         dirty := ∅
         destroyed := ∅ } : ResourceCache Nat) := by
  intro hCopies
  rcases canCopy_of_copies (.inl rfl) (.inl rfl) hCopies with
    ⟨sourceEa, destEa, hSourceEa, hDestEa, -, hTextures⟩
  obtain rfl : 0x40000000 = sourceEa := Except.ok.inj hSourceEa
  obtain rfl : 0x40001000 = destEa := Except.ok.inj hDestEa
  have hDirty :=
    hTextures _ List.mem_cons_self (0x40000000, 0x40001000)
      (by decide) (by decide)
  rcases hDirty with hOld | ⟨line, hLine, q, hq, hFound, -⟩
  · cases hOld
  · obtain rfl := Nat.lt_one_iff.mp hLine
    obtain rfl := List.mem_singleton.mp hq
    exact absurd hFound (by decide)

end Copy2d

end Ps3emu
