import Ps3emu.Rsx.OffsetTable

/-
  The offset table as a stream of halfwords, and the memory
  that is provided when the stream is read.

  Key definitions include:
    * `serializeOffsetTable`, `deserializeOffsetTable`
    * `Restores`
    * `IoMap.Keeps`, `IoMap.AdmitsKept`

  Key theorems include:
    * `readPairs_stream`
    * `deserialize_serialize`
    * `restores_of_whole`
    * `restores_of_kept`
-/

------------------------------------------------------------
-- Writer, Reader and Specification
------------------------------------------------------------

namespace Ps3emu

namespace OffsetTable

/- The indices whose entries are written. -/
def used
    (free : BitVec 16)
    (a : Nat → BitVec 16)
    (size : Nat) : List Nat :=
  (List.range size).filter (fun i => a i ≠ free)

def pairs
    (a : Nat → BitVec 16)
    (l : List Nat) : List (BitVec 16) :=
  l.flatMap (fun i => [BitVec.ofNat 16 i, a i])

def serializeOffsetTable (s : OffsetTable) : List (BitVec 16) :=
  let io := used 0xffff s.ioAddress eaPages
  let ea := used 0xffff s.eaAddress ioPages
  let counts := used 0 s.mapPageCount ioPages
  BitVec.ofNat 16 io.length :: BitVec.ofNat 16 ea.length ::
    BitVec.ofNat 16 counts.length ::
      (pairs s.ioAddress io ++ pairs s.eaAddress ea ++
        pairs s.mapPageCount counts)

/- A loop of the reader, from what is left of the stream. -/
def readPairs
    (size : Nat) :
    Nat → (Nat → BitVec 16) → List (BitVec 16) →
      Except TableFault ((Nat → BitVec 16) × List (BitVec 16))
  | 0, a, vec => .ok (a, vec)
  | n + 1, a, i :: v :: vec =>
      if i.toNat < size then
        readPairs size n (Function.update a i.toNat v) vec
      else .error .outOfRange
  | _ + 1, _, _ => .error .outOfRange

/-
  `provideMemory`: the address pages, each with the page of
  the buffer that becomes its memory.
-/
def provideMemory
    (ea size : BitVec 32)
    (io : Nat) : Except TableFault (List (Nat × Nat)) :=
  let pageCount := size.toNat / 2 ^ 20
  let firstPage := pageOf ea
  if firstPage < 4095 then
    if firstPage + pageCount ≤ 4095 then
      .ok
        ((List.range pageCount).map
          (fun k => (firstPage + k, io + k)))
    else .error .outOfRange
  else .error .assertion

/- One turn of the last loop. -/
def provideRun
    (s : OffsetTable)
    (i : Nat) : Except TableFault (List (Nat × Nat)) :=
  if s.mapPageCount i ≠ 0 then
    provideMemory ((s.eaAddress i).setWidth 32 <<< 20)
      ((s.mapPageCount i).setWidth 32 <<< 20) i
  else .ok []

def provideAll
    (s : OffsetTable)
    (l : List Nat) : Except TableFault (List (Nat × Nat)) :=
  l.foldlM
    (fun calls i => (s.provideRun i).map (fun c => calls ++ c)) []

def deserializeOffsetTable :
    List (BitVec 16) →
      Except TableFault (OffsetTable × List (Nat × Nat))
  | n₀ :: n₁ :: n₂ :: vec => do
      let (ioAddress, vec) ←
        readPairs eaPages n₀.toNat (fun _ => 0xffff) vec
      let (eaAddress, vec) ←
        readPairs ioPages n₁.toNat (fun _ => 0xffff) vec
      let (mapPageCount, _) ←
        readPairs ioPages n₂.toNat (fun _ => 0) vec
      let s := OffsetTable.mk ioAddress eaAddress mapPageCount
      let calls ← s.provideAll (List.range ioPages)
      .ok (s, calls)
  | _ => .error .outOfRange

def SameArrays (s t : OffsetTable) : Prop :=
  (∀ e, e < eaPages → t.ioAddress e = s.ioAddress e) ∧
    ∀ q, q < ioPages →
      t.eaAddress q = s.eaAddress q ∧
        t.mapPageCount q = s.mapPageCount q

/- The address page is mapped to the offset page. -/
def MapsPage (s : OffsetTable) (e q : Nat) : Prop :=
  e < eaPages ∧ s.ioAddress e ≠ 0xffff ∧
    (s.ioAddress e).toNat = q

/-
  The arrays are as they were, and a page has memory provided
  at a page of the buffer exactly when it is mapped to it.
-/
def Restores (s : OffsetTable) : Prop :=
  ∃ t calls,
    deserializeOffsetTable (serializeOffsetTable s) =
        .ok (t, calls) ∧
      SameArrays s t ∧
        ∀ e q, (e, q) ∈ calls ↔ s.MapsPage e q

------------------------------------------------------------
-- Arrays
------------------------------------------------------------

/- The loop takes its pairs and leaves the rest. -/
theorem readPairs_stream
    {size : Nat}
    {a b : Nat → BitVec 16}
    {l : List Nat}
    (rest : List (BitVec 16))
    (hSize : size ≤ 0x10000)
    (hIn : ∀ i ∈ l, i < size) :
    ∃ c,
      readPairs size l.length a (pairs b l ++ rest) =
          .ok (c, rest) ∧
        ∀ j, c j = if j ∈ l then b j else a j := by
  induction l generalizing a with
  | nil => exact ⟨a, rfl, fun j => rfl⟩
  | cons i l ih =>
      have hHere := hIn i List.mem_cons_self
      have hNat : (BitVec.ofNat 16 i).toNat = i := by
        rw [BitVec.toNat_ofNat]
        omega
      rcases ih (a := Function.update a i (b i))
          (fun j hJ => hIn j (List.mem_cons_of_mem _ hJ)) with
        ⟨c, hRead, hC⟩
      refine ⟨c, ?_, ?_⟩
      · rw [List.length_cons, pairs, List.flatMap_cons,
          List.append_assoc]
        change
          (if (BitVec.ofNat 16 i).toNat < size then _ else _) = _
        rw [hNat, if_pos hHere]
        exact hRead
      · intro j
        rw [hC, Function.update_apply]
        by_cases hJ : j = i
        · subst hJ
          simp
        · simp [hJ]

theorem mem_used
    {free : BitVec 16}
    {a : Nat → BitVec 16}
    {size i : Nat} :
    i ∈ used free a size ↔ i < size ∧ a i ≠ free := by
  rw [used, List.mem_filter, List.mem_range, decide_eq_true_eq]

theorem length_used_le
    (free : BitVec 16)
    (a : Nat → BitVec 16)
    (size : Nat) :
    (used free a size).length ≤ size := by
  have hLe := List.length_filter_le (fun i => decide (a i ≠ free))
    (List.range size)
  rwa [List.length_range] at hLe

/- An array that is written and read over cleared entries. -/
theorem readPairs_used
    {free : BitVec 16}
    {b : Nat → BitVec 16}
    {size : Nat}
    (rest : List (BitVec 16))
    (hSize : size < 0x10000) :
    ∃ c,
      readPairs size
          (BitVec.ofNat 16 (used free b size).length).toNat
          (fun _ => free)
          (pairs b (used free b size) ++ rest) =
        .ok (c, rest) ∧
      ∀ j, j < size → c j = b j := by
  have hLength := length_used_le free b size
  have hNat :
      (BitVec.ofNat 16 (used free b size).length).toNat =
        (used free b size).length := by
    rw [BitVec.toNat_ofNat]
    omega
  rcases readPairs_stream (a := fun _ => free) rest
      (Nat.le_of_lt hSize)
      (fun i hI => (mem_used.mp hI).1) with
    ⟨c, hRead, hC⟩
  refine ⟨c, ?_, ?_⟩
  · rw [hNat]
    exact hRead
  · intro j hJ
    rw [hC]
    split
    case isTrue => rfl
    case isFalse hFree =>
      by_contra hOther
      exact hFree (mem_used.mpr ⟨hJ, Ne.symm hOther⟩)

theorem provideRun_congr
    {s t : OffsetTable}
    (hSame : SameArrays s t)
    {i : Nat}
    (hI : i < ioPages) :
    t.provideRun i = s.provideRun i := by
  rcases hSame.2 i hI with ⟨hEa, hCount⟩
  rw [provideRun, provideRun, hEa, hCount]

/- Every table is read back, and its own runs are provided. -/
theorem deserialize_serialize (s : OffsetTable) :
    ∃ t,
      SameArrays s t ∧
        deserializeOffsetTable (serializeOffsetTable s) =
          (t.provideAll (List.range ioPages)).map
            (fun calls => (t, calls)) := by
  rcases @readPairs_used 0xffff s.ioAddress eaPages
      (pairs s.eaAddress (used 0xffff s.eaAddress ioPages) ++
        pairs s.mapPageCount (used 0 s.mapPageCount ioPages))
      (by decide) with
    ⟨io, hIoRead, hIo⟩
  rcases @readPairs_used 0xffff s.eaAddress ioPages
      (pairs s.mapPageCount (used 0 s.mapPageCount ioPages))
      (by decide) with
    ⟨ea, hEaRead, hEa⟩
  rcases @readPairs_used 0 s.mapPageCount ioPages []
      (by decide) with
    ⟨counts, hCountRead, hCount⟩
  rw [List.append_nil] at hCountRead
  refine
    ⟨⟨io, ea, counts⟩,
      ⟨hIo, fun q hQ => ⟨hEa q hQ, hCount q hQ⟩⟩, ?_⟩
  rw [serializeOffsetTable, List.append_assoc,
    deserializeOffsetTable, hIoRead]
  dsimp only [bind, Except.bind]
  rw [hEaRead]
  dsimp only
  rw [hCountRead]
  dsimp only
  cases provideAll _ _ with
  | error fault => rfl
  | ok calls => rfl

theorem provideAll_eq
    {s : OffsetTable}
    {f : Nat → List (Nat × Nat)}
    {l : List Nat}
    (hRuns : ∀ i ∈ l, s.provideRun i = .ok (f i)) :
    s.provideAll l = .ok (l.flatMap f) := by
  have hFrom :
      ∀ acc,
        l.foldlM
            (fun calls i =>
              (s.provideRun i).map (fun c => calls ++ c)) acc =
          .ok (acc ++ l.flatMap f) := by
    induction l with
    | nil =>
        intro acc
        rw [List.flatMap_nil, List.append_nil]
        rfl
    | cons i l ih =>
        intro acc
        rw [List.foldlM_cons, hRuns i List.mem_cons_self,
          List.flatMap_cons, ← List.append_assoc]
        exact
          ih (fun j hJ => hRuns j (List.mem_cons_of_mem _ hJ)) _
  exact hFrom []

/- A table whose runs are all provided is restored with them. -/
theorem deserialize_of_runs
    {s : OffsetTable}
    {f : Nat → List (Nat × Nat)}
    (hRuns : ∀ i < ioPages, s.provideRun i = .ok (f i)) :
    ∃ t,
      SameArrays s t ∧
        deserializeOffsetTable (serializeOffsetTable s) =
          .ok (t, (List.range ioPages).flatMap f) := by
  rcases deserialize_serialize s with ⟨t, hSame, hRead⟩
  refine ⟨t, hSame, ?_⟩
  rw [hRead, provideAll_eq (f := f)]
  · rfl
  · intro i hI
    have hLt := List.mem_range.mp hI
    rw [provideRun_congr hSame hLt, hRuns i hLt]

end OffsetTable

------------------------------------------------------------
-- Mappings with All Their Pages
------------------------------------------------------------

namespace IoMap

open OffsetTable (ioPages eaPages)

/-
  The pages from each counted start are mapped in order, and
  every page that is mapped is among them.
-/
structure Whole (i : IoMap) : Prop where
  runs :
    ∀ q n, i.named q = some n → 0 < n.pages →
      ∃ e, ∀ k < n.pages, i.eaPage (q + k) = some (e + k)
  covered :
    ∀ p e, i.eaPage p = some e →
      ∃ q n,
        i.named q = some n ∧ q ≤ p ∧ p < q + n.pages

theorem whole_start : IoMap.start.Whole where
  runs q n hNamed := by cases hNamed
  covered p e hPage := by cases hPage

/- The pages that are provided from a start. -/
def run (i : IoMap) (q : Nat) : List (Nat × Nat) :=
  match i.eaPage q with
  | none => []
  | some e =>
      (List.range (i.pageCount q)).map
        (fun k => (e + k, q + k))

/-
  A mapping with a page count lies inside the new mapping, or
  it starts elsewhere and they agree on the pages they share.
  No other mapping shares pages with one that is unmapped.
-/
def Keeps (i : IoMap) : OffsetTable.Op → Prop
  | .iomap localOffset mainMemEa size =>
      let m := mapping localOffset mainMemEa size
      ∀ q n, i.named q = some n →
        (∀ p, n.HasIo p → m.HasIo p) ∨
          (q ≠ m.io ∧
            ∀ p, n.HasIo p → m.HasIo p →
              i.eaPage p = some (m.eaOf p))
  | .iounmap localOffset _ =>
      ∀ m, i.named (localOffset.toNat / 2 ^ 20) = some m →
        ∀ q n, i.named q = some n → q ≠ m.io →
          ∀ p, n.HasIo p → ¬ m.HasIo p
  | .eaToOffset _ => True
  | .offsetToEa _ => True

def AdmitsKept : IoMap → List OffsetTable.Op → Prop
  | _, [] => True
  | i, op :: rest =>
      (i.Admissible op ∧ i.Keeps op) ∧ AdmitsKept (i.step op) rest

variable {i : IoMap}

theorem eaPage_map
    {m : Mapping}
    (hAdmits : i.AdmitsMap m)
    (q : Nat) :
    (i.map m).eaPage q =
      if m.HasIo q then some (m.eaOf q) else i.eaPage q := by
  rw [eaPage, OffsetTable.owner_map hAdmits]
  split <;> rfl

theorem whole_map
    {m : Mapping}
    (hWF : i.WF)
    (hWhole : i.Whole)
    (hAdmits : i.AdmitsMap m)
    (hKeeps :
      ∀ q n, i.named q = some n →
        (∀ p, n.HasIo p → m.HasIo p) ∨
          (q ≠ m.io ∧
            ∀ p, n.HasIo p → m.HasIo p →
              i.eaPage p = some (m.eaOf p))) :
    (i.map m).Whole := by
  have hNamed :
      ∀ q, (i.map m).named q =
        if q = m.io then some m else i.named q :=
    fun q => Function.update_apply i.named m.io (some m) q
  constructor
  · intro q n hOld hPages
    rw [hNamed] at hOld
    split at hOld
    case isTrue hHere =>
      cases hOld
      refine ⟨m.ea, fun k hK => ?_⟩
      have hIo : m.HasIo (q + k) := by
        unfold Mapping.HasIo
        omega
      rw [eaPage_map hAdmits, if_pos hIo, Option.some.injEq]
      unfold Mapping.eaOf
      omega
    case isFalse hOther =>
      have hStart := (hWF.named q n hOld).1
      have hIn : ∀ k < n.pages, n.HasIo (q + k) := by
        intro k hK
        unfold Mapping.HasIo
        omega
      rcases hKeeps q n hOld with hInside | ⟨-, hAgrees⟩
      · refine ⟨m.ea + (q - m.io), fun k hK => ?_⟩
        have hFirst := hInside _ (hIn 0 hPages)
        have hIo := hInside _ (hIn k hK)
        rw [eaPage_map hAdmits, if_pos hIo, Option.some.injEq]
        unfold Mapping.HasIo at hFirst
        unfold Mapping.eaOf
        omega
      · rcases hWhole.runs q n hOld hPages with ⟨e, hRun⟩
        refine ⟨e, fun k hK => ?_⟩
        rw [eaPage_map hAdmits]
        split
        case isTrue hIo =>
          rw [← hAgrees _ (hIn k hK) hIo]
          exact hRun k hK
        case isFalse => exact hRun k hK
  · intro p e hPage
    rw [eaPage_map hAdmits] at hPage
    split at hPage
    case isTrue hIo =>
      refine ⟨m.io, m, ?_, hIo⟩
      rw [hNamed, if_pos rfl]
    case isFalse hNot =>
      rcases hWhole.covered p e hPage with
        ⟨q, n, hOld, hLe, hLt⟩
      refine ⟨q, n, ?_, hLe, hLt⟩
      have hStart := (hWF.named q n hOld).1
      have hIo : n.HasIo p := by
        unfold Mapping.HasIo
        omega
      rcases hKeeps q n hOld with hInside | ⟨hOther, -⟩
      · exact absurd (hInside p hIo) hNot
      · rw [hNamed, if_neg hOther]
        exact hOld

theorem whole_unmap
    {q : Nat}
    (hWF : i.WF)
    (hWhole : i.Whole)
    (hAdmits : i.AdmitsUnmap q)
    (hKeeps :
      ∀ m, i.named q = some m →
        ∀ p n, i.named p = some n → p ≠ m.io →
          ∀ r, n.HasIo r → ¬ m.HasIo r) :
    (i.unmap q).Whole := by
  rcases hAdmits with ⟨m, hNamed, -, -, hAlone⟩
  have hStart := (hWF.named q m hNamed).1
  have hOthers :
      ∀ p, (i.unmap q).named p =
        if p = q then none else i.named p := by
    intro p
    unfold unmap
    rw [hNamed]
    exact Function.update_apply i.named q none p
  have hPages :
      ∀ p e, (i.unmap q).eaPage p = some e ↔
        i.eaPage p = some e ∧ ¬ m.HasIo p := by
    intro p e
    rw [OffsetTable.eaPage_eq_some, OffsetTable.eaPage_eq_some]
    constructor
    · rintro ⟨n, hOwner, hEa⟩
      rcases (OffsetTable.owner_unmap hNamed).mp hOwner with
        ⟨hOld, hNe⟩
      exact
        ⟨⟨n, hOld, hEa⟩,
          fun hIo => hNe (hAlone p n hOld (.inl hIo))⟩
    · rintro ⟨⟨n, hOld, hEa⟩, hNot⟩
      refine
        ⟨n, (OffsetTable.owner_unmap hNamed).mpr ⟨hOld, ?_⟩,
          hEa⟩
      rintro rfl
      exact hNot (hWF.inside p n hOld).1
  constructor
  · intro p n hOld hCount
    rw [hOthers] at hOld
    split at hOld
    case isTrue => cases hOld
    case isFalse hOther =>
      rcases hWhole.runs p n hOld hCount with ⟨e, hRun⟩
      refine ⟨e, fun k hK => (hPages _ _).mpr ⟨hRun k hK, ?_⟩⟩
      have hFirst := (hWF.named p n hOld).1
      apply hKeeps m hNamed p n hOld (by omega)
      unfold Mapping.HasIo
      omega
  · intro p e hPage
    rcases (hPages p e).mp hPage with ⟨hOld, hNot⟩
    rcases hWhole.covered p e hOld with ⟨r, n, hN, hLe, hLt⟩
    refine ⟨r, n, ?_, hLe, hLt⟩
    rw [hOthers, if_neg ?_]
    · exact hN
    · rintro rfl
      rw [hNamed] at hN
      cases hN
      apply hNot
      unfold Mapping.HasIo
      omega

/- A kept operation keeps every mapping whole. -/
theorem whole_step
    {op : OffsetTable.Op}
    (hWF : i.WF)
    (hWhole : i.Whole)
    (hAdmissible : i.Admissible op)
    (hKeeps : i.Keeps op) :
    (i.step op).Whole := by
  cases op with
  | iomap localOffset mainMemEa size =>
      exact whole_map hWF hWhole hAdmissible.2.2.2 hKeeps
  | iounmap localOffset size =>
      exact whole_unmap hWF hWhole hAdmissible hKeeps
  | eaToOffset ea => exact hWhole
  | offsetToEa offset => exact hWhole

end IoMap

------------------------------------------------------------
-- Correctness
------------------------------------------------------------

namespace OffsetTable

variable {i : IoMap} {s : OffsetTable}

theorem provideMemory_eq
    {e n q : Nat}
    (hFits : e + n ≤ eaPages)
    (hSize : n ≤ ioPages) :
    provideMemory ((BitVec.ofNat 16 e).setWidth 32 <<< 20)
        ((BitVec.ofNat 16 n).setWidth 32 <<< 20) q =
      .ok ((List.range n).map (fun k => (e + k, q + k))) := by
  unfold eaPages at hFits
  unfold ioPages at hSize
  have hPages :
      ∀ k, k < 4096 →
        ((BitVec.ofNat 16 k).setWidth 32 <<< 20).toNat =
          k * 2 ^ 20 := by
    intro k hK
    rw [BitVec.toNat_shiftLeft, BitVec.toNat_setWidth,
      BitVec.toNat_ofNat, Nat.shiftLeft_eq]
    omega
  unfold provideMemory
  rw [pageOf_eq, hPages e (by omega), hPages n (by omega),
    Nat.mul_div_cancel _ (by decide),
    Nat.mul_div_cancel _ (by decide)]
  dsimp only
  rw [if_pos (by omega), if_pos (by omega)]

/- The run from a start is provided where it is mapped. -/
theorem provideRun_eq
    (hWF : i.WF)
    (hAgrees : Agrees i s)
    (hWhole : i.Whole)
    {q : Nat}
    (hQ : q < ioPages) :
    s.provideRun q = .ok (i.run q) := by
  have hLe := pageCount_lt hWF q
  have hIoPages := ioPages_lt
  rw [provideRun, hAgrees.count q hQ, IoMap.run]
  by_cases hZero : i.pageCount q = 0
  · rw [hZero, if_neg (fun h => h rfl)]
    cases i.eaPage q <;> rfl
  · have hNonzero : BitVec.ofNat 16 (i.pageCount q) ≠ 0 := by
      intro hSame
      exact
        hZero ((ofNat_inj (by omega) (by decide)).mp hSame)
    rw [if_pos hNonzero]
    cases hNamed : i.named q with
    | none =>
        rw [IoMap.pageCount, hNamed] at hZero
        exact absurd rfl hZero
    | some n =>
        have hCount : i.pageCount q = n.pages := by
          rw [IoMap.pageCount, hNamed]
        rcases hWhole.runs q n hNamed (by omega) with ⟨e, hRun⟩
        have hFirst := hRun 0 (by omega)
        rcases eaPage_eq_some.mp (hRun (n.pages - 1) (by omega))
          with ⟨m, hOwner, hLast⟩
        have hBounds := hWF.bounds hOwner
        rw [Nat.add_zero, Nat.add_zero] at hFirst
        rw [hAgrees.ea q hQ, hFirst, entryOf, hCount]
        exact provideMemory_eq (by omega) (by omega)

theorem mapsPage_iff
    (hWF : i.WF)
    (hAgrees : Agrees i s)
    {e q : Nat} :
    s.MapsPage e q ↔ i.eaPage q = some e := by
  have hIoPages := ioPages_lt
  rw [eaPage_eq_some]
  constructor
  · rintro ⟨hE, hMapped, rfl⟩
    by_contra hNone
    apply hMapped
    apply hAgrees.ioFree e hE
    intro p m hOwner hEa
    have hIo := hAgrees.ioMapped p m hOwner
    have hBounds := hWF.bounds hOwner
    rw [hEa] at hIo
    apply hNone
    refine ⟨m, ?_, ?_⟩
    all_goals
      rw [hIo, BitVec.toNat_ofNat, Nat.mod_eq_of_lt (by omega)]
      assumption
  · rintro ⟨m, hOwner, rfl⟩
    have hBounds := hWF.bounds hOwner
    rw [MapsPage, hAgrees.ioMapped q m hOwner]
    refine ⟨hBounds.2, ofNat_ne_free (by omega), ?_⟩
    rw [BitVec.toNat_ofNat]
    omega

theorem mem_run
    (hWhole : i.Whole)
    (hWF : i.WF)
    {e q : Nat} :
    (e, q) ∈ (List.range ioPages).flatMap i.run ↔
      i.eaPage q = some e := by
  have hRun :
      ∀ p n, i.named p = some n → 0 < n.pages →
        ∃ e, i.run p =
            (List.range n.pages).map
              (fun k => (e + k, p + k)) ∧
          ∀ k < n.pages, i.eaPage (p + k) = some (e + k) := by
    intro p n hNamed hCount
    rcases hWhole.runs p n hNamed hCount with ⟨e, hPages⟩
    refine ⟨e, ?_, hPages⟩
    have hFirst := hPages 0 hCount
    rw [Nat.add_zero] at hFirst
    rw [IoMap.run, hFirst, IoMap.pageCount, hNamed]
    rfl
  rw [List.mem_flatMap]
  constructor
  · rintro ⟨p, -, hMem⟩
    cases hNamed : i.named p with
    | none =>
        rw [IoMap.run, IoMap.pageCount, hNamed] at hMem
        cases hPage : i.eaPage p <;> rw [hPage] at hMem <;>
          cases hMem
    | some n =>
        by_cases hCount : n.pages = 0
        · rw [IoMap.run, IoMap.pageCount, hNamed] at hMem
          dsimp only at hMem
          rw [hCount] at hMem
          cases hPage : i.eaPage p <;> rw [hPage] at hMem <;>
            cases hMem
        · rcases hRun p n hNamed (by omega) with
            ⟨e', hIs, hPages⟩
          rw [hIs] at hMem
          rcases List.mem_map.mp hMem with ⟨k, hK, hPair⟩
          cases hPair
          exact hPages k (List.mem_range.mp hK)
  · intro hPage
    rcases hWhole.covered q e hPage with
      ⟨p, n, hNamed, hLe, hLt⟩
    rcases hRun p n hNamed (by omega) with ⟨e', hIs, hPages⟩
    have hHere := hPages (q - p) (by omega)
    rw [Nat.add_sub_cancel' hLe, hPage, Option.some.injEq]
      at hHere
    refine
      ⟨p, List.mem_range.mpr (hWF.named p n hNamed).2.1, ?_⟩
    rw [hIs, List.mem_map]
    refine ⟨q - p, List.mem_range.mpr (by omega), ?_⟩
    rw [Prod.mk.injEq]
    omega

theorem restores_of_whole
    (hWF : i.WF)
    (hAgrees : Agrees i s)
    (hWhole : i.Whole) :
    Restores s := by
  rcases deserialize_of_runs (f := i.run)
      (fun q hQ => provideRun_eq hWF hAgrees hWhole hQ) with
    ⟨t, hSame, hRead⟩
  refine ⟨t, _, hRead, hSame, fun e q => ?_⟩
  rw [mem_run hWhole hWF, mapsPage_iff hWF hAgrees]

theorem restores_from
    {ops : List Op}
    {t : OffsetTable}
    (hWF : i.WF)
    (hAgrees : Agrees i s)
    (hWhole : i.Whole)
    (hOps : i.AdmitsKept ops)
    (hRun : Transition.exec step s ops = some t) :
    Restores t := by
  induction ops generalizing i s with
  | nil =>
      cases hRun
      exact restores_of_whole hWF hAgrees hWhole
  | cons op rest ih =>
      rcases hOps with ⟨⟨hAdmissible, hKeeps⟩, hRest⟩
      rcases exists_step hWF hAgrees hAdmissible with
        ⟨u, hStep, hWF', hAgrees'⟩
      rw [Transition.exec, hStep] at hRun
      exact
        ih hWF' hAgrees'
          (IoMap.whole_step hWF hWhole hAdmissible hKeeps)
          hRest hRun

/-
  A table is restored, with memory for exactly its pages, in
  every run whose operations keep the mappings whole.
-/
theorem restores_of_kept
    (ops : List Op)
    (s : OffsetTable)
    (hOps : IoMap.start.AdmitsKept ops)
    (hRun : Transition.exec step reset ops = some s) :
    Restores s :=
  restores_from IoMap.wf_start agrees_start IoMap.whole_start
    hOps hRun

/- Two pages are mapped. -/
def mapTwo : Op := .iomap 0 0x10000000 0x200000

/- The first of them is mapped once more. -/
def mapFirst : Op := .iomap 0 0x10000000 0x100000

theorem restores_mapTwo :
    ∃ s,
      Transition.exec step reset [mapTwo] = some s ∧
        Restores s := by
  have hOps : IoMap.start.AdmitsKept [mapTwo] := by
    refine
      ⟨⟨⟨by decide, by decide, by decide, ?_⟩, ?_⟩, trivial⟩
    · exact
        ⟨by decide, .inr (by decide),
          fun q old hOwner => by cases hOwner⟩
    · intro q n hNamed
      cases hNamed
  exact ⟨_, rfl, restores_of_kept [mapTwo] _ hOps rfl⟩

def remapped : OffsetTable :=
  (reset.mapped ⟨0x100, 0, 2⟩).mapped ⟨0x100, 0, 1⟩

theorem exec_remapped :
    Transition.exec step reset [mapTwo, mapFirst] =
      some remapped := by
  have hTwo :
      step reset mapTwo = some (reset.mapped ⟨0x100, 0, 2⟩) := by
    rw [step_eq_some, mapTwo, perform, if_pos (by decide)]
    exact
      map_eq_ok.mpr
        ⟨by decide, by decide, .inr (by decide), rfl⟩
  have hFirst :
      step (reset.mapped ⟨0x100, 0, 2⟩) mapFirst =
        some remapped := by
    rw [step_eq_some, mapFirst, perform, if_pos (by decide)]
    exact
      map_eq_ok.mpr
        ⟨by decide, by decide, .inr (by decide), rfl⟩
  rw [Transition.exec, hTwo]
  change (step _ mapFirst).bind _ = _
  rw [hFirst]
  rfl

theorem provideRun_remapped (i : Nat) :
    remapped.provideRun i =
      .ok (if i = 0 then [(0x100, 0)] else []) := by
  by_cases hI : i = 0
  · subst hI
    rfl
  · have hCount : remapped.mapPageCount i = 0 := by
      change Function.update (Function.update _ 0 _) 0 _ i = _
      rw [Function.update_of_ne hI, Function.update_of_ne hI]
      rfl
    rw [provideRun, hCount, if_neg (fun h => h rfl), if_neg hI]

/- The second page is still mapped, but in no counted run. -/
theorem remap_not_restores :
    ¬ ∀ ops s,
      Transition.exec step reset ops = some s → Restores s := by
  intro hAll
  rcases hAll _ _ exec_remapped with
    ⟨t, calls, hRead, -, hCalls⟩
  have hMapped := (hCalls 0x101 1).mpr (by
    unfold MapsPage
    decide)
  rcases deserialize_of_runs
      (fun i _ => provideRun_remapped i) with
    ⟨t', -, hRead'⟩
  rw [hRead, Except.ok.injEq, Prod.mk.injEq] at hRead'
  rw [hRead'.2] at hMapped
  rcases List.mem_flatMap.mp hMapped with ⟨i, -, hMem⟩
  split at hMem
  · revert hMem
    decide
  · cases hMem

end OffsetTable

end Ps3emu
