import Mathlib.Data.List.Sort
import Mathlib.Logic.Function.Basic
import Ps3emu.Library.Cursor
import Ps3emu.Shaders.FragmentInstr

/-
  The walks through a fragment program.  A program is a list
  of slots, and every position, size and length is counted in
  slots of sixteen bytes.

  Key definitions include:
    * `scanItem`, `dasmItem`, `dasmProgram`
    * `embeddedConstants`
    * `getFragmentBytecodeInfo`
    * `FragmentShaderKey`, `unzip`
    * `constSlots`, `embedded`, `cleared`

  Key theorems include:
    * `scanWalk_of_dasmWalk`
    * `getFragmentBytecodeInfo_iff`
    * `unzip_of_walk`, `unzip_cases`
    * `walk_cleared`
-/

------------------------------------------------------------
-- Walks
------------------------------------------------------------

namespace Ps3emu

namespace Shaders

open Cursor (Item Walk)

/- `FragmentProgramSize`, in slots. -/
def fragmentProgramSlots : Nat := 512

/- What `fragment_scan_instr` says about a position. -/
def scanItem
    (p : List Slot)
    (pos : Nat) : Option (Item Bool) :=
  p[pos]?.bind (fun instr =>
    (fragmentScanInstr instr).map (fun (isConst, isLast) =>
      ⟨isConst, if isConst then 2 else 1, isLast⟩))

/- What `fragment_dasm_instr` says about a position. -/
def dasmItem
    (p : List Slot)
    (pos : Nat) : Option (Item (FragmentInstr × Nat)) :=
  p[pos]?.bind (fun instr =>
    (fragmentDasmInstr instr p[pos + 1]?).map (fun r =>
      ⟨r, r.2, r.1.isLast⟩))

theorem scanItem_size
    {p : List Slot}
    {pos : Nat}
    {i : Item Bool}
    (hItem : scanItem p pos = some i) :
    i.size = if i.value then 2 else 1 := by
  rcases Option.bind_eq_some_iff.mp hItem with
    ⟨instr, -, hScan⟩
  rcases Option.map_eq_some_iff.mp hScan with
    ⟨⟨isConst, isLast⟩, -, rfl⟩
  rfl

theorem scanItem_size_pos
    (p : List Slot)
    (pos : Nat)
    (i : Item Bool)
    (hItem : scanItem p pos = some i) :
    0 < i.size := by
  rw [scanItem_size hItem]
  split <;> omega

/- Forget all but whether an instruction has a constant. -/
def isConst (r : FragmentInstr × Nat) : Bool :=
  decide (r.2 = 2)

theorem scanItem_of_dasmItem
    {p : List Slot}
    {pos : Nat}
    {i : Item (FragmentInstr × Nat)}
    (hItem : dasmItem p pos = some i) :
    scanItem p pos = some (i.map isConst) ∧
      i.size = if isConst i.value then 2 else 1 := by
  rcases Option.bind_eq_some_iff.mp hItem with
    ⟨instr, hInstr, hDasm⟩
  rcases Option.map_eq_some_iff.mp hDasm with
    ⟨⟨fi, size⟩, hRes, rfl⟩
  rcases fragmentScanInstr_of_dasm hRes with ⟨hScan, hSize⟩
  have hBoth :
      size = if decide (size = 2) = true then 2 else 1 := by
    rcases hSize with rfl | rfl <;> rfl
  constructor
  · rw [scanItem, hInstr, Option.bind_some, hScan]
    simp only [Option.map_some, Item.map, isConst]
    rw [← hBoth]
  · exact hBoth

theorem dasmItem_size_pos
    (p : List Slot)
    (pos : Nat)
    (i : Item (FragmentInstr × Nat))
    (hItem : dasmItem p pos = some i) :
    0 < i.size := by
  rw [(scanItem_of_dasmItem hItem).2]
  split <;> omega

/- No decoded instruction reads past the end of a program. -/
theorem dasmItem_le
    {p : List Slot}
    {pos : Nat}
    {i : Item (FragmentInstr × Nat)}
    (hItem : dasmItem p pos = some i) :
    pos + i.size ≤ p.length := by
  rcases Option.bind_eq_some_iff.mp hItem with
    ⟨instr, hInstr, hDasm⟩
  rcases Option.map_eq_some_iff.mp hDasm with
    ⟨⟨fi, size⟩, hRes, rfl⟩
  have hPos := (List.getElem?_eq_some_iff.mp hInstr).1
  rcases (fragmentScanInstr_of_dasm hRes).2 with rfl | rfl
  · exact hPos
  · rcases Option.isSome_iff_exists.mp
        (next_isSome_of_dasm hRes) with ⟨s, hs⟩
    exact (List.getElem?_eq_some_iff.mp hs).1

/- The scan walks through a program as the decoder does. -/
theorem scanWalk_of_dasmWalk
    {p : List Slot}
    {limit pos stop : Nat}
    {items : List (Nat × Item (FragmentInstr × Nat))}
    (hWalk : Walk (dasmItem p) limit pos items stop) :
    Walk (scanItem p) limit pos
      (items.map (fun x => (x.1, x.2.map isConst))) stop := by
  apply hWalk.map isConst
  intro q i hMem
  exact
    (scanItem_of_dasmItem (hWalk.item_of_mem hMem).2).1

/-
  The decoder walks through a program as the scan does, if
  the constants that it reads are in the program.
-/
theorem exists_dasmWalk_of_scanWalk
    {p : List Slot}
    {limit pos stop : Nat}
    {items : List (Nat × Item Bool)}
    (hWalk : Walk (scanItem p) limit pos items stop)
    (hIn :
      ∀ x ∈ items, x.2.value = true → x.1 + 1 < p.length) :
    ∃ decoded,
      Walk (dasmItem p) limit pos decoded stop ∧
        items =
          decoded.map (fun x => (x.1, x.2.map isConst)) := by
  have hDecode :
      ∀ {q : Nat} {i : Item Bool},
        scanItem p q = some i →
        (i.value = true → q + 1 < p.length) →
        ∃ d, dasmItem p q = some d ∧ i = d.map isConst := by
    intro q i hItem hConst
    rcases Option.bind_eq_some_iff.mp hItem with
      ⟨instr, hInstr, hScan⟩
    rcases Option.map_eq_some_iff.mp hScan with
      ⟨⟨const, isLast⟩, hRes, rfl⟩
    have hNext : const = true → p[q + 1]?.isSome = true := by
      intro hTrue
      rw [List.getElem?_eq_getElem (hConst hTrue)]
      rfl
    rcases exists_dasm_of_scan hRes hNext with
      ⟨fi, hDasm, hLast⟩
    have hItem' :
        dasmItem p q =
          some
            ⟨(fi, if const then 2 else 1),
              if const then 2 else 1, fi.isLast⟩ := by
      rw [dasmItem, hInstr, Option.bind_some, hDasm]
      rfl
    refine ⟨_, hItem', ?_⟩
    cases const <;> simp [Item.map, isConst, hLast]
  induction hWalk with
  | done hLimit => exact ⟨[], .done hLimit, rfl⟩
  | @last pos i hLimit hItem hLast =>
      rcases hDecode hItem (hIn (pos, i) (by simp)) with
        ⟨d, hd, rfl⟩
      exact ⟨[(pos, d)], .last hLimit hd hLast, rfl⟩
  | @more pos stop i rest hLimit hItem hLast _ ih =>
      rcases hDecode hItem (hIn (pos, i) (by simp)) with
        ⟨d, hd, rfl⟩
      rcases ih (fun x hx => hIn x (by simp [hx])) with
        ⟨decoded, hDecoded, rfl⟩
      exact
        ⟨(pos, d) :: decoded, .more hLimit hd hLast hDecoded,
          rfl⟩

/- The decoded instructions with their positions and sizes. -/
def dasmProgram
    (p : List Slot) :
    Option (List (Nat × FragmentInstr × Nat) × Nat) :=
  Cursor.collect (dasmItem p) fragmentProgramSlots
    fragmentProgramSlots 0

/-
  The constants of a program, in program order: the slots
  after the instructions that take two slots.
-/
def embeddedConstants (p : List Slot) : Option (List Slot) :=
  (dasmProgram p).map (fun (instrs, _) =>
    instrs.filterMap (fun (pos, _, size) =>
      if size = 2 then p[pos + 1]?.map readFragmentImmVal
      else none))

------------------------------------------------------------
-- Slots of Constants
------------------------------------------------------------

/- The slots after the instructions that have a constant. -/
def constSlots (items : List (Nat × Item Bool)) : List Nat :=
  items.filterMap (fun x =>
    if x.2.value then some (x.1 + 1) else none)

theorem mem_constSlots
    (items : List (Nat × Item Bool))
    (j : Nat) :
    j ∈ constSlots items ↔
      ∃ x ∈ items, x.2.value = true ∧ j = x.1 + 1 := by
  simp only [constSlots, List.mem_filterMap,
    Option.ite_none_right_eq_some, Option.some.injEq]
  grind

theorem constSlots_cons
    (x : Nat × Item Bool)
    (rest : List (Nat × Item Bool)) :
    constSlots (x :: rest) =
      if x.2.value then (x.1 + 1) :: constSlots rest
      else constSlots rest := by
  simp only [constSlots, List.filterMap_cons]
  split <;> simp_all

/- No instruction of a walk stands in a constant's slot. -/
theorem not_mem_constSlots
    {p : List Slot}
    {limit pos stop : Nat}
    {items : List (Nat × Item Bool)}
    (hWalk : Walk (scanItem p) limit pos items stop)
    {q : Nat}
    {i : Item Bool}
    (hMem : (q, i) ∈ items) :
    q ∉ constSlots items := by
  intro hConst
  rcases (mem_constSlots _ _).mp hConst with
    ⟨⟨q', i'⟩, hMem', hValue, hEq⟩
  have hSize := scanItem_size (hWalk.item_of_mem hMem').2
  have hOwn :=
    scanItem_size_pos _ _ _ (hWalk.item_of_mem hMem).2
  rw [hValue, if_pos rfl] at hSize
  rcases hWalk.apart hMem hMem' with ⟨hSame, -⟩ | hBefore | hAfter
  · omega
  · omega
  · omega

/- Each constant's slot lies between the ends of the walk. -/
theorem constSlots_bounds
    {p : List Slot}
    {limit pos stop : Nat}
    {items : List (Nat × Item Bool)}
    (hWalk : Walk (scanItem p) limit pos items stop)
    {j : Nat}
    (hMem : j ∈ constSlots items) :
    pos < j ∧ j < stop := by
  rcases (mem_constSlots _ _).mp hMem with
    ⟨⟨q, i⟩, hItem, hValue, rfl⟩
  have hSize := scanItem_size (hWalk.item_of_mem hItem).2
  have hBounds := hWalk.bounds_of_mem hItem
  rw [hValue, if_pos rfl] at hSize
  omega

/- The constants stand in the order of their slots. -/
theorem pairwise_constSlots
    {p : List Slot}
    {limit pos stop : Nat}
    {items : List (Nat × Item Bool)}
    (hWalk : Walk (scanItem p) limit pos items stop) :
    (constSlots items).Pairwise (· < ·) := by
  induction hWalk with
  | done => exact List.Pairwise.nil
  | last =>
      rw [constSlots_cons]
      split
      · exact List.pairwise_singleton _ _
      · exact List.Pairwise.nil
  | @more pos stop i rest _ hItem _ hRest ih =>
      rw [constSlots_cons]
      split
      case isFalse => exact ih
      case isTrue hValue =>
        refine List.Pairwise.cons ?_ ih
        intro j hj
        have hSize := scanItem_size hItem
        rw [if_pos hValue] at hSize
        have hLater := (constSlots_bounds hRest hj).1
        change pos + 1 < j
        omega

/- The slots between the ends that hold constants, in order. -/
theorem filter_constSlots
    {p : List Slot}
    {limit stop : Nat}
    {items : List (Nat × Item Bool)}
    (hWalk : Walk (scanItem p) limit 0 items stop) :
    (List.range stop).filter
        (fun j => decide (j ∈ constSlots items)) =
      constSlots items := by
  apply List.Pairwise.eq_of_mem_iff
    (r := (· < ·))
  · exact List.Pairwise.filter _ List.pairwise_lt_range
  · exact pairwise_constSlots hWalk
  · intro j
    rw [List.mem_filter, List.mem_range, decide_eq_true_eq]
    constructor
    · exact And.right
    · intro hj
      exact ⟨(constSlots_bounds hWalk hj).2, hj⟩

------------------------------------------------------------
-- The Map of Constants
------------------------------------------------------------

open Cursor (Item Walk)

structure FragmentProgramInfo where
  constMap : Nat → Bool
  length : Nat

/-
  `map[pos / 16 + 1] = isConst`, on a `std::bitset<512>` that
  has no bit past the last slot.
-/
def markConst
    (map : Nat → Bool)
    (pos : Nat)
    (isConst : Bool) : Option (Nat → Bool) :=
  if pos + 1 < fragmentProgramSlots then
    some (Function.update map (pos + 1) isConst)
  else none

def getFragmentBytecodeInfo
    (p : List Slot) : Option FragmentProgramInfo :=
  (Cursor.loop (scanItem p) fragmentProgramSlots markConst
    fragmentProgramSlots 0 (fun _ => false)).map
      (fun (constMap, length) => ⟨constMap, length⟩)

/- Every instruction leaves room for a bit after its own. -/
def Mapped (items : List (Nat × Item Bool)) : Prop :=
  ∀ x ∈ items, x.1 + 1 < fragmentProgramSlots

/- A bit that is set later joins the bits of the constants. -/
theorem update_eq_or
    (map : Nat → Bool)
    (pos : Nat)
    (i : Item Bool)
    (hAhead : ∀ j, pos < j → map j = false)
    (rest : List (Nat × Item Bool)) :
    (fun j =>
        Function.update map (pos + 1) i.value j ||
          decide (j ∈ constSlots rest)) =
      fun j =>
        map j || decide (j ∈ constSlots ((pos, i) :: rest)) := by
  funext j
  have hNext := hAhead (pos + 1) (Nat.lt_succ_self pos)
  rw [constSlots_cons, Function.update_apply]
  by_cases hj : j = pos + 1
  · subst hj
    cases i.value <;> simp [hNext]
  · cases i.value <;> simp [hj]

theorem runItems_markConst
    {p : List Slot}
    {limit pos stop : Nat}
    {items : List (Nat × Item Bool)}
    (hWalk : Walk (scanItem p) limit pos items stop)
    (map map' : Nat → Bool)
    (hAhead : ∀ j, pos < j → map j = false) :
    Cursor.runItems markConst items map = some map' ↔
      Mapped items ∧
        map' = fun j =>
          map j || decide (j ∈ constSlots items) := by
  induction hWalk generalizing map with
  | done =>
      have hNil :
          (fun j => map j || decide (j ∈ constSlots [])) =
            map := by
        funext j
        simp [constSlots]
      rw [Cursor.runItems, hNil, Option.some.injEq, eq_comm]
      have hMapped : Mapped [] :=
        fun x hx => absurd hx List.not_mem_nil
      exact ⟨fun hEq => ⟨hMapped, hEq⟩, And.right⟩
  | @last pos i =>
      rw [Cursor.runItems, Mapped]
      simp only [List.mem_singleton, forall_eq]
      rw [markConst]
      split
      case isFalse hRoom => simp [hRoom]
      case isTrue hRoom =>
        have hMap := update_eq_or map pos i hAhead []
        have hNil :
            (fun j =>
              Function.update map (pos + 1) i.value j ||
                decide (j ∈ constSlots [])) =
              Function.update map (pos + 1) i.value := by
          funext j
          simp [constSlots]
        rw [← hMap, hNil, Option.bind_some, Cursor.runItems,
          Option.some.injEq, eq_comm]
        exact ⟨fun hEq => ⟨hRoom, hEq⟩, And.right⟩
  | @more pos stop i rest _ hItem _ hRest ih =>
      rw [Cursor.runItems, Mapped]
      simp only [List.forall_mem_cons]
      rw [markConst]
      split
      case isFalse hRoom => simp [hRoom]
      case isTrue hRoom =>
        have hSize := scanItem_size hItem
        rw [Option.bind_some, ih]
        · simp only [hRoom, true_and, Mapped]
          rw [update_eq_or map pos i hAhead rest]
        · intro j hj
          rw [Function.update_apply]
          split
          case isFalse => exact hAhead j (by split at hSize <;> omega)
          case isTrue hEq =>
            split at hSize
            case isTrue => omega
            case isFalse hValue => simpa using hValue

theorem getFragmentBytecodeInfo_iff
    (p : List Slot)
    (info : FragmentProgramInfo) :
    getFragmentBytecodeInfo p = some info ↔
      ∃ items,
        Walk (scanItem p) fragmentProgramSlots 0 items
            info.length ∧
          Mapped items ∧
          info.constMap =
            fun j => decide (j ∈ constSlots items) := by
  rcases info with ⟨constMap, length⟩
  rw [getFragmentBytecodeInfo, Option.map_eq_some_iff]
  have hLoop := fun b' =>
    Cursor.loop_iff markConst (scanItem_size_pos p)
      fragmentProgramSlots 0 length (fun _ => false) b'
      (Nat.le_add_left fragmentProgramSlots 0)
  constructor
  · rintro ⟨⟨map, stop⟩, hRun, hEq⟩
    obtain ⟨rfl, rfl⟩ :=
      FragmentProgramInfo.mk.inj hEq
    rcases (hLoop map).mp hRun with ⟨items, hWalk, hItems⟩
    rw [runItems_markConst hWalk _ _ (fun _ _ => rfl)] at hItems
    exact ⟨items, hWalk, hItems.1, by simpa using hItems.2⟩
  · rintro ⟨items, hWalk, hMapped, hMap⟩
    refine ⟨(constMap, length), ?_, rfl⟩
    apply (hLoop constMap).mpr
    refine ⟨items, hWalk, ?_⟩
    rw [runItems_markConst hWalk _ _ (fun _ _ => rfl)]
    exact ⟨hMapped, by simpa using hMap⟩

------------------------------------------------------------
-- Extraction of Constants
------------------------------------------------------------

open Cursor (Item Walk)

/- The hash of a key is that of the program's bytes. -/
structure FragmentShaderKey (H : Type) where
  hash : H
  size : Nat
  constCount : Nat
  mrt : Bool
  deriving DecidableEq

/- The byte code, the buffer of constants, and their number. -/
structure Unzipped where
  slots : List Slot
  fconst : List Slot
  constCount : Nat
  deriving DecidableEq

/-
  Move one constant to the buffer and leave zeros.  Slots and
  places that do not exist are not accessed.
-/
def unzipConst (u : Unzipped) (i : Nat) : Option Unzipped :=
  u.slots[i]?.bind (fun s =>
    if u.constCount < u.fconst.length then
      some
        { slots := u.slots.set i Slot.zero
          fconst :=
            u.fconst.set u.constCount (readFragmentImmVal s)
          constCount := u.constCount + 1 }
    else none)

def unzipSlot
    (constMap : Nat → Bool)
    (u : Unzipped)
    (i : Nat) : Option Unzipped :=
  if constMap i then unzipConst u i else some u

/- `FragmentShaderCache::unzip`. -/
def unzip
    {H : Type}
    (xxh64 : List Slot → H)
    (p fconst : List Slot)
    (mrt : Bool) : Option (Unzipped × FragmentShaderKey H) :=
  (getFragmentBytecodeInfo p).bind (fun info =>
    ((List.range info.length).foldlM
      (unzipSlot info.constMap) ⟨p, fconst, 0⟩).map (fun u =>
        (u,
          { hash := xxh64 (u.slots.take info.length)
            size := info.length
            constCount := u.constCount
            mrt })))

/- The program with zeros in the slots of some constants. -/
def cleared (p : List Slot) (consts : List Nat) : List Slot :=
  consts.foldl (fun p j => p.set j Slot.zero) p

/- The values that stand in the slots of some constants. -/
def embedded (p : List Slot) (consts : List Nat) : List Slot :=
  consts.filterMap (fun j => p[j]?.map readFragmentImmVal)

@[simp] theorem length_cleared
    (p : List Slot)
    (consts : List Nat) :
    (cleared p consts).length = p.length := by
  induction consts generalizing p with
  | nil => rfl
  | cons j rest ih =>
      rw [cleared, List.foldl_cons]
      exact (ih _).trans (List.length_set ..)

theorem getElem?_cleared
    (p : List Slot)
    (consts : List Nat)
    (j : Nat) :
    (cleared p consts)[j]? =
      if j ∈ consts then p[j]?.map (fun _ => Slot.zero)
      else p[j]? := by
  induction consts generalizing p with
  | nil => rfl
  | cons k rest ih =>
      change (cleared (p.set k Slot.zero) rest)[j]? = _
      rw [ih, List.getElem?_set]
      by_cases hj : j = k
      · subst hj
        by_cases hLt : j < p.length
        · simp [hLt]
        · simp [hLt]
      · simp [hj, Ne.symm hj]

/- The constants of a program are those of its walk. -/
theorem embeddedConstants_of_walk
    {p : List Slot}
    {stop : Nat}
    {items : List (Nat × Item Bool)}
    (hWalk :
      Walk (scanItem p) fragmentProgramSlots 0 items stop)
    (hIn :
      ∀ x ∈ items, x.2.value = true → x.1 + 1 < p.length) :
    embeddedConstants p =
      some (embedded p (constSlots items)) := by
  rcases exists_dasmWalk_of_scanWalk hWalk hIn with
    ⟨decoded, hDecoded, rfl⟩
  have hCollect :
      dasmProgram p =
        some
          (decoded.map (fun x => (x.1, x.2.value)), stop) :=
    (Cursor.collect_iff (dasmItem_size_pos p) _ _ _ _
      (Nat.le_add_left _ _)).mpr ⟨decoded, hDecoded, rfl⟩
  rw [embeddedConstants, hCollect, Option.map_some, embedded,
    constSlots]
  simp only [List.filterMap_map, List.filterMap_filterMap]
  congr 1
  apply List.filterMap_congr
  intro x _
  simp only [Function.comp_apply, Item.map, isConst]
  by_cases hSize : x.2.value.2 = 2
  · simp [hSize]
  · simp [hSize]

theorem length_embedded
    (p : List Slot)
    (consts : List Nat)
    (hIn : ∀ j ∈ consts, j < p.length) :
    (embedded p consts).length = consts.length := by
  induction consts with
  | nil => rfl
  | cons j rest ih =>
      have hj := hIn j (by simp)
      have hRest := ih (fun k hk => hIn k (by simp [hk]))
      simp only [embedded, List.filterMap_cons,
        List.getElem?_eq_getElem hj, Option.map_some,
        List.length_cons]
      exact congrArg (· + 1) hRest

theorem getElem?_embedded
    {p : List Slot}
    {consts : List Nat}
    (hIn : ∀ j ∈ consts, j < p.length)
    (k : Nat) :
    (embedded p consts)[k]? =
      consts[k]?.bind (fun j =>
        p[j]?.map readFragmentImmVal) := by
  induction consts generalizing k with
  | nil => rfl
  | cons j rest ih =>
      have hj := hIn j (by simp)
      have hHead :
          embedded p (j :: rest) =
            readFragmentImmVal p[j] :: embedded p rest := by
        simp [embedded, List.getElem?_eq_getElem hj]
      rw [hHead]
      cases k with
      | zero => simp [List.getElem?_eq_getElem hj]
      | succ k => exact ih (fun x hx => hIn x (by simp [hx])) k

/- Only the selected slots are moved. -/
theorem foldlM_unzipSlot
    (constMap : Nat → Bool)
    (l : List Nat)
    (u : Unzipped) :
    l.foldlM (unzipSlot constMap) u =
      (l.filter constMap).foldlM unzipConst u := by
  induction l generalizing u with
  | nil => rfl
  | cons i rest ih =>
      cases hi : constMap i with
      | true =>
          simp only [List.foldlM_cons, unzipSlot, hi, if_true,
            List.filter_cons_of_pos hi]
          congr 1
          funext v
          exact ih v
      | false =>
          have hSkip : ¬ constMap i = true := by simp [hi]
          simp only [List.foldlM_cons, unzipSlot, hi,
            Bool.false_eq_true, if_false,
            List.filter_cons_of_neg hSkip]
          exact ih u

theorem embedded_set
    (p : List Slot)
    (consts : List Nat)
    (j : Nat)
    (value : Slot)
    (hOther : j ∉ consts) :
    embedded (p.set j value) consts = embedded p consts := by
  apply List.filterMap_congr
  intro k hk
  have hNe : j ≠ k := by
    rintro rfl
    exact hOther hk
  rw [List.getElem?_set_ne hNe]

/- A value written after the first ones of a buffer. -/
theorem take_set_succ
    (buffer : List Slot)
    (c : Nat)
    (value : Slot)
    (hLess : c < buffer.length) :
    (buffer.set c value).take (c + 1) =
      buffer.take c ++ [value] := by
  have hSet : c < (buffer.set c value).length := by
    rwa [List.length_set]
  rw [List.take_add_one, List.take_set_of_le (Nat.le_refl c),
    List.getElem?_eq_getElem hSet, List.getElem_set_self]
  rfl

/-
  Moving the constants of distinct slots of the program: they
  follow one another in the buffer.
-/
theorem foldlM_unzipConst
    {consts : List Nat}
    (u : Unzipped)
    (hDistinct : consts.Nodup)
    (hIn : ∀ j ∈ consts, j < u.slots.length)
    (hRoom :
      u.constCount + consts.length ≤ u.fconst.length) :
    consts.foldlM unzipConst u =
      some
        { slots := cleared u.slots consts
          fconst :=
            u.fconst.take u.constCount ++
              embedded u.slots consts ++
                u.fconst.drop (u.constCount + consts.length)
          constCount := u.constCount + consts.length } := by
  induction consts generalizing u with
  | nil => simp [cleared, embedded]
  | cons j rest ih =>
      have hj := hIn j (by simp)
      rw [List.nodup_cons] at hDistinct
      rw [List.length_cons] at hRoom
      have hLess : u.constCount < u.fconst.length := by omega
      rw [List.foldlM_cons, unzipConst,
        List.getElem?_eq_getElem hj, Option.bind_some,
        if_pos hLess]
      simp only [Option.bind_eq_bind, Option.bind_some]
      rw [ih _ hDistinct.2]
      · simp only [List.length_cons, Option.some.injEq,
          Unzipped.mk.injEq]
        refine ⟨rfl, ?_, by omega⟩
        have hHead :
            embedded u.slots (j :: rest) =
              readFragmentImmVal u.slots[j] ::
                embedded u.slots rest := by
          simp [embedded, List.getElem?_eq_getElem hj]
        rw [take_set_succ _ _ _ hLess, hHead,
          embedded_set _ _ _ _ hDistinct.1,
          List.drop_set_of_lt (by omega)]
        simp only [List.append_assoc, List.cons_append,
          List.nil_append]
        rw [Nat.add_right_comm u.constCount 1 rest.length,
          Nat.add_assoc u.constCount rest.length 1]
      · intro k hk
        simpa using hIn k (by simp [hk])
      · simp only [List.length_set]
        omega

------------------------------------------------------------
-- Extraction along a Walk
------------------------------------------------------------

variable {H : Type} {p : List Slot} {limit pos stop : Nat}
variable {items : List (Nat × Item Bool)}

/- A constant takes two slots with its instruction. -/
theorem two_mul_constSlots_le
    (hWalk : Walk (scanItem p) limit pos items stop) :
    pos + 2 * (constSlots items).length ≤ stop := by
  induction hWalk with
  | done => exact Nat.le_refl _
  | last _ hItem =>
      have hSize := scanItem_size hItem
      rw [constSlots_cons]
      split
      case isTrue hValue =>
        rw [if_pos hValue] at hSize
        simp only [constSlots, List.filterMap_nil,
          List.length_cons, List.length_nil]
        omega
      case isFalse =>
        simp only [constSlots, List.filterMap_nil,
          List.length_nil]
        omega
  | more _ hItem _ _ ih =>
      have hSize := scanItem_size hItem
      rw [constSlots_cons]
      split
      case isTrue hValue =>
        rw [if_pos hValue] at hSize
        rw [List.length_cons]
        omega
      case isFalse => omega

theorem stop_le_of_mapped
    (hWalk : Walk (scanItem p) limit pos items stop)
    (hPos : pos ≤ fragmentProgramSlots)
    (hMapped : Mapped items) :
    stop ≤ fragmentProgramSlots := by
  induction hWalk with
  | done => exact hPos
  | @last pos i _ hItem =>
      have hRoom := hMapped (pos, i) (by simp)
      have hSize := scanItem_size hItem
      simp only at hRoom
      split at hSize <;> omega
  | @more pos stop i _ _ hItem _ _ ih =>
      have hRoom := hMapped (pos, i) (by simp)
      have hSize := scanItem_size hItem
      simp only at hRoom
      apply ih
      · split at hSize <;> omega
      · exact fun x hx => hMapped x (by simp [hx])

/- The buffer of constants, half a program, is large enough. -/
theorem length_constSlots_le
    (hWalk : Walk (scanItem p) limit 0 items stop)
    (hMapped : Mapped items) :
    (constSlots items).length ≤ fragmentProgramSlots / 2 := by
  have hCount := two_mul_constSlots_le hWalk
  have hStop := stop_le_of_mapped hWalk (Nat.zero_le _) hMapped
  omega

theorem unzip_of_walk
    (xxh64 : List Slot → H)
    (fconst : List Slot)
    (mrt : Bool)
    (hWalk :
      Walk (scanItem p) fragmentProgramSlots 0 items stop)
    (hMapped : Mapped items)
    (hIn : ∀ j ∈ constSlots items, j < p.length)
    (hRoom : (constSlots items).length ≤ fconst.length) :
    unzip xxh64 p fconst mrt =
      some
        ({ slots := cleared p (constSlots items)
           fconst :=
             embedded p (constSlots items) ++
               fconst.drop (constSlots items).length
           constCount := (constSlots items).length },
         { hash :=
             xxh64
               ((cleared p (constSlots items)).take stop)
           size := stop
           constCount := (constSlots items).length
           mrt }) := by
  have hInfo :
      getFragmentBytecodeInfo p =
        some
          ⟨fun j => decide (j ∈ constSlots items), stop⟩ :=
    (getFragmentBytecodeInfo_iff p _).mpr
      ⟨items, hWalk, hMapped, rfl⟩
  have hDistinct : (constSlots items).Nodup :=
    (pairwise_constSlots hWalk).imp (fun h => Nat.ne_of_lt h)
  have hMove :=
    foldlM_unzipConst ⟨p, fconst, 0⟩ hDistinct hIn
      (by rwa [Nat.zero_add])
  rw [unzip, hInfo, Option.bind_some, foldlM_unzipSlot,
    filter_constSlots hWalk, hMove]
  simp

/- The constants of a whole program are in the program. -/
theorem const_lt_of_mapped
    (hMapped : Mapped items)
    (hFull : p.length = fragmentProgramSlots) :
    ∀ j ∈ constSlots items, j < p.length := by
  intro j hj
  rcases (mem_constSlots _ _).mp hj with ⟨x, hx, -, rfl⟩
  rw [hFull]
  exact hMapped x hx

/-
  What the extraction of a whole program's constants leaves,
  if there is a walk that stays inside of the map.
-/
theorem unzip_cases
    {xxh64 : List Slot → H}
    {fconst : List Slot}
    {mrt : Bool}
    {u : Unzipped}
    {key : FragmentShaderKey H}
    (hUnzip : unzip xxh64 p fconst mrt = some (u, key))
    (hFull : p.length = fragmentProgramSlots)
    (hBuffer : fconst.length = fragmentProgramSlots / 2) :
    ∃ items stop,
      Walk (scanItem p) fragmentProgramSlots 0 items stop ∧
        Mapped items ∧
        u =
          { slots := cleared p (constSlots items)
            fconst :=
              embedded p (constSlots items) ++
                fconst.drop (constSlots items).length
            constCount := (constSlots items).length } ∧
        key =
          { hash :=
              xxh64
                ((cleared p (constSlots items)).take stop)
            size := stop
            constCount := (constSlots items).length
            mrt } := by
  have hInfo : (getFragmentBytecodeInfo p).isSome = true := by
    rw [Option.isSome_iff_ne_none]
    intro hNone
    rw [unzip, hNone] at hUnzip
    cases hUnzip
  rcases Option.isSome_iff_exists.mp hInfo with ⟨info, hSome⟩
  rcases (getFragmentBytecodeInfo_iff p info).mp hSome with
    ⟨items, hWalk, hMapped, -⟩
  have hRoom := length_constSlots_le hWalk hMapped
  have hResult :=
    unzip_of_walk xxh64 fconst mrt hWalk hMapped
      (const_lt_of_mapped hMapped hFull)
      (by rwa [hBuffer])
  rw [hUnzip] at hResult
  obtain ⟨rfl, rfl⟩ := Prod.mk.inj (Option.some.inj hResult)
  exact ⟨items, info.length, hWalk, hMapped, rfl, rfl⟩

/- A program without constants is walked through as before. -/
theorem walk_cleared
    (hWalk : Walk (scanItem p) limit pos items stop) :
    Walk (scanItem (cleared p (constSlots items))) limit pos
      items stop := by
  apply hWalk.congr
  intro q i hMem
  have hSame :
      (cleared p (constSlots items))[q]? = p[q]? := by
    rw [getElem?_cleared,
      if_neg (not_mem_constSlots hWalk hMem)]
  rw [scanItem, hSame]
  exact (hWalk.item_of_mem hMem).2

theorem cleared_cleared
    (p : List Slot)
    (consts : List Nat) :
    cleared (cleared p consts) consts = cleared p consts := by
  apply List.ext_getElem?
  intro j
  simp only [getElem?_cleared]
  split
  · rw [Option.map_map]
    rfl
  · rfl

/- The constants of a program that has lost them are zeros. -/
theorem embedded_cleared
    (p : List Slot)
    (consts : List Nat)
    (hIn : ∀ j ∈ consts, j < p.length) :
    embedded (cleared p consts) consts =
      List.replicate consts.length Slot.zero := by
  rw [List.eq_replicate_iff]
  constructor
  · apply length_embedded
    simpa using hIn
  · intro s hs
    rcases List.mem_filterMap.mp hs with ⟨j, hj, hValue⟩
    rw [getElem?_cleared, if_pos hj,
      List.getElem?_eq_getElem (hIn j hj)] at hValue
    exact (Option.some.inj hValue).symm

end Shaders

end Ps3emu
