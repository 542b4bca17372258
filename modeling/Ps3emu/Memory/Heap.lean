import Mathlib.Algebra.BigOperators.Group.List.Basic
import Mathlib.Data.List.Pairwise
import Mathlib.Order.Interval.Finset.Nat
import Ps3emu.Library.Transition
import Ps3emu.Memory.MainMemory
import Ps3emu.Utils.FindGap

/-
  The allocator of the guest heap: a map of 64 KB pages, the
  sizes of the blocks that were handed out, and the amount
  that is available.  A run keeps the list of live blocks
  next to the allocator's own state.

  Key definitions include:
    * `HeapMemoryAlloc.alloc`, `HeapMemoryAlloc.dealloc`
    * `Heap.Block`, `Heap.State`, `Heap.step`
    * `Heap.AllocOk`
    * `Heap.Inv`, `Heap.Sound`

  Key theorems include:
    * `Heap.Inv.alloc`, `Heap.Inv.dealloc`
    * `Heap.sound_of_run`
-/

------------------------------------------------------------
-- Allocator
------------------------------------------------------------

namespace Ps3emu

def kb64 : Nat := 64 * 1024

def heapArea : Ps3Uintptr := 0x30000000#32

def heapAreaSize : Nat := 0x10000000

/- The size of `_map`. -/
def heapPages : Nat := heapAreaSize / kb64

theorem heapPages_eq : heapPages = 4096 := rfl

/- The two alignments that `alloc` asserts. -/
inductive HeapAlignment where
  | kb64
  | mb1
deriving DecidableEq

namespace HeapAlignment

def bytes : HeapAlignment → Nat
  | kb64 => 64 * 1024
  | mb1 => 1024 * 1024

/- The binary logarithm of the alignment in pages. -/
def log : HeapAlignment → Nat
  | kb64 => 0
  | mb1 => 4

theorem bytes_eq (alignment : HeapAlignment) :
    alignment.bytes = 2 ^ alignment.log * 65536 := by
  cases alignment <;> rfl

theorem pages_eq (alignment : HeapAlignment) :
    alignment.bytes / Ps3emu.kb64 = 2 ^ alignment.log := by
  cases alignment <;> rfl

theorem two_pow_log_le (alignment : HeapAlignment) :
    2 ^ alignment.log ≤ 16 := by
  cases alignment <;> decide

end HeapAlignment

/-
  `map` is true at occupied pages.  Its cells from
  `heapPages` on stand for the memory after the vector,
  which an aligned scan may read and a block may cover.
-/
structure HeapMemoryAlloc where
  map : Nat → Bool
  known : Ps3Uintptr → Option Nat
  available : BitVec 32

namespace HeapMemoryAlloc

/- `std::fill` on a part of the map. -/
def fill
    (map : Nat → Bool)
    (first count : Nat)
    (value : Bool) : Nat → Bool :=
  fun i =>
    if first ≤ i ∧ i < first + count then value else map i

variable (alignUp : Nat → Nat → Nat)

/-
  `mm` is the memory the pointer of the block is taken from.
  A failed assertion is `none`, and a null result is `none`
  inside.
-/
def alloc
    (mm : MainMemory)
    (h : HeapMemoryAlloc)
    (size : BitVec 32)
    (alignment : HeapAlignment) :
    Option
      (HeapMemoryAlloc × Option (HostPointer × Ps3Uintptr)) :=
  let pages := alignUp size.toNat kb64 / kb64
  let it :=
    findGap alignUp (fun i => !h.map i) heapPages pages
      (alignment.bytes / kb64)
  if it = heapPages then some (h, none)
  else
    let va := heapArea + BitVec.ofNat 32 (it * kb64)
    (mm.getMemoryPointer va).bind (fun ptr =>
      if va &&& BitVec.ofNat 32 (alignment.bytes - 1) =
          0#32 then
        some
          ({ map := fill h.map it pages true
             known := Function.update h.known va (some pages)
             available :=
               h.available -
                 BitVec.ofNat 32 (pages * kb64) },
            some (ptr, va))
      else none)

/- An address that is not known throws. -/
def dealloc
    (h : HeapMemoryAlloc)
    (va : Ps3Uintptr) : Option HeapMemoryAlloc :=
  (h.known va).map (fun pages =>
    let page := (va - heapArea).toNat / kb64
    { map := fill h.map page pages false
      known := Function.update h.known va none
      available :=
        h.available + BitVec.ofNat 32 (pages * kb64) })

end HeapMemoryAlloc

------------------------------------------------------------
-- Runs
------------------------------------------------------------

namespace Heap

/- A block as it was requested and returned. -/
structure Block where
  va : Ps3Uintptr
  size : BitVec 32
  alignment : HeapAlignment
deriving DecidableEq

namespace Block

/- The pages the block needs. -/
def pages (b : Block) : Nat :=
  (b.size.toNat + 65535) / 65536

def firstPage (b : Block) : Nat :=
  (b.va - heapArea).toNat / kb64

/- The memory the block holds. -/
def held (b : Block) : Nat :=
  b.pages * kb64

end Block

/- The allocator with the blocks that are live. -/
structure State where
  heap : HeapMemoryAlloc
  live : List Block

inductive Op where
  | alloc (size : BitVec 32) (alignment : HeapAlignment)
  | dealloc (va : Ps3Uintptr)

def step
    (alignUp : Nat → Nat → Nat)
    (mm : MainMemory)
    (s : State) : Op → Option State
  | .alloc size alignment =>
      (s.heap.alloc alignUp mm size alignment).map
        (fun (heap, result) =>
          match result with
          | some (_, va) =>
              { heap, live := ⟨va, size, alignment⟩ :: s.live }
          | none => { heap, live := s.live })
  | .dealloc va =>
      (s.heap.dealloc va).map (fun heap =>
        { heap
          live := s.live.filter (fun b => b.va ≠ va) })

def Step
    (alignUp : Nat → Nat → Nat)
    (mm : MainMemory)
    (s : State)
    (op : Op)
    (t : State) : Prop :=
  step alignUp mm s op = some t

structure Initial (s : State) : Prop where
  map : ∀ i < heapPages, s.heap.map i = false
  known : ∀ va, s.heap.known va = none
  available :
    s.heap.available = BitVec.ofNat 32 heapAreaSize
  live : s.live = []

/- The first free page of an alignment. -/
abbrev FirstFree
    (s : State)
    (alignment : HeapAlignment)
    (c : Nat) : Prop :=
  FirstEmpty (fun i => !s.heap.map i) (2 ^ alignment.log) c

/-
  The condition on the state before an allocation.  The size
  can be rounded up in 32 bits, and an empty request finds
  the first page free.  If the scan has iterations enough
  left at the first free page of the alignment, then that
  page starts a run of free pages of the wanted length.
-/
structure AllocOk
    (s : State)
    (size : BitVec 32)
    (alignment : HeapAlignment) : Prop where
  rounds : size.toNat ≤ 0xffff0000
  zero : size.toNat = 0 → s.heap.map 0 = false
  gap :
    ∀ c pages,
      pages = (size.toNat + 65535) / 65536 →
      c < heapPages →
      FirstFree s alignment c →
      c + pages ≤ heapPages + 2 ^ alignment.log - 1 ∨
          (c = 0 ∧ pages ≤ heapPages + 1) →
      c + pages ≤ heapPages ∧
        ∀ i < pages, s.heap.map (c + i) = false

def OpOk (s : State) : Op → Prop
  | .alloc size alignment => AllocOk s size alignment
  | .dealloc _ => True

/- What is true of a live block. -/
structure BlockOk (h : HeapMemoryAlloc) (b : Block) :
    Prop where
  pos : 0 < b.pages
  va :
    b.va = heapArea + BitVec.ofNat 32 (b.firstPage * kb64)
  fits : b.firstPage + b.pages ≤ heapPages
  dvd : 2 ^ b.alignment.log ∣ b.firstPage
  full :
    ∀ i < b.pages, h.map (b.firstPage + i) = true
  known : h.known b.va = some b.pages

/- Two blocks have no page in common. -/
def Apart (a b : Block) : Prop :=
  a.firstPage + a.pages ≤ b.firstPage ∨
    b.firstPage + b.pages ≤ a.firstPage

structure Inv (s : State) : Prop where
  block : ∀ b ∈ s.live, BlockOk s.heap b
  apart : s.live.Pairwise Apart
  known :
    ∀ va pages, s.heap.known va = some pages →
      ∃ b ∈ s.live, b.va = va
  available :
    s.heap.available.toNat + (s.live.map Block.held).sum =
      heapAreaSize

variable {s : State}

theorem Inv.initial
    (hInitial : Initial s) :
    Inv s where
  block := by
    intro b hb
    rw [hInitial.live] at hb
    cases hb
  apart := by
    rw [hInitial.live]
    exact .nil
  known := by
    intro va pages hKnown
    rw [hInitial.known] at hKnown
    cases hKnown
  available := by
    rw [hInitial.live, hInitial.available]
    rfl

/- The address of a page, and the page of an address. -/
theorem toNat_pageVa
    (page : Nat)
    (hPage : page < heapPages) :
    (heapArea + BitVec.ofNat 32 (page * kb64)).toNat =
      0x30000000 + page * 65536 := by
  rw [heapPages_eq] at hPage
  have hBase : heapArea.toNat = 0x30000000 := rfl
  rw [toNat_add_ofNat _ _ (by unfold kb64; omega), hBase]
  rfl

theorem firstPage_of_va
    (page : Nat)
    (hPage : page < heapPages) :
    (heapArea + BitVec.ofNat 32 (page * kb64) -
        heapArea).toNat / kb64 =
      page := by
  have hVa := toNat_pageVa page hPage
  have hBase : heapArea.toNat = 0x30000000 := rfl
  rw [Masks.toNat_sub_of_le _ _ (by omega), hVa, hBase]
  unfold kb64
  omega

instance : Std.Symm Apart where
  symm _ _ hApart := hApart.symm

/- Blocks at one address have a page in common. -/
theorem Inv.eq_of_va_eq
    (hInv : Inv s)
    {a b : Block}
    (ha : a ∈ s.live)
    (hb : b ∈ s.live)
    (hVa : a.va = b.va) :
    a = b := by
  by_contra hNe
  have hPage : a.firstPage = b.firstPage := by
    unfold Block.firstPage
    rw [hVa]
  have haPos := (hInv.block a ha).pos
  have hbPos := (hInv.block b hb).pos
  rcases hInv.apart.forall ha hb hNe with hBelow | hBelow
  · omega
  · omega

theorem Inv.nodup
    (hInv : Inv s) :
    s.live.Nodup := by
  refine hInv.apart.imp_of_mem ?_
  rintro a b ha - hApart rfl
  have hPos := (hInv.block a ha).pos
  rcases hApart with hBelow | hBelow
  · omega
  · omega

------------------------------------------------------------
-- Allocation
------------------------------------------------------------

/- The pages of a list of blocks. -/
def covered : List Block → Finset Nat
  | [] => ∅
  | b :: rest =>
      Finset.Ico b.firstPage (b.firstPage + b.pages) ∪
        covered rest

theorem mem_covered
    (blocks : List Block)
    (i : Nat) :
    i ∈ covered blocks ↔
      ∃ b ∈ blocks,
        b.firstPage ≤ i ∧ i < b.firstPage + b.pages := by
  induction blocks with
  | nil => simp [covered]
  | cons b rest ih =>
      simp [covered, Finset.mem_union, Finset.mem_Ico, ih]

theorem card_covered
    {blocks : List Block}
    (hApart : blocks.Pairwise Apart) :
    (covered blocks).card = (blocks.map Block.pages).sum := by
  induction hApart with
  | nil => rfl
  | @cons b rest hHead hTail ih =>
      have hDisjoint :
          Disjoint
            (Finset.Ico b.firstPage (b.firstPage + b.pages))
            (covered rest) := by
        rw [Finset.disjoint_left]
        intro i hi hRest
        rw [Finset.mem_Ico] at hi
        rcases (mem_covered rest i).mp hRest with
          ⟨a, ha, hLower, hUpper⟩
        rcases hHead a ha with hBelow | hBelow
        · omega
        · omega
      rw [covered, Finset.card_union_of_disjoint hDisjoint,
        Nat.card_Ico, ih, List.map_cons, List.sum_cons]
      omega

/- Blocks apart inside the heap hold no more than it has. -/
theorem sum_pages_le
    {blocks : List Block}
    (hApart : blocks.Pairwise Apart)
    (hFits :
      ∀ b ∈ blocks, b.firstPage + b.pages ≤ heapPages) :
    (blocks.map Block.pages).sum ≤ heapPages := by
  rw [← card_covered hApart]
  have hSubset : covered blocks ⊆ Finset.range heapPages := by
    intro i hi
    rcases (mem_covered blocks i).mp hi with
      ⟨b, hb, hLower, hUpper⟩
    have hFit := hFits b hb
    exact Finset.mem_range.mpr (by omega)
  have hCard := Finset.card_le_card hSubset
  rwa [Finset.card_range] at hCard

theorem sum_held (blocks : List Block) :
    (blocks.map Block.held).sum =
      (blocks.map Block.pages).sum * kb64 := by
  induction blocks with
  | nil => rfl
  | cons b rest ih =>
      simp only [List.map_cons, List.sum_cons, ih,
        Block.held, Nat.add_mul]

/- The allocator after it has put a block on its pages. -/
def occupy (h : HeapMemoryAlloc) (b : Block) :
    HeapMemoryAlloc where
  map := HeapMemoryAlloc.fill h.map b.firstPage b.pages true
  known := Function.update h.known b.va (some b.pages)
  available :=
    h.available - BitVec.ofNat 32 (b.pages * kb64)

/- The allocator after it has taken a block back. -/
def release (h : HeapMemoryAlloc) (b : Block) :
    HeapMemoryAlloc where
  map := HeapMemoryAlloc.fill h.map b.firstPage b.pages false
  known := Function.update h.known b.va none
  available :=
    h.available + BitVec.ofNat 32 (b.pages * kb64)

section

variable (h : HeapMemoryAlloc) (b : Block)

@[simp] theorem occupy_map (i : Nat) :
    (occupy h b).map i =
      if b.firstPage ≤ i ∧ i < b.firstPage + b.pages then true
      else h.map i := rfl

@[simp] theorem release_map (i : Nat) :
    (release h b).map i =
      if b.firstPage ≤ i ∧ i < b.firstPage + b.pages then
        false
      else h.map i := rfl

@[simp] theorem occupy_known :
    (occupy h b).known =
      Function.update h.known b.va (some b.pages) := rfl

@[simp] theorem release_known :
    (release h b).known =
      Function.update h.known b.va none := rfl

@[simp] theorem occupy_available :
    (occupy h b).available =
      h.available - BitVec.ofNat 32 (b.pages * kb64) := rfl

@[simp] theorem release_available :
    (release h b).available =
      h.available + BitVec.ofNat 32 (b.pages * kb64) := rfl

end

/- A block put on free pages. -/
theorem Inv.put
    {b : Block}
    (hInv : Inv s)
    (hPos : 0 < b.pages)
    (hVa :
      b.va = heapArea + BitVec.ofNat 32 (b.firstPage * kb64))
    (hFits : b.firstPage + b.pages ≤ heapPages)
    (hDvd : 2 ^ b.alignment.log ∣ b.firstPage)
    (hFree :
      ∀ i < b.pages,
        s.heap.map (b.firstPage + i) = false) :
    Inv ⟨occupy s.heap b, b :: s.live⟩ := by
  have hApart : ∀ a ∈ s.live, Apart b a := by
    intro a ha
    have hFull := (hInv.block a ha).full
    by_contra hNot
    rw [Apart, not_or] at hNot
    -- the larger of the two first pages is in both blocks
    rcases Nat.le_total a.firstPage b.firstPage with
      hLe | hLe
    · have hTrue := hFull (b.firstPage - a.firstPage)
        (by omega)
      have hFalse := hFree 0 hPos
      rw [Nat.add_sub_cancel' hLe] at hTrue
      rw [Nat.add_zero, hTrue] at hFalse
      cases hFalse
    · have hTrue := hFull 0 (hInv.block a ha).pos
      have hFalse := hFree (a.firstPage - b.firstPage)
        (by omega)
      rw [Nat.add_sub_cancel' hLe] at hFalse
      rw [Nat.add_zero, hFalse] at hTrue
      cases hTrue
  have hOther : ∀ a ∈ s.live, a.va ≠ b.va := by
    intro a ha hEq
    have hPage : a.firstPage = b.firstPage := by
      unfold Block.firstPage
      rw [hEq]
    have haPos := (hInv.block a ha).pos
    rcases hApart a ha with hBelow | hBelow
    · omega
    · omega
  have hAll : (b :: s.live).Pairwise Apart :=
    List.pairwise_cons.mpr ⟨hApart, hInv.apart⟩
  refine ⟨?_, hAll, ?_, ?_⟩
  · intro a ha
    rcases List.mem_cons.mp ha with rfl | hOld
    · refine ⟨hPos, hVa, hFits, hDvd, ?_, ?_⟩
      · intro i hi
        simp [hi]
      · simp
    · have hOk := hInv.block a hOld
      refine
        ⟨hOk.pos, hOk.va, hOk.fits, hOk.dvd, ?_, ?_⟩
      · intro i hi
        have hFull := hOk.full i hi
        simp [hFull]
      · simpa [Function.update_of_ne (hOther a hOld)] using
          hOk.known
  · intro va pages hKnown
    by_cases hSame : va = b.va
    · exact ⟨b, List.mem_cons_self, hSame.symm⟩
    · simp only [occupy_known,
        Function.update_of_ne hSame] at hKnown
      rcases hInv.known va pages hKnown with ⟨a, ha, hEq⟩
      exact ⟨a, List.mem_cons_of_mem _ ha, hEq⟩
  · have hSum :=
      sum_pages_le hAll (by
        intro a ha
        rcases List.mem_cons.mp ha with rfl | hOld
        · exact hFits
        · exact (hInv.block a hOld).fits)
    have hAvailable := hInv.available
    rw [sum_held] at hAvailable ⊢
    simp only [List.map_cons, List.sum_cons] at hSum ⊢
    simp only [heapPages_eq, heapAreaSize, kb64,
      occupy_available] at hSum hAvailable ⊢
    have hLt := s.heap.available.isLt
    have hSub :
        (BitVec.ofNat 32 (b.pages * (64 * 1024))).toNat =
          b.pages * 65536 := by
      rw [BitVec.toNat_ofNat]
      omega
    rw [Masks.toNat_sub_of_le _ _ (by omega), hSub]
    omega

variable {alignUp : Nat → Nat → Nat}

/- The pages of a request that can be rounded up. -/
theorem pages_eq
    (hAlign : AlignUp alignUp)
    {size : Nat}
    (hSize : size ≤ 0xffff0000) :
    alignUp size kb64 / kb64 = (size + 65535) / 65536 := by
  have hEq :
      alignUp size 65536 = (size + 65535) / 65536 * 65536 :=
    hAlign.eq size 16 (by omega)
  unfold kb64
  rw [hEq]
  exact Nat.mul_div_cancel _ (by omega)

variable {alignment : HeapAlignment} {size : BitVec 32}

/-
  Where the scan stops, under the condition: at a run of
  free pages inside the heap.
-/
theorem gap_of_found
    (hAlign : AlignUp alignUp)
    {pages it : Nat}
    (hOk : AllocOk s size alignment)
    (hPages : pages = (size.toNat + 65535) / 65536)
    (hIt :
      findGap alignUp (fun i => !s.heap.map i) heapPages pages
        (2 ^ alignment.log) = it)
    (hFound : it ≠ heapPages) :
    0 < pages ∧ 2 ^ alignment.log ∣ it ∧
      it + pages ≤ heapPages ∧
      ∀ i < pages, s.heap.map (it + i) = false := by
  have hLog := alignment.two_pow_log_le
  have hWidth : 0 < pages := by
    by_contra hZero
    have hNone : pages = 0 := by omega
    have hFree := hOk.zero (by omega)
    apply hFound
    rw [← hIt, hNone]
    exact findGap_zero hAlign (by omega) (by simp [hFree])
  rw [← hIt] at hFound
  rcases findGap_spec hAlign hWidth
    (by rw [heapPages_eq]; omega) hFound with
    ⟨hFirst, hBound⟩
  rw [hIt] at hFirst hBound hFound
  have hInside : it < heapPages := by
    rw [heapPages_eq] at hBound hFound ⊢
    rcases hFirst.dvd with ⟨q, hq⟩
    cases alignment with
    | kb64 =>
        simp only [HeapAlignment.log, Nat.pow_zero] at hBound
        omega
    | mb1 =>
        have hPow : 2 ^ HeapAlignment.mb1.log = 16 := rfl
        rw [hPow] at hBound hq
        omega
  have hGap := hOk.gap it pages hPages hInside hFirst hBound
  exact ⟨hWidth, hFirst.dvd, hGap⟩

variable {mm : MainMemory}

theorem Inv.alloc
    (hAlign : AlignUp alignUp)
    {s t : State}
    (hInv : Inv s)
    (hOk : AllocOk s size alignment)
    (hStep : Step alignUp mm s (.alloc size alignment) t) :
    Inv t := by
  rcases Option.map_eq_some_iff.mp hStep with
    ⟨⟨heap, result⟩, hAlloc, rfl⟩
  simp only [HeapMemoryAlloc.alloc, HeapAlignment.pages_eq,
    pages_eq hAlign hOk.rounds] at hAlloc
  generalize hPages :
    (size.toNat + 65535) / 65536 = pages at hAlloc
  generalize hIt :
    findGap alignUp (fun i => !s.heap.map i) heapPages pages
      (2 ^ alignment.log) = it at hAlloc
  split at hAlloc
  case isTrue =>
    obtain ⟨rfl, rfl⟩ :=
      Prod.mk.inj (Option.some.inj hAlloc)
    exact hInv
  case isFalse hFound =>
    rcases gap_of_found hAlign hOk hPages.symm hIt hFound with
      ⟨hPos, hDvd, hFits, hFree⟩
    rcases Option.bind_eq_some_iff.mp hAlloc with
      ⟨ptr, hPtr, hResult⟩
    split at hResult
    case isFalse => cases hResult
    case isTrue hVa =>
      obtain ⟨rfl, rfl⟩ :=
        Prod.mk.inj (Option.some.inj hResult)
      have hFirst :
          Block.firstPage
              ⟨heapArea + BitVec.ofNat 32 (it * kb64), size,
                alignment⟩ =
            it :=
        firstPage_of_va it (by omega)
      have hCount :
          Block.pages
              ⟨heapArea + BitVec.ofNat 32 (it * kb64), size,
                alignment⟩ =
            pages := hPages
      have hPut :=
        @Inv.put s
          ⟨heapArea + BitVec.ofNat 32 (it * kb64), size,
            alignment⟩ hInv
      unfold occupy at hPut
      rw [hFirst, hCount] at hPut
      exact hPut hPos rfl hFits hDvd hFree

------------------------------------------------------------
-- Deallocation
------------------------------------------------------------

/- A live block is known under its address. -/
theorem dealloc_of_mem
    (hInv : Inv s)
    {b : Block}
    (hb : b ∈ s.live) :
    s.heap.dealloc b.va = some (release s.heap b) := by
  simp only [HeapMemoryAlloc.dealloc,
    (hInv.block b hb).known, Option.map_some]
  rfl

/- The other blocks are those at other addresses. -/
theorem filter_live
    (hInv : Inv s)
    {b : Block}
    (hb : b ∈ s.live) :
    s.live.filter (fun a => a.va ≠ b.va) =
      s.live.erase b := by
  rw [hInv.nodup.erase_eq_filter]
  apply List.filter_congr
  intro a ha
  by_cases hEq : a = b
  · simp [hEq]
  · have hVa : a.va ≠ b.va := by
      intro hSame
      exact hEq (hInv.eq_of_va_eq ha hb hSame)
    simp [hEq, hVa]

/- The amount that is available after a block is returned. -/
theorem available_of_mem
    (hInv : Inv s)
    {b : Block}
    (hb : b ∈ s.live) :
    (release s.heap b).available.toNat =
      s.heap.available.toNat + b.held := by
  have hAvailable := hInv.available
  have hSum := List.sum_map_erase Block.held hb
  have hHeld : b.held = b.pages * kb64 := rfl
  unfold heapAreaSize at hAvailable
  rw [release_available, toNat_add_ofNat _ _ (by omega),
    hHeld]

theorem Inv.remove
    (hInv : Inv s)
    {b : Block}
    (hb : b ∈ s.live) :
    Inv ⟨release s.heap b, s.live.erase b⟩ := by
  have hSub : (s.live.erase b).Sublist s.live :=
    List.erase_sublist
  refine ⟨?_, hInv.apart.sublist hSub, ?_, ?_⟩
  · intro a ha
    rcases (hInv.nodup.mem_erase_iff).mp ha with ⟨hNe, hOld⟩
    have hOk := hInv.block a hOld
    have hVa : a.va ≠ b.va := by
      intro hSame
      exact hNe (hInv.eq_of_va_eq hOld hb hSame)
    refine ⟨hOk.pos, hOk.va, hOk.fits, hOk.dvd, ?_, ?_⟩
    · intro i hi
      have hFull := hOk.full i hi
      have hOutside :
          ¬ (b.firstPage ≤ a.firstPage + i ∧
            a.firstPage + i < b.firstPage + b.pages) := by
        rcases hInv.apart.forall hOld hb hNe with
          hBelow | hBelow
        · omega
        · omega
      simp only [release_map, hOutside, if_false, hFull]
    · simpa [Function.update_of_ne hVa] using hOk.known
  · intro va pages hKnown
    by_cases hSame : va = b.va
    · simp [hSame] at hKnown
    · simp only [release_known,
        Function.update_of_ne hSame] at hKnown
      rcases hInv.known va pages hKnown with ⟨a, ha, hEq⟩
      refine ⟨a, hInv.nodup.mem_erase_iff.mpr ⟨?_, ha⟩, hEq⟩
      rintro rfl
      exact hSame hEq.symm
  · have hAvailable := hInv.available
    have hSum := List.sum_map_erase Block.held hb
    simp only [available_of_mem hInv hb]
    omega

theorem Inv.dealloc
    {s t : State}
    {va : Ps3Uintptr}
    (hInv : Inv s)
    (hStep : Step alignUp mm s (.dealloc va) t) :
    Inv t := by
  rcases Option.map_eq_some_iff.mp hStep with
    ⟨heap, hDealloc, rfl⟩
  have hKnown :
      ∃ pages, s.heap.known va = some pages := by
    rcases Option.map_eq_some_iff.mp hDealloc with
      ⟨pages, hPages, -⟩
    exact ⟨pages, hPages⟩
  rcases hKnown with ⟨pages, hPages⟩
  rcases hInv.known va pages hPages with ⟨b, hb, rfl⟩
  rw [dealloc_of_mem hInv hb] at hDealloc
  obtain rfl := Option.some.inj hDealloc
  rw [filter_live hInv hb]
  exact hInv.remove hb

theorem Inv.step
    (hAlign : AlignUp alignUp)
    {s t : State}
    {op : Op}
    (hInv : Inv s)
    (hOk : OpOk s op)
    (hStep : Step alignUp mm s op t) :
    Inv t := by
  cases op with
  | alloc size alignment =>
      exact hInv.alloc hAlign hOk hStep
  | dealloc va => exact hInv.dealloc hStep

------------------------------------------------------------
-- Soundness
------------------------------------------------------------

namespace Block

/- The addresses of the block end before `finish`. -/
def finish (b : Block) : Nat :=
  b.va.toNat + b.held

end Block

/- Deallocation of a live block, and of nothing else. -/
structure Returns
    (alignUp : Nat → Nat → Nat)
    (mm : MainMemory)
    (s : State)
    (b : Block)
    (t : State) : Prop where
  step : Step alignUp mm s (.dealloc b.va) t
  live : ∀ a, a ∈ t.live ↔ a ∈ s.live ∧ a ≠ b
  free :
    ∀ i, b.firstPage ≤ i → i < b.firstPage + b.pages →
      t.heap.map i = false
  other :
    ∀ i, i < b.firstPage ∨ b.firstPage + b.pages ≤ i →
      t.heap.map i = s.heap.map i
  available :
    t.heap.available.toNat =
      s.heap.available.toNat + b.held

/- What a guest may rely on. -/
structure Sound
    (alignUp : Nat → Nat → Nat)
    (mm : MainMemory)
    (s : State) : Prop where
  disjoint :
    s.live.Pairwise (fun a b =>
      a.finish ≤ b.va.toNat ∨ b.finish ≤ a.va.toNat)
  size : ∀ b ∈ s.live, b.size.toNat ≤ b.held
  inside :
    ∀ b ∈ s.live,
      heapArea.toNat ≤ b.va.toNat ∧
        b.finish ≤ heapArea.toNat + heapAreaSize
  aligned : ∀ b ∈ s.live, b.alignment.bytes ∣ b.va.toNat
  available :
    s.heap.available.toNat + (s.live.map Block.held).sum =
      heapAreaSize
  dealloc : ∀ b ∈ s.live, ∃ t, Returns alignUp mm s b t
  unknown :
    ∀ va, (∀ b ∈ s.live, b.va ≠ va) →
      step alignUp mm s (.dealloc va) = none

/- The addresses of a block follow its pages. -/
theorem BlockOk.toNat_va
    {h : HeapMemoryAlloc}
    {b : Block}
    (hOk : BlockOk h b) :
    b.va.toNat = 0x30000000 + b.firstPage * 65536 := by
  have hPos := hOk.pos
  have hFits := hOk.fits
  have hVa := toNat_pageVa b.firstPage (by omega)
  rwa [← hOk.va] at hVa

theorem Inv.returns
    (hInv : Inv s)
    {b : Block}
    (hb : b ∈ s.live) :
    ∃ t, Returns alignUp mm s b t := by
  have hDealloc := @dealloc_of_mem s hInv b hb
  refine ⟨⟨release s.heap b, s.live.erase b⟩, ?_⟩
  refine ⟨?_, ?_, ?_, ?_, ?_⟩
  · unfold Step Heap.step
    simp only [hDealloc, Option.map_some,
      filter_live hInv hb]
  · intro a
    simp only [hInv.nodup.mem_erase_iff]
    exact and_comm
  · intro i hLower hUpper
    simp [hLower, hUpper]
  · intro i hOutside
    have hNot :
        ¬ (b.firstPage ≤ i ∧ i < b.firstPage + b.pages) := by
      omega
    simp only [release_map, hNot, if_false]
  · exact available_of_mem hInv hb

theorem Inv.sound
    (hInv : Inv s) :
    Sound alignUp mm s where
  disjoint := by
    refine hInv.apart.imp_of_mem ?_
    intro a b ha hb hApart
    have haVa := (hInv.block a ha).toNat_va
    have hbVa := (hInv.block b hb).toNat_va
    unfold Block.finish Block.held kb64
    rcases hApart with hBelow | hBelow
    · left
      omega
    · right
      omega
  size := by
    intro b hb
    unfold Block.held Block.pages kb64
    omega
  inside := by
    intro b hb
    have hVa := (hInv.block b hb).toNat_va
    have hFits := (hInv.block b hb).fits
    have hBase : heapArea.toNat = 0x30000000 := rfl
    rw [heapPages_eq] at hFits
    unfold Block.finish Block.held kb64 heapAreaSize
    omega
  aligned := by
    intro b hb
    have hOk := hInv.block b hb
    have hBase : b.alignment.bytes ∣ 0x30000000 := by
      cases b.alignment with
      | kb64 => decide
      | mb1 => decide
    rw [hOk.toNat_va]
    apply Nat.dvd_add hBase
    rw [HeapAlignment.bytes_eq]
    exact Nat.mul_dvd_mul_right hOk.dvd 65536
  available := hInv.available
  dealloc := by
    intro b hb
    exact hInv.returns hb
  unknown := by
    intro va hNone
    have hKnown : s.heap.known va = none := by
      rw [Option.eq_none_iff_forall_ne_some]
      intro pages hPages
      rcases hInv.known va pages hPages with ⟨b, hb, hVa⟩
      exact hNone b hb hVa
    simp [Heap.step, HeapMemoryAlloc.dealloc, hKnown]

/-
  Along calls that meet the condition the allocator stays
  sound.
-/
theorem sound_of_run
    {alignUp : Nat → Nat → Nat}
    {mm : MainMemory}
    (hAlign : AlignUp alignUp)
    {start s : State}
    {ops : List Op}
    (hInitial : Initial start)
    (hRun :
      Transition.Run
        (Transition.restrict (Step alignUp mm)
          (fun s op _ => OpOk s op))
        start ops s) :
    Sound alignUp mm s := by
  have hInv : Inv s := by
    apply hRun.invariant Inv
    · rintro s op t hInv ⟨hStep, hOk⟩
      exact hInv.step hAlign hOk hStep
    · exact Inv.initial hInitial
  exact hInv.sound

/- The constructor, and rounding with enough bits. -/
def start : State where
  heap :=
    { map := fun _ => false
      known := fun _ => none
      available := BitVec.ofNat 32 heapAreaSize }
  live := []

theorem initial_start : Initial start :=
  ⟨fun _ _ => rfl, fun _ => rfl, rfl, rfl⟩

def roundUp (value alignment : Nat) : Nat :=
  (value + (alignment - 1)) / alignment * alignment

theorem alignUp_roundUp : AlignUp roundUp :=
  ⟨fun _ _ _ => rfl⟩

/- A request on the empty heap finds the first page. -/
theorem AllocOk.of_start
    (hSize : size.toNat ≤ heapAreaSize) :
    AllocOk start size alignment where
  rounds := by
    unfold heapAreaSize at hSize
    omega
  zero := by
    intro _
    rfl
  gap := by
    rintro c pages rfl hInside hFirst -
    have hZero : c = 0 := by
      by_contra hPos
      have hFull := hFirst.full 0 (by omega) (Nat.dvd_zero _)
      cases hFull
    unfold heapAreaSize at hSize
    refine ⟨?_, fun _ _ => rfl⟩
    rw [heapPages_eq]
    omega

theorem sound_of_run_first :
    ∃ s,
      Transition.Run
          (Transition.restrict
            (Step roundUp MainMemory.reset)
            (fun s op _ => OpOk s op))
          start [.alloc 0x18000#32 .mb1] s ∧
        Sound roundUp MainMemory.reset s := by
  have hSome :
      (step roundUp MainMemory.reset start
        (.alloc 0x18000#32 .mb1)).isSome = true := by
    decide +kernel
  rcases Option.isSome_iff_exists.mp hSome with ⟨s, hStep⟩
  have hRun :
      Transition.Run
        (Transition.restrict
          (Step roundUp MainMemory.reset)
          (fun s op _ => OpOk s op))
        start [.alloc 0x18000#32 .mb1] s :=
    .snoc .nil ⟨hStep, AllocOk.of_start (by decide)⟩
  exact
    ⟨s, hRun,
      sound_of_run alignUp_roundUp initial_start hRun⟩

/- Run calls in order. -/
def exec
    (s : State) : List Op → Option State
  | [] => some s
  | op :: rest =>
      (step roundUp MainMemory.reset s op).bind (fun t =>
        exec t rest)

theorem run_of_exec
    {s t : State}
    {ops : List Op}
    (hExec : exec s ops = some t) :
    Transition.Run (Step roundUp MainMemory.reset) s ops
      t := by
  induction ops generalizing s with
  | nil =>
      obtain rfl := Option.some.inj hExec
      exact .nil
  | cons op rest ih =>
      rcases Option.bind_eq_some_iff.mp hExec with
        ⟨u, hFirst, hRest⟩
      exact .cons hFirst (ih hRest)

/-
  Two blocks of one page, the first of them returned, and
  then a block of two pages, which covers the second.
-/
def fragmented : List Op :=
  [.alloc 0x10000#32 .kb64, .alloc 0x10000#32 .kb64,
    .dealloc 0x30000000#32, .alloc 0x20000#32 .kb64]

theorem fragmented_not_sound :
    ¬ ∀ (alignUp : Nat → Nat → Nat) (mm : MainMemory)
        (start s : State) (ops : List Op),
        AlignUp alignUp →
        Initial start →
        Transition.Run (Step alignUp mm) start ops s →
        Sound alignUp mm s := by
  intro hAll
  have hExec :
      (exec start fragmented).map
        (fun s => s.live.map (fun b =>
          (b.va.toNat, b.finish))) =
        some
          [(0x30000000, 0x30020000),
            (0x30010000, 0x30020000)] := by
    decide +kernel
  rcases Option.map_eq_some_iff.mp hExec with
    ⟨s, hRun, hLive⟩
  have hSound :=
    hAll roundUp MainMemory.reset start s fragmented
      alignUp_roundUp initial_start (run_of_exec hRun)
  have hDisjoint := hSound.disjoint
  rcases List.map_eq_cons_iff.mp hLive with
    ⟨a, rest, hList, ha, hRest⟩
  rcases List.map_eq_cons_iff.mp hRest with
    ⟨b, none, rfl, hb, -⟩
  rw [hList, List.pairwise_cons] at hDisjoint
  have hPair := hDisjoint.1 b List.mem_cons_self
  simp only [Prod.mk.injEq] at ha hb
  omega

end Heap

end Ps3emu
