import Mathlib.Algebra.Group.Nat.Defs
import Mathlib.Logic.Function.Basic
import Mathlib.Tactic.Common
import Ps3emu.Library.Fallible
import Ps3emu.Library.Transition

/-
  The table of `gcm.cpp` between effective addresses and the
  offsets at which the RSX sees them, in pages of a megabyte.

  Key definitions include:
    * `OffsetTable`, `OffsetTable.step`, `rsxOffsetToEa`
    * `Mapping`, `IoMap`, `IoMap.step`
    * `OffsetTable.Consistent`, `OffsetTable.KeepsMap`
    * `IoMap.Admits`

  Key theorems include:
    * `OffsetTable.writePages_eq`
    * `OffsetTable.step_iff`
    * `OffsetTable.keepsMap_iff`
-/

------------------------------------------------------------
-- Tables
------------------------------------------------------------

namespace Ps3emu

/- An index is outside its array, or an assertion fails. -/
inductive TableFault where
  | outOfRange
  | assertion
deriving DecidableEq

/-
  Three arrays: the offset page of an address page, the
  address page of an offset page, and the number of pages of
  the mapping that starts at an offset page.
-/
structure OffsetTable where
  ioAddress : Nat → BitVec 16
  eaAddress : Nat → BitVec 16
  mapPageCount : Nat → BitVec 16

namespace OffsetTable

/- The size of `ioAddress`. -/
def eaPages : Nat := 0xbff

/- The size of `eaAddress` and of `mapPageCount`. -/
def ioPages : Nat := 511

def reset : OffsetTable where
  ioAddress := fun _ => 0xffff
  eaAddress := fun _ => 0xffff
  mapPageCount := fun _ => 0

/- `a[i]`, with the index checked. -/
def get
    (size : Nat)
    (a : Nat → BitVec 16)
    (i : Nat) : Except TableFault (BitVec 16) :=
  if i < size then .ok (a i) else .error .outOfRange

/- `(page << 20) | ((address << 12) >> 12)`. -/
def joinPage (page : BitVec 16) (address : BitVec 32) : BitVec 32 :=
  (page.setWidth 32 <<< 20) ||| ((address <<< 12) >>> 12)

/- `address >> 20`. -/
def pageOf (address : BitVec 32) : Nat :=
  (address >>> 20).toNat

def eaToOffset
    (s : OffsetTable)
    (ea : BitVec 32) : Except TableFault (BitVec 32) :=
  (get eaPages s.ioAddress (pageOf ea)).map
    (fun io => joinPage io ea)

def offsetToEa
    (s : OffsetTable)
    (offset : BitVec 32) : Except TableFault (BitVec 32) :=
  (get ioPages s.eaAddress (pageOf offset)).map
    (fun ea => joinPage ea offset)

/-
  The loop of `map`, with the page itself as the entry, and
  of `unmapEa`, with `0xffff`.
-/
def writePages
    (entry : Nat → BitVec 16) :
    Nat → Nat → Nat → OffsetTable →
      Except TableFault OffsetTable
  | 0, _, _, s => .ok s
  | n + 1, ea, io, s =>
      if ea < eaPages ∧ io < ioPages then
        writePages entry n (ea + 1) (io + 1)
          { s with
            ioAddress :=
              Function.update s.ioAddress ea (entry io)
            eaAddress :=
              Function.update s.eaAddress io (entry ea) }
      else .error .outOfRange

def unmapEa
    (s : OffsetTable)
    (ea : BitVec 32) : Except TableFault OffsetTable := do
  let io ← get eaPages s.ioAddress (pageOf ea)
  if io = 0xffff then .error .assertion
  else
    let count ← get ioPages s.mapPageCount io.toNat
    if count = 0 then .error .assertion
    else
      let t ←
        writePages (fun _ => 0xffff) count.toNat (pageOf ea)
          io.toNat s
      .ok
        { t with
          mapPageCount :=
            Function.update t.mapPageCount io.toNat 0 }

def unmapOffset
    (s : OffsetTable)
    (offset : BitVec 32) : Except TableFault OffsetTable := do
  let ea ← s.offsetToEa offset
  s.unmapEa ea

/- The low bits of an address or of a size are zero. -/
def Aligned (x : BitVec 32) : Prop := x &&& 0xfffff = 0

instance (x : BitVec 32) : Decidable (Aligned x) :=
  inferInstanceAs (Decidable (_ = _))

def map
    (s : OffsetTable)
    (ea io size : BitVec 32) : Except TableFault OffsetTable :=
  if Aligned size ∧ Aligned ea then
    if pageOf io < ioPages then
      writePages (BitVec.ofNat 16) (size.toNat / 2 ^ 20)
        (pageOf ea) (pageOf io)
        { s with
          mapPageCount :=
            Function.update s.mapPageCount (pageOf io)
              (BitVec.ofNat 16 (size.toNat / 2 ^ 20)) }
    else .error .outOfRange
  else .error .assertion

/- The system calls, and the two translations. -/
inductive Op where
  | iomap (localOffset mainMemEa size : BitVec 32)
  | iounmap (localOffset size : BitVec 64)
  | eaToOffset (ea : BitVec 32)
  | offsetToEa (offset : BitVec 32)

/-
  `sys_rsx_context_iomap` first calls `provideMemory`, which
  asserts that the page is not the last one of all.
-/
def perform
    (s : OffsetTable) : Op → Except TableFault OffsetTable
  | .iomap localOffset mainMemEa size =>
      if pageOf mainMemEa < 4095 then
        s.map mainMemEa localOffset size
      else .error .assertion
  | .iounmap localOffset _ =>
      s.unmapOffset (localOffset.setWidth 32)
  | .eaToOffset ea => (s.eaToOffset ea).map (fun _ => s)
  | .offsetToEa offset =>
      (s.offsetToEa offset).map (fun _ => s)

def step (s : OffsetTable) (op : Op) : Option OffsetTable :=
  (s.perform op).toOption

end OffsetTable

------------------------------------------------------------
-- Mappings
------------------------------------------------------------

/- Pages of addresses, mapped to pages of offsets. -/
structure Mapping where
  ea : Nat
  io : Nat
  pages : Nat
deriving DecidableEq

namespace Mapping

def HasIo (m : Mapping) (q : Nat) : Prop :=
  m.io ≤ q ∧ q < m.io + m.pages

def HasEa (m : Mapping) (e : Nat) : Prop :=
  m.ea ≤ e ∧ e < m.ea + m.pages

instance (m : Mapping) (q : Nat) : Decidable (m.HasIo q) :=
  inferInstanceAs (Decidable (_ ∧ _))

instance (m : Mapping) (e : Nat) : Decidable (m.HasEa e) :=
  inferInstanceAs (Decidable (_ ∧ _))

/- The address page of an offset page. -/
def eaOf (m : Mapping) (q : Nat) : Nat := m.ea + (q - m.io)

end Mapping

/-
  The mapping that each offset page belongs to, and the one
  that starts at each offset page and has not been unmapped.
-/
structure IoMap where
  owner : Nat → Option Mapping
  named : Nat → Option Mapping

namespace IoMap

def start : IoMap where
  owner := fun _ => none
  named := fun _ => none

/- The latest mapping takes its offset and address pages. -/
def map (i : IoMap) (m : Mapping) : IoMap where
  owner := fun q =>
    if m.HasIo q then some m
    else (i.owner q).filter (fun old => ¬ m.HasEa (old.eaOf q))
  named := Function.update i.named m.io (some m)

/- The pages of the mapping that starts at a page are free. -/
def unmap (i : IoMap) (q : Nat) : IoMap :=
  match i.named q with
  | none => i
  | some m =>
      { owner := fun q => (i.owner q).filter (fun old => old ≠ m)
        named := Function.update i.named q none }

def mapping (io ea size : BitVec 32) : Mapping where
  ea := ea.toNat / 2 ^ 20
  io := io.toNat / 2 ^ 20
  pages := size.toNat / 2 ^ 20

def step (i : IoMap) : OffsetTable.Op → IoMap
  | .iomap localOffset mainMemEa size =>
      i.map (mapping localOffset mainMemEa size)
  | .iounmap localOffset _ =>
      i.unmap (localOffset.toNat / 2 ^ 20)
  | .eaToOffset _ => i
  | .offsetToEa _ => i

def after (ops : List OffsetTable.Op) : IoMap :=
  ops.foldl step start

/- The address page that an offset page is mapped to. -/
def eaPage (i : IoMap) (q : Nat) : Option Nat :=
  (i.owner q).map (fun m => m.eaOf q)

/- The page count of the mapping that starts at a page. -/
def pageCount (i : IoMap) (q : Nat) : Nat :=
  match i.named q with
  | none => 0
  | some m => m.pages

/-
  The pages are inside the arrays.  An old page is replaced
  together with the page that it is mapped to.
-/
structure AdmitsMap (i : IoMap) (m : Mapping) : Prop where
  io : m.io < OffsetTable.ioPages
  pages :
    m.pages = 0 ∨
      m.io + m.pages ≤ OffsetTable.ioPages ∧
        m.ea + m.pages ≤ OffsetTable.eaPages
  whole :
    ∀ q old, i.owner q = some old →
      (m.HasIo q ↔ m.HasEa (old.eaOf q))

/-
  A mapping of some pages starts there, still has its first
  page, and no other mapping has taken any of its pages.
-/
def AdmitsUnmap (i : IoMap) (q : Nat) : Prop :=
  ∃ m,
    i.named q = some m ∧ 0 < m.pages ∧ i.owner q = some m ∧
      ∀ p old, i.owner p = some old →
        m.HasIo p ∨ m.HasEa (old.eaOf p) → old = m

def Admissible (i : IoMap) : OffsetTable.Op → Prop
  | .iomap localOffset mainMemEa size =>
      OffsetTable.Aligned size ∧
        OffsetTable.Aligned mainMemEa ∧
          OffsetTable.pageOf mainMemEa < 4095 ∧
            i.AdmitsMap (mapping localOffset mainMemEa size)
  | .iounmap localOffset _ =>
      i.AdmitsUnmap (localOffset.toNat / 2 ^ 20)
  | .eaToOffset ea =>
      OffsetTable.pageOf ea < OffsetTable.eaPages
  | .offsetToEa offset =>
      OffsetTable.pageOf offset < OffsetTable.ioPages

/- Every operation is admissible where it is performed. -/
def Admits : IoMap → List OffsetTable.Op → Prop
  | _, [] => True
  | i, op :: rest => i.Admissible op ∧ Admits (i.step op) rest

end IoMap

------------------------------------------------------------
-- Specification and Pages
------------------------------------------------------------

namespace OffsetTable

/- The entry of a page that is mapped, or not. -/
def entryOf : Option Nat → BitVec 16
  | none => 0xffff
  | some page => BitVec.ofNat 16 page

/-
  The arrays are inverse to each other.  They hold the latest
  mapping of every page and the page count of the mappings,
  and a mapped address is translated there and back.
-/
structure Consistent (i : IoMap) (s : OffsetTable) : Prop where
  inverse :
    ∀ e q, e < eaPages → q < ioPages →
      (s.ioAddress e = BitVec.ofNat 16 q ↔
        s.eaAddress q = BitVec.ofNat 16 e)
  latest :
    ∀ q, q < ioPages → s.eaAddress q = entryOf (i.eaPage q)
  pageCount :
    ∀ q, q < ioPages →
      (s.mapPageCount q).toNat = i.pageCount q
  roundTrip :
    ∀ (ea : BitVec 32) q, i.eaPage q = some (pageOf ea) →
      ∃ offset,
        s.eaToOffset ea = .ok offset ∧
          s.offsetToEa offset = .ok ea

/- No operation fails, and the table is always consistent. -/
def KeepsMap (ops : List Op) : Prop :=
  ∀ before rest, ops = before ++ rest →
    ∃ s,
      Transition.exec step reset before = some s ∧
        Consistent (IoMap.after before) s

theorem pageOf_eq (address : BitVec 32) :
    pageOf address = address.toNat / 2 ^ 20 := by
  rw [pageOf, BitVec.toNat_ushiftRight, Nat.shiftRight_eq_div_pow]

theorem ofNat_inj
    {a b : Nat}
    (hA : a < 0x10000)
    (hB : b < 0x10000) :
    BitVec.ofNat 16 a = BitVec.ofNat 16 b ↔ a = b := by
  constructor
  · intro hEq
    have hNat := congrArg BitVec.toNat hEq
    rw [BitVec.toNat_ofNat, BitVec.toNat_ofNat] at hNat
    omega
  · rintro rfl
    rfl

theorem ofNat_ne_free
    {a : Nat}
    (hA : a < 0xffff) :
    BitVec.ofNat 16 a ≠ 0xffff := by
  have hFree : (0xffff : BitVec 16) = BitVec.ofNat 16 0xffff :=
    rfl
  rw [hFree, Ne, ofNat_inj (by omega) (by omega)]
  omega

theorem toNat_joinPage
    (page : BitVec 16)
    (address : BitVec 32) :
    (joinPage page address).toNat =
      page.toNat % 4096 * 2 ^ 20 + address.toNat % 2 ^ 20 := by
  have hAddress := address.isLt
  have hHigh :
      (page.setWidth 32 <<< 20).toNat =
        (page.toNat % 4096) <<< 20 := by
    rw [BitVec.toNat_shiftLeft, BitVec.toNat_setWidth,
      Nat.shiftLeft_eq, Nat.shiftLeft_eq]
    omega
  have hLow :
      ((address <<< 12) >>> 12).toNat =
        address.toNat % 2 ^ 20 := by
    rw [BitVec.toNat_ushiftRight, BitVec.toNat_shiftLeft,
      Nat.shiftLeft_eq, Nat.shiftRight_eq_div_pow]
    omega
  rw [joinPage, BitVec.toNat_or, hHigh, hLow,
    ← Nat.shiftLeft_add_eq_or_of_lt
      (Nat.mod_lt _ (Nat.two_pow_pos 20)),
    Nat.shiftLeft_eq]

theorem get_ok
    {size i : Nat}
    (hLt : i < size)
    (a : Nat → BitVec 16) :
    get size a i = .ok (a i) :=
  if_pos hLt

variable {s : OffsetTable}

/- A translation finds a page and keeps the low bits. -/
theorem eaToOffset_ok
    {ea : BitVec 32}
    (hLt : pageOf ea < eaPages) :
    s.eaToOffset ea =
      .ok (joinPage (s.ioAddress (pageOf ea)) ea) := by
  rw [eaToOffset, get_ok hLt]
  rfl

theorem offsetToEa_ok
    {offset : BitVec 32}
    (hLt : pageOf offset < ioPages) :
    s.offsetToEa offset =
      .ok (joinPage (s.eaAddress (pageOf offset)) offset) := by
  rw [offsetToEa, get_ok hLt]
  rfl

theorem pageOf_joinPage
    (page : BitVec 16)
    (address : BitVec 32) :
    pageOf (joinPage page address) = page.toNat % 4096 := by
  rw [pageOf_eq, toNat_joinPage]
  omega

theorem joinPage_joinPage
    {page : BitVec 16}
    (other : BitVec 16)
    {address : BitVec 32}
    (hAddress : pageOf address = page.toNat) :
    joinPage page (joinPage other address) = address := by
  have hLt := address.isLt
  apply BitVec.eq_of_toNat_eq
  rw [pageOf_eq] at hAddress
  rw [toNat_joinPage, toNat_joinPage]
  omega

/- The page of an entry, read as an address. -/
theorem pageOf_joinPage_ofNat
    {page : Nat}
    (hLt : page < 4096)
    (address : BitVec 32) :
    pageOf (joinPage (BitVec.ofNat 16 page) address) = page := by
  rw [pageOf_joinPage, BitVec.toNat_ofNat]
  omega

------------------------------------------------------------
-- Loops
------------------------------------------------------------

/- The pages that a loop writes are inside the arrays. -/
def Fits (ea io n : Nat) : Prop :=
  n = 0 ∨ io + n ≤ ioPages ∧ ea + n ≤ eaPages

def written
    (entry : Nat → BitVec 16)
    (n ea io : Nat)
    (s : OffsetTable) : OffsetTable :=
  { s with
    ioAddress := fun e =>
      if ea ≤ e ∧ e < ea + n then entry (io + (e - ea))
      else s.ioAddress e
    eaAddress := fun q =>
      if io ≤ q ∧ q < io + n then entry (ea + (q - io))
      else s.eaAddress q }

theorem written_zero
    (entry : Nat → BitVec 16)
    (ea io : Nat)
    (s : OffsetTable) :
    written entry 0 ea io s = s := by
  have hNone : ∀ a b : Nat, ¬ (a ≤ b ∧ b < a + 0) := by omega
  unfold written
  simp only [hNone, if_false]

theorem written_succ
    (entry : Nat → BitVec 16)
    (n ea io : Nat)
    (s : OffsetTable) :
    written entry n (ea + 1) (io + 1)
        { s with
          ioAddress := Function.update s.ioAddress ea (entry io)
          eaAddress :=
            Function.update s.eaAddress io (entry ea) } =
      written entry (n + 1) ea io s := by
  have hPages :
      ∀ (a : Nat → BitVec 16) (x y : Nat),
        (fun k =>
            if x + 1 ≤ k ∧ k < x + 1 + n then
              entry (y + 1 + (k - (x + 1)))
            else Function.update a x (entry y) k) =
          fun k =>
            if x ≤ k ∧ k < x + (n + 1) then
              entry (y + (k - x))
            else a k := by
    intro a x y
    funext k
    rw [Function.update_apply]
    by_cases hHere : k = x
    · subst hHere
      rw [if_neg (by omega), if_pos rfl, if_pos (by omega),
        Nat.sub_self, Nat.add_zero]
    · rw [if_neg hHere]
      by_cases hIn : x ≤ k ∧ k < x + (n + 1)
      · rw [if_pos hIn, if_pos (by omega)]
        congr 1
        omega
      · rw [if_neg hIn, if_neg (by omega)]
  unfold written
  dsimp only
  rw [hPages, hPages]

theorem writePages_eq
    {entry : Nat → BitVec 16}
    {n ea io : Nat}
    (hFits : Fits ea io n) :
    writePages entry n ea io s =
      .ok (written entry n ea io s) := by
  induction n generalizing ea io s with
  | zero => rw [written_zero, writePages]
  | succ n ih =>
      have hBound := hFits.resolve_left (Nat.succ_ne_zero n)
      have hRest : Fits (ea + 1) (io + 1) n :=
        .inr ⟨by omega, by omega⟩
      rw [writePages, if_pos ⟨by omega, by omega⟩, ih hRest,
        written_succ]

theorem fits_of_writePages
    {entry : Nat → BitVec 16}
    {n ea io : Nat}
    {s t : OffsetTable}
    (hWrite : writePages entry n ea io s = .ok t) :
    Fits ea io n := by
  induction n generalizing ea io s with
  | zero => exact .inl rfl
  | succ n ih =>
      rw [writePages] at hWrite
      split at hWrite
      case isTrue hLt =>
        right
        rcases ih hWrite with rfl | hBound
        · omega
        · omega
      case isFalse => cases hWrite

end OffsetTable

------------------------------------------------------------
-- Invariant
------------------------------------------------------------

open OffsetTable (ioPages eaPages Fits)

/- Mappings stay inside, and no address page is used twice. -/
structure IoMap.WF (i : IoMap) : Prop where
  inside :
    ∀ q m, i.owner q = some m →
      m.HasIo q ∧ m.io + m.pages ≤ ioPages ∧
        m.ea + m.pages ≤ eaPages
  inj :
    ∀ q p m n, i.owner q = some m → i.owner p = some n →
      m.eaOf q = n.eaOf p → q = p
  named :
    ∀ q m, i.named q = some m →
      m.io = q ∧ q < ioPages ∧ Fits m.ea m.io m.pages

theorem IoMap.wf_start : IoMap.start.WF where
  inside q m hOwner := by cases hOwner
  inj q p m n hOwner := by cases hOwner
  named q m hNamed := by cases hNamed

theorem IoMap.WF.bounds
    {i : IoMap}
    (hWF : i.WF)
    {q : Nat}
    {m : Mapping}
    (hOwner : i.owner q = some m) :
    q < ioPages ∧ m.eaOf q < eaPages := by
  rcases hWF.inside q m hOwner with ⟨⟨hLe, hLt⟩, hIo, hEa⟩
  unfold Mapping.eaOf
  omega

theorem Mapping.hasEa_eaOf
    {m : Mapping}
    {q : Nat}
    (hIo : m.HasIo q) :
    m.HasEa (m.eaOf q) := by
  unfold Mapping.HasIo at hIo
  unfold Mapping.HasEa Mapping.eaOf
  omega

namespace OffsetTable

/- What the arrays hold, page by page. -/
structure Agrees (i : IoMap) (s : OffsetTable) : Prop where
  ea :
    ∀ q, q < ioPages → s.eaAddress q = entryOf (i.eaPage q)
  ioMapped :
    ∀ q m, i.owner q = some m →
      s.ioAddress (m.eaOf q) = BitVec.ofNat 16 q
  ioFree :
    ∀ e, e < eaPages →
      (∀ q m, i.owner q = some m → m.eaOf q ≠ e) →
        s.ioAddress e = 0xffff
  count :
    ∀ q, q < ioPages →
      s.mapPageCount q = BitVec.ofNat 16 (i.pageCount q)

theorem agrees_start : Agrees IoMap.start reset where
  ea _ _ := rfl
  ioMapped q m hOwner := by cases hOwner
  ioFree _ _ _ := rfl
  count _ _ := rfl

theorem ioPages_lt : ioPages < 4096 := by decide

theorem eaPages_lt : eaPages < 4096 := by decide

variable {i : IoMap}

theorem pageCount_lt
    (hWF : i.WF)
    (q : Nat) :
    i.pageCount q ≤ ioPages := by
  unfold IoMap.pageCount
  split
  case h_1 => exact Nat.zero_le _
  case h_2 m hNamed =>
    rcases hWF.named q m hNamed with ⟨-, -, hZero | hBound⟩
    · rw [hZero]
      exact Nat.zero_le _
    · omega

theorem eaPage_eq_some
    {q e : Nat} :
    i.eaPage q = some e ↔
      ∃ m, i.owner q = some m ∧ m.eaOf q = e :=
  Option.map_eq_some_iff

variable {s : OffsetTable}

/- The table holds what the specification asks for. -/
theorem Agrees.consistent
    (hWF : i.WF)
    (hAgrees : Agrees i s) :
    Consistent i s := by
  have hIoPages := ioPages_lt
  have hEaPages := eaPages_lt
  constructor
  · intro e q hE hQ
    rw [hAgrees.ea q hQ]
    constructor
    · intro hIo
      by_cases hMapped :
          ∃ p m, i.owner p = some m ∧ m.eaOf p = e
      · rcases hMapped with ⟨p, m, hOwner, rfl⟩
        rw [hAgrees.ioMapped p m hOwner] at hIo
        have hBounds := hWF.bounds hOwner
        rw [ofNat_inj (by omega) (by omega)] at hIo
        subst hIo
        rw [eaPage_eq_some.mpr ⟨m, hOwner, rfl⟩]
        rfl
      · have hFree := hAgrees.ioFree e hE
          (fun p m hOwner hEa => hMapped ⟨p, m, hOwner, hEa⟩)
        rw [hFree] at hIo
        exact absurd hIo.symm (ofNat_ne_free (by omega))
    · intro hEa
      cases hPage : i.eaPage q with
      | none =>
          rw [hPage] at hEa
          exact absurd hEa.symm (ofNat_ne_free (by omega))
      | some page =>
          rcases eaPage_eq_some.mp hPage with ⟨m, hOwner, rfl⟩
          rw [hPage] at hEa
          have hBounds := hWF.bounds hOwner
          have hSame :=
            (ofNat_inj (by omega) (by omega)).mp hEa
          rw [← hSame]
          exact hAgrees.ioMapped q m hOwner
  · exact hAgrees.ea
  · intro q hQ
    have hLe := pageCount_lt hWF q
    rw [hAgrees.count q hQ, BitVec.toNat_ofNat]
    omega
  · intro ea q hPage
    rcases eaPage_eq_some.mp hPage with ⟨m, hOwner, hEa⟩
    have hBounds := hWF.bounds hOwner
    rw [hEa] at hBounds
    have hIo := hAgrees.ioMapped q m hOwner
    rw [hEa] at hIo
    have hE :
        (BitVec.ofNat 16 (pageOf ea)).toNat = pageOf ea := by
      rw [BitVec.toNat_ofNat]
      omega
    have hOffset :
        pageOf (joinPage (BitVec.ofNat 16 q) ea) = q :=
      pageOf_joinPage_ofNat (by omega) ea
    refine
      ⟨joinPage (BitVec.ofNat 16 q) ea, ?_, ?_⟩
    · rw [eaToOffset_ok hBounds.2, hIo]
    · rw [offsetToEa_ok (by omega), hOffset,
        hAgrees.ea q hBounds.1, hPage, entryOf,
        joinPage_joinPage _ hE.symm]

------------------------------------------------------------
-- Maps
------------------------------------------------------------

variable {m : Mapping}

/- The owners after a map that replaces whole pairs. -/
theorem owner_map
    (hAdmits : i.AdmitsMap m)
    (q : Nat) :
    (i.map m).owner q =
      if m.HasIo q then some m else i.owner q := by
  unfold IoMap.map
  dsimp only
  split
  case isTrue => rfl
  case isFalse hNot =>
    cases hOwner : i.owner q with
    | none => rfl
    | some old =>
        have hEa : ¬ m.HasEa (old.eaOf q) :=
          fun hEa => hNot ((hAdmits.whole q old hOwner).mpr hEa)
        rw [Option.filter_some, if_pos (decide_eq_true hEa)]

theorem wf_map
    (hWF : i.WF)
    (hAdmits : i.AdmitsMap m) :
    (i.map m).WF := by
  constructor
  · intro q n hOwner
    rw [owner_map hAdmits] at hOwner
    split at hOwner
    case isTrue hIo =>
      cases hOwner
      refine ⟨hIo, ?_⟩
      rcases hAdmits.pages with hZero | hBound
      · have hSome := hIo
        unfold Mapping.HasIo at hSome
        omega
      · exact hBound
    case isFalse => exact hWF.inside q n hOwner
  · intro q p n k hFirst hSecond hEa
    rw [owner_map hAdmits] at hFirst hSecond
    by_cases hQ : m.HasIo q
    · rw [if_pos hQ] at hFirst
      cases hFirst
      by_cases hP : m.HasIo p
      · rw [if_pos hP] at hSecond
        cases hSecond
        unfold Mapping.HasIo at hQ hP
        unfold Mapping.eaOf at hEa
        omega
      · rw [if_neg hP] at hSecond
        have hHas := Mapping.hasEa_eaOf hQ
        rw [hEa] at hHas
        exact absurd ((hAdmits.whole p k hSecond).mpr hHas) hP
    · rw [if_neg hQ] at hFirst
      by_cases hP : m.HasIo p
      · rw [if_pos hP] at hSecond
        cases hSecond
        have hHas := Mapping.hasEa_eaOf hP
        rw [← hEa] at hHas
        exact absurd ((hAdmits.whole q n hFirst).mpr hHas) hQ
      · rw [if_neg hP] at hSecond
        exact hWF.inj q p n k hFirst hSecond hEa
  · intro q n hNamed
    unfold IoMap.map at hNamed
    dsimp only at hNamed
    rw [Function.update_apply] at hNamed
    split at hNamed
    case isTrue hHere =>
      cases hNamed
      exact ⟨hHere.symm, hHere ▸ hAdmits.io, hAdmits.pages⟩
    case isFalse => exact hWF.named q n hNamed

/- The table after a map. -/
def mapped (s : OffsetTable) (m : Mapping) : OffsetTable :=
  written (BitVec.ofNat 16) m.pages m.ea m.io
    { s with
      mapPageCount :=
        Function.update s.mapPageCount m.io
          (BitVec.ofNat 16 m.pages) }

theorem ioAddress_mapped
    (s : OffsetTable)
    (m : Mapping)
    (e : Nat) :
    (s.mapped m).ioAddress e =
      if m.HasEa e then BitVec.ofNat 16 (m.io + (e - m.ea))
      else s.ioAddress e := rfl

theorem eaAddress_mapped
    (s : OffsetTable)
    (m : Mapping)
    (q : Nat) :
    (s.mapped m).eaAddress q =
      if m.HasIo q then BitVec.ofNat 16 (m.eaOf q)
      else s.eaAddress q := rfl

theorem agrees_map
    (hAgrees : Agrees i s)
    (hAdmits : i.AdmitsMap m) :
    Agrees (i.map m) (s.mapped m) := by
  constructor
  · intro q hQ
    rw [eaAddress_mapped, IoMap.eaPage, owner_map hAdmits]
    split
    case isTrue => rfl
    case isFalse => exact hAgrees.ea q hQ
  · intro q n hOwner
    rw [owner_map hAdmits] at hOwner
    split at hOwner
    case isTrue hIo =>
      cases hOwner
      rw [ioAddress_mapped, if_pos (Mapping.hasEa_eaOf hIo)]
      unfold Mapping.HasIo at hIo
      congr 1
      unfold Mapping.eaOf
      omega
    case isFalse hIo =>
      have hEa : ¬ m.HasEa (n.eaOf q) :=
        fun hEa => hIo ((hAdmits.whole q n hOwner).mpr hEa)
      rw [ioAddress_mapped, if_neg hEa]
      exact hAgrees.ioMapped q n hOwner
  · intro e hE hFree
    have hOutside : ¬ m.HasEa e := by
      intro hEa
      have hIo : m.HasIo (m.io + (e - m.ea)) := by
        unfold Mapping.HasEa at hEa
        unfold Mapping.HasIo
        omega
      refine hFree (m.io + (e - m.ea)) m ?_ ?_
      · rw [owner_map hAdmits, if_pos hIo]
      · unfold Mapping.HasEa at hEa
        unfold Mapping.eaOf
        omega
    rw [ioAddress_mapped, if_neg hOutside]
    apply hAgrees.ioFree e hE
    rintro q n hOwner rfl
    by_cases hIo : m.HasIo q
    · exact hOutside ((hAdmits.whole q n hOwner).mp hIo)
    · refine hFree q n ?_ rfl
      rw [owner_map hAdmits, if_neg hIo]
      exact hOwner
  · intro q hQ
    unfold IoMap.pageCount IoMap.map mapped written
    dsimp only
    rw [Function.update_apply, Function.update_apply]
    split
    case isTrue => rfl
    case isFalse => exact hAgrees.count q hQ

/- A map leaves stale pages unless it replaces whole pairs. -/
theorem whole_of_consistent
    (hWF : i.WF)
    (hAgrees : Agrees i s)
    (hPages : Fits m.ea m.io m.pages)
    (hConsistent : Consistent (i.map m) (s.mapped m))
    (q : Nat)
    (old : Mapping)
    (hOwner : i.owner q = some old) :
    m.HasIo q ↔ m.HasEa (old.eaOf q) := by
  have hIoPages := ioPages_lt
  have hEaPages := eaPages_lt
  have hBounds := hWF.bounds hOwner
  have hInverse :=
    hConsistent.inverse (old.eaOf q) q hBounds.2 hBounds.1
  rw [ioAddress_mapped, eaAddress_mapped] at hInverse
  have hOldEa :
      s.eaAddress q = BitVec.ofNat 16 (old.eaOf q) := by
    rw [hAgrees.ea q hBounds.1,
      eaPage_eq_some.mpr ⟨old, hOwner, rfl⟩]
    rfl
  rw [hAgrees.ioMapped q old hOwner, hOldEa] at hInverse
  by_cases hIo : m.HasIo q
  · refine iff_of_true hIo ?_
    by_contra hEa
    rw [if_neg hEa, if_pos hIo] at hInverse
    have hHas := Mapping.hasEa_eaOf hIo
    have hSame := hInverse.mp rfl
    have hBound : m.eaOf q < 4096 := by
      unfold Mapping.HasEa at hHas
      rcases hPages with hZero | hBound <;> omega
    rw [ofNat_inj (by omega) (by omega)] at hSame
    rw [hSame] at hHas
    exact hEa hHas
  · refine iff_of_false hIo ?_
    intro hEa
    rw [if_pos hEa, if_neg hIo] at hInverse
    have hSame := hInverse.mpr rfl
    have hBound :
        m.io + (old.eaOf q - m.ea) < 4096 ∧
          m.HasIo (m.io + (old.eaOf q - m.ea)) := by
      unfold Mapping.HasEa at hEa
      unfold Mapping.HasIo
      rcases hPages with hZero | hBound <;> omega
    rw [ofNat_inj (by omega) (by omega)] at hSame
    rw [hSame] at hBound
    exact hIo hBound.2

------------------------------------------------------------
-- Unmaps
------------------------------------------------------------

/- The table after the pages of a mapping are unmapped. -/
def unmapped (s : OffsetTable) (ea io n : Nat) : OffsetTable :=
  { written (fun _ => 0xffff) n ea io s with
    mapPageCount := Function.update s.mapPageCount io 0 }

theorem ioAddress_unmapped
    (s : OffsetTable)
    (m : Mapping)
    (e : Nat) :
    (s.unmapped m.ea m.io m.pages).ioAddress e =
      if m.HasEa e then 0xffff else s.ioAddress e := rfl

theorem eaAddress_unmapped
    (s : OffsetTable)
    (m : Mapping)
    (q : Nat) :
    (s.unmapped m.ea m.io m.pages).eaAddress q =
      if m.HasIo q then 0xffff else s.eaAddress q := rfl

theorem get_eq_ok
    {size i : Nat}
    {a : Nat → BitVec 16}
    {v : BitVec 16} :
    get size a i = .ok v ↔ i < size ∧ a i = v := by
  unfold get
  split
  case isTrue hLt =>
    rw [Except.ok.injEq]
    exact (and_iff_right hLt).symm
  case isFalse hLt =>
    refine iff_of_false ?_ (fun hBoth => hLt hBoth.1)
    intro hOk
    cases hOk

theorem writePages_eq_ok
    {entry : Nat → BitVec 16}
    {n ea io : Nat}
    {s t : OffsetTable} :
    writePages entry n ea io s = .ok t ↔
      Fits ea io n ∧ written entry n ea io s = t := by
  constructor
  · intro hOk
    have hFits := fits_of_writePages hOk
    rw [writePages_eq hFits] at hOk
    exact ⟨hFits, Except.ok.inj hOk⟩
  · rintro ⟨hFits, rfl⟩
    exact writePages_eq hFits

/- What an unmap that comes back has found, and has done. -/
structure Unmaps (s : OffsetTable) (e : Nat) : Prop where
  ea : e < eaPages
  mapped : s.ioAddress e ≠ 0xffff
  io : (s.ioAddress e).toNat < ioPages
  count : s.mapPageCount (s.ioAddress e).toNat ≠ 0
  fits :
    Fits e (s.ioAddress e).toNat
      (s.mapPageCount (s.ioAddress e).toNat).toNat

theorem unmapEa_eq_ok
    {s t : OffsetTable}
    {ea : BitVec 32} :
    s.unmapEa ea = .ok t ↔
      s.Unmaps (pageOf ea) ∧
        s.unmapped (pageOf ea)
            (s.ioAddress (pageOf ea)).toNat
            (s.mapPageCount
              (s.ioAddress (pageOf ea)).toNat).toNat =
          t := by
  unfold unmapEa
  rw [Fallible.bind_eq_ok]
  constructor
  · rintro ⟨io, hGet, hRest⟩
    rcases get_eq_ok.mp hGet with ⟨hEa, rfl⟩
    split at hRest
    case isTrue => cases hRest
    case isFalse hMapped =>
      rcases Fallible.bind_eq_ok.mp hRest with
        ⟨count, hGet, hRest⟩
      rcases get_eq_ok.mp hGet with ⟨hIo, rfl⟩
      split at hRest
      case isTrue => cases hRest
      case isFalse hCount =>
        rcases Fallible.bind_eq_ok.mp hRest with
          ⟨u, hWrite, hRest⟩
        rcases writePages_eq_ok.mp hWrite with ⟨hFits, rfl⟩
        cases hRest
        exact ⟨⟨hEa, hMapped, hIo, hCount, hFits⟩, rfl⟩
  · rintro ⟨⟨hEa, hMapped, hIo, hCount, hFits⟩, rfl⟩
    refine ⟨_, get_ok hEa _, ?_⟩
    rw [if_neg hMapped, Fallible.bind_eq_ok]
    refine ⟨_, get_ok hIo _, ?_⟩
    rw [if_neg hCount, Fallible.bind_eq_ok]
    exact ⟨_, writePages_eq hFits, rfl⟩

/- The owners after the pages of a mapping are free. -/
theorem owner_unmap
    {q : Nat}
    (hNamed : i.named q = some m)
    {p : Nat}
    {old : Mapping} :
    (i.unmap q).owner p = some old ↔
      i.owner p = some old ∧ old ≠ m := by
  unfold IoMap.unmap
  rw [hNamed]
  dsimp only
  rw [Option.filter_eq_some_iff, decide_eq_true_eq]

theorem wf_unmap
    {q : Nat}
    (hWF : i.WF) :
    (i.unmap q).WF := by
  cases hNamed : i.named q with
  | none =>
      unfold IoMap.unmap
      rw [hNamed]
      exact hWF
  | some m =>
      constructor
      · intro p n hOwner
        exact hWF.inside p n ((owner_unmap hNamed).mp hOwner).1
      · intro p p' n n' hFirst hSecond
        exact
          hWF.inj p p' n n' ((owner_unmap hNamed).mp hFirst).1
            ((owner_unmap hNamed).mp hSecond).1
      · intro p n hOld
        unfold IoMap.unmap at hOld
        rw [hNamed] at hOld
        dsimp only at hOld
        rw [Function.update_apply] at hOld
        split at hOld
        case isTrue => cases hOld
        case isFalse => exact hWF.named p n hOld

theorem agrees_unmap
    (hWF : i.WF)
    (hAgrees : Agrees i s)
    (hNamed : i.named m.io = some m)
    (hAlone :
      ∀ p old, i.owner p = some old →
        m.HasIo p ∨ m.HasEa (old.eaOf p) → old = m) :
    Agrees (i.unmap m.io) (s.unmapped m.ea m.io m.pages) := by
  constructor
  · intro p hP
    rw [eaAddress_unmapped]
    cases hPage : (i.unmap m.io).eaPage p with
    | some e =>
        rcases eaPage_eq_some.mp hPage with ⟨n, hOwner, hEa⟩
        rcases (owner_unmap hNamed).mp hOwner with ⟨hOld, hNe⟩
        rw [if_neg (fun hIo => hNe (hAlone p n hOld (.inl hIo))),
          hAgrees.ea p hP,
          eaPage_eq_some.mpr ⟨n, hOld, hEa⟩]
    | none =>
        split
        case isTrue => rfl
        case isFalse hIo =>
          rw [hAgrees.ea p hP]
          cases hOld : i.eaPage p with
          | none => rfl
          | some e =>
              rcases eaPage_eq_some.mp hOld with
                ⟨n, hOwner, hEa⟩
              have hNe : n ≠ m := by
                rintro rfl
                exact hIo (hWF.inside p n hOwner).1
              rw [eaPage_eq_some.mpr
                ⟨n, (owner_unmap hNamed).mpr ⟨hOwner, hNe⟩,
                  hEa⟩] at hPage
              cases hPage
  · intro p n hOwner
    rcases (owner_unmap hNamed).mp hOwner with ⟨hOld, hNe⟩
    rw [ioAddress_unmapped,
      if_neg (fun hEa => hNe (hAlone p n hOld (.inr hEa)))]
    exact hAgrees.ioMapped p n hOld
  · intro e hE hFree
    rw [ioAddress_unmapped]
    split
    case isTrue => rfl
    case isFalse hEa =>
      apply hAgrees.ioFree e hE
      rintro p n hOwner rfl
      by_cases hSame : n = m
      · subst hSame
        exact
          hEa (Mapping.hasEa_eaOf (hWF.inside p n hOwner).1)
      · exact
          hFree p n ((owner_unmap hNamed).mpr ⟨hOwner, hSame⟩)
            rfl
  · intro p hP
    unfold unmapped IoMap.pageCount IoMap.unmap
    rw [hNamed]
    dsimp only
    rw [Function.update_apply, Function.update_apply]
    split
    case isTrue => rfl
    case isFalse => exact hAgrees.count p hP

/- An unmap of a mapping that still has its first page. -/
theorem unmapOffset_of_admits
    (hWF : i.WF)
    (hAgrees : Agrees i s)
    {offset : BitVec 32}
    (hAdmits : i.AdmitsUnmap (pageOf offset)) :
    ∃ t, s.unmapOffset offset = .ok t ∧
      Agrees (i.unmap (pageOf offset)) t := by
  have hIoPages := ioPages_lt
  have hEaPages := eaPages_lt
  rcases hAdmits with ⟨m, hNamed, hPos, hOwner, hAlone⟩
  rcases hWF.named _ m hNamed with ⟨hIo, hLt, hFits⟩
  have hBounds := hWF.bounds hOwner
  have hFirst : m.eaOf (pageOf offset) = m.ea := by
    unfold Mapping.eaOf
    omega
  rw [hFirst] at hBounds
  have hEa :
      s.eaAddress (pageOf offset) = BitVec.ofNat 16 m.ea := by
    rw [hAgrees.ea _ hLt,
      eaPage_eq_some.mpr ⟨m, hOwner, hFirst⟩]
    rfl
  have hPage :
      pageOf (joinPage (BitVec.ofNat 16 m.ea) offset) = m.ea :=
    pageOf_joinPage_ofNat (by omega) offset
  have hIoAddress :
      s.ioAddress m.ea = BitVec.ofNat 16 m.io := by
    have hOld := hAgrees.ioMapped _ m hOwner
    rw [hFirst, ← hIo] at hOld
    exact hOld
  have hIoNat : (BitVec.ofNat 16 m.io).toNat = m.io := by
    rw [BitVec.toNat_ofNat]
    omega
  have hCount :
      s.mapPageCount m.io = BitVec.ofNat 16 m.pages := by
    rw [hAgrees.count _ (by omega), IoMap.pageCount, hIo, hNamed]
  have hPages : m.pages ≤ ioPages := by
    rcases hFits with hZero | hBound <;> omega
  have hCountNat :
      (BitVec.ofNat 16 m.pages).toNat = m.pages := by
    rw [BitVec.toNat_ofNat]
    omega
  refine ⟨s.unmapped m.ea m.io m.pages, ?_, ?_⟩
  · unfold unmapOffset
    rw [offsetToEa_ok hLt, hEa, Fallible.bind_eq_ok]
    refine ⟨_, rfl, unmapEa_eq_ok.mpr ?_⟩
    rw [hPage, hIoAddress, hIoNat, hCount, hCountNat]
    refine ⟨⟨hBounds.2, ?_, ?_, ?_, ?_⟩, rfl⟩
    · rw [hIoAddress]
      exact ofNat_ne_free (by omega)
    · rw [hIoAddress, hIoNat]
      omega
    · rw [hIoAddress, hIoNat, hCount]
      intro hZero
      have hNat := congrArg BitVec.toNat hZero
      rw [hCountNat] at hNat
      exact Nat.ne_of_gt hPos hNat
    · rw [hIoAddress, hIoNat, hCount, hCountNat]
      exact hFits
  · rw [← hIo] at hNamed ⊢
    exact agrees_unmap hWF hAgrees hNamed hAlone

/-
  An unmap that leaves the table consistent has named a
  mapping, whose count it found.
-/
theorem named_of_unmaps
    (hWF : i.WF)
    (hAgrees : Agrees i s)
    {e Q : Nat}
    (hUnmaps : s.Unmaps e)
    (hConsistent :
      Consistent (i.unmap Q)
        (s.unmapped e (s.ioAddress e).toNat
          (s.mapPageCount (s.ioAddress e).toNat).toNat)) :
    ∃ m,
      i.named Q = some m ∧ 0 < m.pages ∧
        (s.ioAddress e).toNat = Q ∧
          (s.mapPageCount (s.ioAddress e).toNat).toNat =
            m.pages := by
  have hIoPages := ioPages_lt
  have hCount := hConsistent.pageCount _ hUnmaps.io
  unfold unmapped at hCount
  dsimp only at hCount
  rw [Function.update_self] at hCount
  have hOld := hAgrees.count _ hUnmaps.io
  have hNe := hUnmaps.count
  have hLe := pageCount_lt hWF (s.ioAddress e).toNat
  cases hNamed : i.named (s.ioAddress e).toNat with
  | none =>
      rw [IoMap.pageCount, hNamed] at hOld
      exact absurd hOld hNe
  | some m =>
      rw [IoMap.pageCount, hNamed] at hOld hLe
      dsimp only at hOld hLe
      have hPos : 0 < m.pages := by
        apply Nat.pos_of_ne_zero
        intro hZero
        rw [hZero] at hOld
        exact hNe hOld
      have hSame : (s.ioAddress e).toNat = Q := by
        by_contra hOther
        -- the mapping at the other page would still be named
        have hKept :
            (i.unmap Q).named (s.ioAddress e).toNat =
              some m := by
          unfold IoMap.unmap
          split
          case h_1 => exact hNamed
          case h_2 =>
            dsimp only
            rw [Function.update_of_ne hOther]
            exact hNamed
        rw [IoMap.pageCount, hKept] at hCount
        exact Nat.ne_of_gt hPos hCount.symm
      refine ⟨m, hSame ▸ hNamed, hPos, hSame, ?_⟩
      rw [hOld, BitVec.toNat_ofNat]
      omega

theorem admitsUnmap_of_consistent
    {s t : OffsetTable}
    (hWF : i.WF)
    (hAgrees : Agrees i s)
    {offset : BitVec 64}
    (hOk : s.unmapOffset (offset.setWidth 32) = .ok t)
    (hConsistent :
      Consistent (i.unmap (offset.toNat / 2 ^ 20)) t) :
    i.AdmitsUnmap (offset.toNat / 2 ^ 20) := by
  have hIoPages := ioPages_lt
  have hEaPages := eaPages_lt
  rcases Fallible.bind_eq_ok.mp hOk with ⟨ea, hEa, hUnmap⟩
  rcases Fallible.map_eq_ok.mp hEa with ⟨a, hGet, rfl⟩
  rcases get_eq_ok.mp hGet with ⟨hQ, rfl⟩
  rcases unmapEa_eq_ok.mp hUnmap with ⟨hUnmaps, rfl⟩
  rcases named_of_unmaps hWF hAgrees hUnmaps hConsistent with
    ⟨m, hNamed, hPos, hIo, hCount⟩
  rcases hWF.named _ m hNamed with ⟨hStart, hLt, hFits⟩
  have hPage :
      pageOf (offset.setWidth 32) = offset.toNat / 2 ^ 20 := by
    unfold ioPages at hLt
    rw [pageOf_eq, BitVec.toNat_setWidth]
    omega
  rw [hCount, hIo, ← hStart] at hConsistent
  rw [hPage] at hUnmaps hIo hConsistent
  rw [← hStart] at hUnmaps hIo hConsistent hNamed hLt
  rw [← hStart]
  -- the first page has an owner, or its page would be outside
  cases hOwner : i.owner m.io with
  | none =>
      have hFree : s.eaAddress m.io = 0xffff := by
        rw [hAgrees.ea _ hLt, IoMap.eaPage, hOwner]
        rfl
      have hOutside := hUnmaps.ea
      rw [hFree, pageOf_joinPage] at hOutside
      exact absurd hOutside (by decide)
  | some n =>
      have hBounds := hWF.bounds hOwner
      have hEaPage :
          s.eaAddress m.io = BitVec.ofNat 16 (n.eaOf m.io) := by
        rw [hAgrees.ea _ hLt,
          eaPage_eq_some.mpr ⟨n, hOwner, rfl⟩]
        rfl
      rw [hEaPage, pageOf_joinPage_ofNat (by omega)]
        at hConsistent
      have hHas : m.HasIo m.io := by
        unfold Mapping.HasIo
        omega
      have hNotOld :
          ∀ p old, i.owner p = some old → old ≠ m →
            (i.unmap m.io).eaPage p = some (old.eaOf p) := by
        intro p old hOld hNe
        exact
          eaPage_eq_some.mpr
            ⟨old, (owner_unmap hNamed).mpr ⟨hOld, hNe⟩, rfl⟩
      have hCleared :
          ∀ p old, i.owner p = some old → m.HasIo p →
            old = m := by
        intro p old hOld hIn
        by_contra hNe
        have hBoundsOld := hWF.bounds hOld
        have hLatest := hConsistent.latest p hBoundsOld.1
        rw [hNotOld p old hOld hNe] at hLatest
        change (if m.HasIo p then 0xffff else _) = _ at hLatest
        rw [if_pos hIn] at hLatest
        exact ofNat_ne_free (by omega) hLatest.symm
      obtain rfl := hCleared m.io n hOwner hHas
      have hFirst : n.eaOf n.io = n.ea := by
        unfold Mapping.eaOf
        omega
      rw [hFirst] at hConsistent
      refine ⟨n, hNamed, hPos, hOwner, ?_⟩
      rintro p old hOld (hIn | hIn)
      · exact hCleared p old hOld hIn
      · by_contra hNe
        have hBoundsOld := hWF.bounds hOld
        have hLatest := hConsistent.latest p hBoundsOld.1
        rw [hNotOld p old hOld hNe] at hLatest
        have hInverse :=
          (hConsistent.inverse (old.eaOf p) p hBoundsOld.2
            hBoundsOld.1).mpr hLatest
        rw [ioAddress_unmapped, if_pos hIn] at hInverse
        exact ofNat_ne_free (by omega) hInverse.symm

------------------------------------------------------------
-- Operations
------------------------------------------------------------

theorem map_eq_ok
    {s t : OffsetTable}
    {ea io size : BitVec 32} :
    s.map ea io size = .ok t ↔
      (Aligned size ∧ Aligned ea) ∧
        (IoMap.mapping io ea size).io < ioPages ∧
          Fits (IoMap.mapping io ea size).ea
              (IoMap.mapping io ea size).io
              (IoMap.mapping io ea size).pages ∧
            s.mapped (IoMap.mapping io ea size) = t := by
  unfold map IoMap.mapping
  rw [pageOf_eq, pageOf_eq]
  split
  case isTrue hAligned =>
    rw [and_iff_right hAligned]
    split
    case isTrue hIo =>
      rw [and_iff_right hIo]
      exact writePages_eq_ok
    case isFalse hIo =>
      refine iff_of_false ?_ (fun hAll => hIo hAll.1)
      intro hOk
      cases hOk
  case isFalse hAligned =>
    refine iff_of_false ?_ (fun hAll => hAligned hAll.1)
    intro hOk
    cases hOk

theorem step_eq_some
    {s t : OffsetTable}
    {op : Op} :
    step s op = some t ↔ s.perform op = .ok t := by
  unfold step
  cases s.perform op with
  | error fault =>
      constructor
      · intro hStep
        cases hStep
      · intro hOk
        cases hOk
  | ok u =>
      constructor
      · intro hStep
        cases hStep
        rfl
      · intro hOk
        cases hOk
        rfl

/- An admissible operation keeps the invariant. -/
theorem exists_step
    (hWF : i.WF)
    (hAgrees : Agrees i s)
    {op : Op}
    (hAdmissible : i.Admissible op) :
    ∃ t, step s op = some t ∧ (i.step op).WF ∧
      Agrees (i.step op) t := by
  cases op with
  | iomap localOffset mainMemEa size =>
      rcases hAdmissible with ⟨hSize, hEa, hPage, hAdmits⟩
      refine
        ⟨_, step_eq_some.mpr ?_, wf_map hWF hAdmits,
          agrees_map hAgrees hAdmits⟩
      rw [perform, if_pos hPage]
      exact
        map_eq_ok.mpr
          ⟨⟨hSize, hEa⟩, hAdmits.io, hAdmits.pages, rfl⟩
  | iounmap localOffset size =>
      have hPage :
          pageOf (localOffset.setWidth 32) =
            localOffset.toNat / 2 ^ 20 := by
        rcases hAdmissible with ⟨m, hNamed, -⟩
        have hLt := (hWF.named _ m hNamed).2.1
        unfold ioPages at hLt
        rw [pageOf_eq, BitVec.toNat_setWidth]
        omega
      have hAdmits :
          i.AdmitsUnmap (pageOf (localOffset.setWidth 32)) := by
        rw [hPage]
        exact hAdmissible
      rcases unmapOffset_of_admits hWF hAgrees hAdmits with
        ⟨t, hOk, hAgrees'⟩
      rw [hPage] at hAgrees'
      exact ⟨t, step_eq_some.mpr hOk, wf_unmap hWF, hAgrees'⟩
  | eaToOffset ea =>
      refine ⟨s, step_eq_some.mpr ?_, hWF, hAgrees⟩
      rw [perform, eaToOffset_ok hAdmissible]
      rfl
  | offsetToEa offset =>
      refine ⟨s, step_eq_some.mpr ?_, hWF, hAgrees⟩
      rw [perform, offsetToEa_ok hAdmissible]
      rfl

/- No other operation leaves the table consistent. -/
theorem admissible_of_step
    {s t : OffsetTable}
    (hWF : i.WF)
    (hAgrees : Agrees i s)
    {op : Op}
    (hStep : step s op = some t)
    (hConsistent : Consistent (i.step op) t) :
    i.Admissible op := by
  have hOk := step_eq_some.mp hStep
  cases op with
  | iomap localOffset mainMemEa size =>
      rw [perform] at hOk
      split at hOk
      case isTrue hPage =>
        rcases map_eq_ok.mp hOk with
          ⟨hAligned, hIo, hFits, rfl⟩
        exact
          ⟨hAligned.1, hAligned.2, hPage, hIo, hFits,
            whole_of_consistent hWF hAgrees hFits hConsistent⟩
      case isFalse => cases hOk
  | iounmap localOffset size =>
      exact admitsUnmap_of_consistent hWF hAgrees hOk hConsistent
  | eaToOffset ea =>
      rcases Fallible.map_eq_ok.mp hOk with ⟨_, hOffset, -⟩
      rcases Fallible.map_eq_ok.mp hOffset with ⟨_, hGet, -⟩
      exact (get_eq_ok.mp hGet).1
  | offsetToEa offset =>
      rcases Fallible.map_eq_ok.mp hOk with ⟨_, hEa, -⟩
      rcases Fallible.map_eq_ok.mp hEa with ⟨_, hGet, -⟩
      exact (get_eq_ok.mp hGet).1

theorem keepsMap_from
    (hWF : i.WF)
    (hAgrees : Agrees i s)
    (ops : List Op) :
    (∀ before rest, ops = before ++ rest →
        ∃ t,
          Transition.exec step s before = some t ∧
            Consistent (before.foldl IoMap.step i) t) ↔
      i.Admits ops := by
  induction ops generalizing i s with
  | nil =>
      refine iff_of_true ?_ trivial
      intro before rest hOps
      obtain rfl := (List.append_eq_nil_iff.mp hOps.symm).1
      exact ⟨s, rfl, hAgrees.consistent hWF⟩
  | cons op rest ih =>
      rw [IoMap.Admits]
      constructor
      · intro hKeeps
        rcases hKeeps [op] rest rfl with
          ⟨t, hExec, hConsistent⟩
        rcases Option.bind_eq_some_iff.mp hExec with
          ⟨u, hStep, hEnd⟩
        obtain rfl := Option.some.inj hEnd
        have hAdmissible :=
          admissible_of_step hWF hAgrees hStep hConsistent
        refine ⟨hAdmissible, ?_⟩
        rcases exists_step hWF hAgrees hAdmissible with
          ⟨t, hStep', hWF', hAgrees'⟩
        rw [hStep] at hStep'
        cases hStep'
        apply (ih hWF' hAgrees').mp
        intro before after hRest
        rcases hKeeps (op :: before) after (by rw [hRest]; rfl)
          with
          ⟨t, hExec, hConsistent⟩
        rw [Transition.exec, hStep] at hExec
        exact ⟨t, hExec, hConsistent⟩
      · rintro ⟨hAdmissible, hAdmits⟩ before after hOps
        rcases exists_step hWF hAgrees hAdmissible with
          ⟨u, hStep, hWF', hAgrees'⟩
        cases before with
        | nil => exact ⟨s, rfl, hAgrees.consistent hWF⟩
        | cons first before =>
            rcases List.cons.inj hOps with ⟨rfl, hRest⟩
            rcases (ih hWF' hAgrees').mpr hAdmits _ _ hRest with
              ⟨t, hExec, hConsistent⟩
            refine ⟨t, ?_, hConsistent⟩
            rw [Transition.exec, hStep]
            exact hExec

/-
  The table is kept by exactly the runs whose operations are
  all admissible.
-/
theorem keepsMap_iff (ops : List Op) :
    KeepsMap ops ↔ IoMap.start.Admits ops :=
  keepsMap_from IoMap.wf_start agrees_start ops

/-
  A page of addresses is mapped to a second page of offsets,
  and the first one is still translated to it.
-/
theorem remap_stale :
    ¬ KeepsMap
        [.iomap 0 0x10000000 0x100000,
          .iomap 0x100000 0x10000000 0x100000] := by
  intro hKeeps
  rcases hKeeps _ [] (List.append_nil _).symm with
    ⟨s, hExec, hConsistent⟩
  obtain rfl := Option.some.inj hExec
  have hLatest := hConsistent.latest 0 (by decide)
  revert hLatest
  decide

end OffsetTable

------------------------------------------------------------
-- Locations
------------------------------------------------------------

inductive MemoryLocation where
  | Local | Main
  deriving DecidableEq

def rsxFbBaseAddr : BitVec 32 :=
  0xc0000000

/- Offsets into local memory need no table. -/
def rsxOffsetToEa
    (s : OffsetTable)
    (location : MemoryLocation)
    (offset : BitVec 32) : Except TableFault (BitVec 32) :=
  match location with
  | .Local => .ok (rsxFbBaseAddr + offset)
  | .Main => s.offsetToEa offset

end Ps3emu
