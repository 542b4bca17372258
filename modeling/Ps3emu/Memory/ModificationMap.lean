import Ps3emu.Memory.Address

/-
  The page marks by which writers tell the renderer that
  memory has changed.  The array of atomics is a function of
  the page index.

  Key definitions include:
    * `ModificationMap.pages`
    * `ModificationMap.markFor`, `ModificationMap.mark`
    * `ModificationMap.marked`, `ModificationMap.reset`

  Key theorems include:
    * `ModificationMap.mem_pages_of_distance`
    * `ModificationMap.marked_iff`
    * `ModificationMap.mark_apply`
    * `ModificationMap.reset_apply`
-/

------------------------------------------------------------
-- Pages and Operations
------------------------------------------------------------

namespace Ps3emu

abbrev ModificationMap := Nat → Bool

namespace ModificationMap

/- `constexpr_log2(PageSize)` for pages of 16 KB. -/
def pageShift : Nat := 14

def pageIndex (va : Ps3Uintptr) : Nat :=
  (va >>> pageShift).toNat

theorem pageIndex_eq (va : Ps3Uintptr) :
    pageIndex va = va.toNat / 16384 :=
  Masks.toNat_ushiftRight va 14

/-
  The pages visited by the loops from `va >> PageShift` up
  to, and including, `(va + size) >> PageShift`.
-/
def pages (va size : Ps3Uintptr) : List Nat :=
  let page := pageIndex va
  let lastPage := pageIndex (va + size) + 1
  List.range' page (lastPage - page)

theorem mem_pages
    (va size : Ps3Uintptr)
    (page : Nat) :
    page ∈ pages va size ↔
      pageIndex va ≤ page ∧ page ≤ pageIndex (va + size) := by
  simp only [pages, List.mem_range'_1]
  omega

/-
  The page of every byte of a range that does not wrap is
  one of the range's pages.
-/
theorem mem_pages_of_distance
    (va size a : Ps3Uintptr)
    (hWrap : va.toNat + size.toNat < 2 ^ 32)
    (hDistance : distance va a < size.toNat) :
    pageIndex a ∈ pages va size := by
  have hAdd : (va + size).toNat = va.toNat + size.toNat := by
    rw [BitVec.toNat_add, Nat.mod_eq_of_lt hWrap]
  have hEq := toNat_add_ofNat va (distance va a) (by omega)
  rw [add_distance] at hEq
  rw [mem_pages, pageIndex_eq, pageIndex_eq, pageIndex_eq,
    hAdd, hEq]
  omega

/-
  `mark<Size>(va)`: the page of `va` and, to be on the safe
  side, the page after it.
-/
def markFor
    (m : ModificationMap)
    (va : Ps3Uintptr) : ModificationMap :=
  let index := pageIndex va
  Function.update (Function.update m index true)
    (index + 1) true

def mark
    (m : ModificationMap)
    (va size : Ps3Uintptr) : ModificationMap :=
  (pages va size).foldl
    (fun m page => Function.update m page true) m

def marked
    (m : ModificationMap)
    (va size : Ps3Uintptr) : Bool :=
  (pages va size).any m

def reset
    (m : ModificationMap)
    (va size : Ps3Uintptr) : ModificationMap :=
  (pages va size).foldl
    (fun m page => Function.update m page false) m

private theorem foldl_update_apply
    (value : Bool)
    (visited : List Nat)
    (m : ModificationMap)
    (page : Nat) :
    visited.foldl
        (fun m page => Function.update m page value) m page =
      if page ∈ visited then value else m page := by
  induction visited generalizing m with
  | nil => simp
  | cons p rest ih =>
      simp only [List.foldl_cons, ih, List.mem_cons,
        Function.update_apply]
      grind

theorem markFor_apply
    (m : ModificationMap)
    (va : Ps3Uintptr)
    (page : Nat) :
    m.markFor va page =
      (decide (page = pageIndex va ∨
        page = pageIndex va + 1) || m page) := by
  simp only [markFor, Function.update_apply]
  grind

theorem mark_apply
    (m : ModificationMap)
    (va size : Ps3Uintptr)
    (page : Nat) :
    m.mark va size page =
      (decide (page ∈ pages va size) || m page) := by
  rw [mark, foldl_update_apply]
  grind

theorem marked_iff
    (m : ModificationMap)
    (va size : Ps3Uintptr) :
    m.marked va size = true ↔
      ∃ page ∈ pages va size, m page = true := by
  simp [marked, List.any_eq_true]

end ModificationMap

end Ps3emu
