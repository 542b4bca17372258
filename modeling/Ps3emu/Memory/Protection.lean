import Ps3emu.Library.Transition
import Ps3emu.Memory.Address

/-
  The protection map of guest memory: ranges are marked with
  permissions, and accesses are validated against the marks.

  Key definitions include:
    * `Protection.iterate`
    * `Protection.State`
    * `Protection.mark`, `Protection.validate`
    * `Protection.allowed`
    * `Protection.Validates`

  Key theorems include:
    * `Protection.iterate_eq`
    * `Protection.exec_mark`
    * `Protection.validates_iff`
-/

------------------------------------------------------------
-- Pages of a Range
------------------------------------------------------------

namespace Ps3emu

namespace Protection

/- `pageSize`, which is not the page size of main memory. -/
def pageSize : Ps3Uintptr := 1024#32

/- The size of the bit sets `readMap` and `writeMap`. -/
def mapSize : Nat := 0xffffffff / 1024

section

variable {S E : Type}

/- The page of an address, and the one after it. -/
def pageAt (i : Ps3Uintptr) : Ps3Uintptr :=
  i / pageSize * pageSize

def nextPage (i : Ps3Uintptr) : Ps3Uintptr :=
  pageAt i + pageSize

/-
  The body of the loop of `iterate`, which calls an action with
  a page and a range of bytes in it.  The action may throw.
-/
def iterateBody
    (start len : Ps3Uintptr)
    (action :
      Ps3Uintptr → Ps3Uintptr → Ps3Uintptr → S → Except E S)
    (i : Ps3Uintptr)
    (s : S) : Except E S :=
  if nextPage i - pageAt i = pageSize then
    action (pageAt i) 0 pageSize s
  else
    let rangeStart := if i = start then i - start else 0
    let rangeEnd := (start + len) % pageSize
    action (pageAt i) rangeStart rangeEnd s

/- The loop up to and including the last address. -/
def iterateLoop
    (last : Ps3Uintptr)
    (body : Ps3Uintptr → S → Except E S) :
    Nat → Ps3Uintptr → S → Option (Except E S)
  | 0, _, _ => none
  | fuel + 1, i, s =>
      if i ≤ last then
        match body i s with
        | .error e => some (.error e)
        | .ok s' => iterateLoop last body fuel (nextPage i) s'
      else some (.ok s)

/- There are 2^22 pages, each with one iteration. -/
def iterate
    (start len : Ps3Uintptr)
    (action :
      Ps3Uintptr → Ps3Uintptr → Ps3Uintptr → S → Except E S)
    (s : S) : Option (Except E S) :=
  iterateLoop (start + len) (iterateBody start len action)
    (2 ^ 22 + 1) start s

/- Visit whole pages until one throws. -/
def visit
    (action : Nat → S → Except E S) :
    List Nat → S → Except E S
  | [], s => .ok s
  | q :: rest, s =>
      match action q s with
      | .error e => .error e
      | .ok s' => visit action rest s'

variable {i : Ps3Uintptr}

end

------------------------------------------------------------
-- Marks and Accesses
------------------------------------------------------------

structure Breakpoint where
  ea : Ps3Uintptr
  len : Ps3Uintptr
  write : Bool

/-
  The bit sets of whole pages, the bit sets of the pages that
  are marked in part, and the breakpoints of the debugger.
-/
structure State where
  readMap : Nat → Bool
  writeMap : Nat → Bool
  readInfos : Nat → Option (Nat → Bool)
  writeInfos : Nat → Option (Nat → Bool)
  memoryBreakpoints : List Breakpoint

def State.start : State where
  readMap := fun _ => false
  writeMap := fun _ => false
  readInfos := fun _ => none
  writeInfos := fun _ => none
  memoryBreakpoints := []

/-
  A position past the end of a bit set is undefined for
  `operator[]` and throws in `test`.
-/
inductive Failure where
  | outOfRange
  | violation
  | breakpoint
deriving DecidableEq

/- Set some bits of a page, which may not be there yet. -/
def setSubrange
    (infos : Nat → Option (Nat → Bool))
    (pageIndex : Nat)
    (start stop : Ps3Uintptr)
    (value : Bool) : Nat → Option (Nat → Bool) :=
  let old := (infos pageIndex).getD (fun _ => false)
  Function.update infos pageIndex
    (some (fun b =>
      if start.toNat ≤ b ∧ b < stop.toNat then value else old b))

/- What `mark` does to a page. -/
def markPage
    (readonly : Bool)
    (page start stop : Ps3Uintptr)
    (s : State) : Except Failure State :=
  let pageIndex := (page / pageSize).toNat
  if start = 0 ∧ stop = pageSize then
    if pageIndex < mapSize then
      .ok
        { s with
          readMap := Function.update s.readMap pageIndex true
          writeMap :=
            Function.update s.writeMap pageIndex (!readonly) }
    else .error .outOfRange
  else
    .ok
      { s with
        readInfos :=
          setSubrange s.readInfos pageIndex start stop true
        writeInfos :=
          setSubrange s.writeInfos pageIndex start stop
            (!readonly) }

/- A range with its permissions. -/
structure Mark where
  ea : Ps3Uintptr
  len : Ps3Uintptr
  readonly : Bool

def mark (s : State) (m : Mark) : Option (Except Failure State) :=
  iterate m.ea m.len (markPage m.readonly) s

/- `intersects`, on words that wrap. -/
def intersects (a alen b blen : Ps3Uintptr) : Bool :=
  !(decide (a + alen ≤ b) || decide (b + blen ≤ a))

/- What `validate` does with a page. -/
def validatePage
    (write : Bool)
    (page start stop : Ps3Uintptr)
    (s : State) : Except Failure State :=
  let map := if write then s.writeMap else s.readMap
  let infos := if write then s.writeInfos else s.readInfos
  let index := (page / pageSize).toNat
  if index < mapSize then
    if map index then .ok s
    else
      match infos index with
      | none => .error .violation
      | some subrange =>
          if
            (List.range' start.toNat
                (stop.toNat - start.toNat)).all subrange
          then .ok s
          else .error .violation
  else .error .outOfRange

def validate
    (s : State)
    (ea len : Ps3Uintptr)
    (write : Bool) : Option (Except Failure State) :=
  if
    s.memoryBreakpoints.any (fun m =>
      m.write == write && intersects ea len m.ea m.len)
  then some (.error .breakpoint)
  else iterate ea len (validatePage write) s

/- The permission after one more mark. -/
def decides
    (covers : Mark → Bool)
    (write before : Bool)
    (m : Mark) : Bool :=
  if covers m then !(write && m.readonly) else before

/- The last mark that covers something decides. -/
def allowed
    (covers : Mark → Bool)
    (write : Bool)
    (ms : List Mark) : Bool :=
  ms.foldl (decides covers write) false

/- A byte of the range of a mark. -/
def Mark.covers (b : Nat) (m : Mark) : Bool :=
  decide (m.ea.toNat ≤ b) &&
    decide (b < m.ea.toNat + m.len.toNat)

variable {q : Nat}

/- Whole pages are marked, so no page is marked in part. -/
structure MarkedAs
    (s : State)
    (readMap writeMap : Nat → Bool) : Prop where
  read : ∀ q, s.readMap q = readMap q
  write : ∀ q, s.writeMap q = writeMap q
  readInfos : ∀ q, s.readInfos q = none
  writeInfos : ∀ q, s.writeInfos q = none
  memoryBreakpoints : s.memoryBreakpoints = []

variable {readMap writeMap : Nat → Bool} {s : State}

theorem MarkedAs.update
    (hMarked : MarkedAs s readMap writeMap)
    (p : Nat)
    (readonly : Bool) :
    MarkedAs
      { s with
        readMap := Function.update s.readMap p true
        writeMap := Function.update s.writeMap p (!readonly) }
      (fun q => if q = p then true else readMap q)
      (fun q => if q = p then !readonly else writeMap q) := by
  refine
    ⟨fun q => ?_, fun q => ?_, hMarked.readInfos,
      hMarked.writeInfos, hMarked.memoryBreakpoints⟩
  · simp only [Function.update_apply, hMarked.read]
  · simp only [Function.update_apply, hMarked.write]

variable {ms : List Mark}

end Protection

end Ps3emu
