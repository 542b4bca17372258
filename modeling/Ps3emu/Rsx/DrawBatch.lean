import Ps3emu.Library.Ranges
import Ps3emu.Rsx.Fifo

/-
  Batches of draws: the methods between a begin and an end
  give ranges of vertices or indices, and the end draws them.

  Key definitions include:
    * `DrawState`
    * `setBeginEndImpl`, `drawArraysImpl`, `drawIndexArrayImpl`
    * `Batch`, `Batch.run`
    * `DrawnExactly`, `Batch.IsExact`

  Key theorems include:
    * `runMethods_eq`
    * `isClean_of_run`
    * `drawnExactly_iff`
-/

------------------------------------------------------------
-- Batches and Methods
------------------------------------------------------------

namespace Ps3emu

namespace DrawBatch

inductive GcmPrimitive where
  | NONE | POINTS | LINES | LINE_LOOP | LINE_STRIP | TRIANGLES
  | TRIANGLE_STRIP | TRIANGLE_FAN | QUADS | QUAD_STRIP | POLYGON
  deriving DecidableEq

/- `enum_cast<GcmPrimitive>`, which asserts that there is one. -/
def enumCast (value : BitVec 32) : Option GcmPrimitive :=
  [GcmPrimitive.NONE, .POINTS, .LINES, .LINE_LOOP, .LINE_STRIP,
    .TRIANGLES, .TRIANGLE_STRIP, .TRIANGLE_FAN, .QUADS,
    .QUAD_STRIP, .POLYGON][value.toNat]?

/- The types of indices, by their widths. -/
inductive GcmDrawIndexArrayType where
  | bits32 | bits16
  deriving DecidableEq

def GcmDrawIndexArrayType.byteSize :
    GcmDrawIndexArrayType → Nat
  | .bits32 => 4
  | .bits16 => 2

inductive DrawKind where
  | arrays | indexArray
  deriving DecidableEq

/- A vertex of the arrays, or an element of the index array. -/
structure Drawn where
  mode : GcmPrimitive
  kind : DrawKind
  num : Nat
  deriving DecidableEq

/-
  The fields of the renderer that a batch uses, with what has
  been submitted.
-/
structure DrawState where
  drawActive : Bool
  drawArrayFirst : BitVec 32
  drawIndexFirst : BitVec 32
  drawCount : BitVec 32
  vertexArrayMode : GcmPrimitive
  indexArrayType : GcmDrawIndexArrayType
  drawn : List Drawn

/- `GLPersistentCpuBuffer(10 * (1u << 20))`. -/
def elementArrayIndexBufferSize : BitVec 32 :=
  10 * (1 <<< 20)

/- `GLsizei` is signed, and nothing is drawn if it is negative. -/
def glCount (count : BitVec 32) : Nat :=
  count.toInt.toNat

def DrawState.submit
    (s : DrawState)
    (kind : DrawKind)
    (first count : BitVec 32) : DrawState :=
  { s with
    drawn :=
      s.drawn ++
        (List.range' first.toNat (glCount count)).map
          (fun num => ⟨s.vertexArrayMode, kind, num⟩) }

/-
  `Rsx::DrawArrays`: the arrays are bound from the first vertex
  on, and drawn from zero.
-/
def drawArrays
    (s : DrawState)
    (first count : BitVec 32) : DrawState :=
  s.submit .arrays first count

/-
  `Rsx::DrawIndexArray`: nothing where an assertion fails, or
  where more is copied than there is room for.
-/
def drawIndexArray
    (s : DrawState)
    (first count : BitVec 32) : Option DrawState :=
  let byteSize := s.indexArrayType.byteSize
  if first = 0 ∧
      count * BitVec.ofNat 32 byteSize ≤
        elementArrayIndexBufferSize ∧
      count.toNat * byteSize ≤
        elementArrayIndexBufferSize.toNat then
    some (s.submit .indexArray first count)
  else none

/- `Rsx::readarg`. -/
def readarg {σ : Type} (st : Fifo.State σ) (n : Nat) :
    BitVec 32 :=
  Fifo.fastEndianReverse (st.currentGet n)

/- The first one of a range, and how many there are. -/
def rangeFirst (arg : BitVec 32) : BitVec 32 :=
  arg &&& 0xffffff

def rangeCount (arg : BitVec 32) : BitVec 32 :=
  (arg >>> 24) + 1

/- What a batch has kept is drawn, unless another one began. -/
def endDraw (s : DrawState) : Option DrawState :=
  if s.drawActive = true then some s
  else
    (if s.drawArrayFirst ≠ -1 then
        some (drawArrays s s.drawArrayFirst s.drawCount)
      else if s.drawIndexFirst ≠ -1 then
        drawIndexArray s s.drawIndexFirst s.drawCount
      else some s).map
      (fun s =>
        { s with
          drawArrayFirst := -1
          drawIndexFirst := -1
          drawCount := 0 })

/- `CELL_GCM_NV4097_SET_BEGIN_END_impl`. -/
def setBeginEndImpl : Fifo.Handler DrawState := fun st =>
  (enumCast (readarg st 1)).bind (fun mode =>
    (endDraw { st.rest with drawActive := mode ≠ .NONE }).map
      (fun s => { s with vertexArrayMode := mode }))

/- The first range of a batch is kept, unless there is one. -/
def keepFirst
    (st : Fifo.State DrawState)
    (first : BitVec 32) : BitVec 32 :=
  if first = -1 then rangeFirst (readarg st 1) else first

/- The loop over the arguments. -/
def addCounts (st : Fifo.State DrawState) : BitVec 32 :=
  (List.range st.currentCount.toNat).foldl
    (fun count i => count + rangeCount (readarg st (i + 1)))
    st.rest.drawCount

/- `CELL_GCM_NV4097_DRAW_ARRAYS_impl`. -/
def drawArraysImpl : Fifo.Handler DrawState := fun st =>
  some
    { st.rest with
      drawArrayFirst := keepFirst st st.rest.drawArrayFirst
      drawCount := addCounts st }

/- `CELL_GCM_NV4097_DRAW_INDEX_ARRAY_impl`. -/
def drawIndexArrayImpl : Fifo.Handler DrawState := fun st =>
  some
    { st.rest with
      drawIndexFirst := keepFirst st st.rest.drawIndexFirst
      drawCount := addCounts st }

def DrawKind.handler : DrawKind → Fifo.Handler DrawState
  | .arrays => drawArraysImpl
  | .indexArray => drawIndexArrayImpl

------------------------------------------------------------
-- Batches
------------------------------------------------------------

/- A method in the command buffer, with its header's count. -/
structure Call where
  count : BitVec 11
  words : Nat → BitVec 32
  get : BitVec 32
  ret : BitVec 32

/- The interpreter when the handler is called. -/
def Call.state (c : Call) (s : DrawState) :
    Fifo.State DrawState where
  currentCount := c.count.setWidth 32
  currentGet := c.words
  currentGetValue := c.get
  ret := c.ret
  rest := s

def Call.arg (c : Call) (n : Nat) : BitVec 32 :=
  Fifo.fastEndianReverse (c.words n)

def Call.args (c : Call) : List (BitVec 32) :=
  (List.range c.count.toNat).map (fun i => c.arg (i + 1))

/- A begin, methods that draw, and an end. -/
structure Batch where
  type : GcmDrawIndexArrayType
  mode : GcmPrimitive
  opening : Call
  methods : List (DrawKind × Call)
  closing : Call
  hMode : mode ≠ .NONE
  hOpening : enumCast (opening.arg 1) = some mode
  hClosing : enumCast (closing.arg 1) = some .NONE

/- The methods of a batch, one after another. -/
def runMethods (s : DrawState) :
    List (DrawKind × Call) → Option DrawState
  | [] => some s
  | (kind, c) :: rest =>
      (kind.handler (c.state s)).bind (fun s => runMethods s rest)

/- A batch, with the type of indices that was set before. -/
def Batch.run (s : DrawState) (b : Batch) : Option DrawState :=
  (setBeginEndImpl
      (b.opening.state { s with indexArrayType := b.type })).bind
    (fun s =>
      (runMethods s b.methods).bind (fun s =>
        setBeginEndImpl (b.closing.state s)))

/- The ranges that methods give, as numbers. -/
def ranges (methods : List (DrawKind × Call)) :
    List (Nat × Nat) :=
  methods.flatMap (fun m =>
    m.2.args.map (fun arg =>
      ((rangeFirst arg).toNat, (rangeCount arg).toNat)))

/- What the ranges of methods ask for, in their order. -/
def vertices
    (mode : GcmPrimitive)
    (methods : List (DrawKind × Call)) : List Drawn :=
  methods.flatMap (fun m =>
    (Ranges.elements (ranges [m])).map (fun num =>
      ⟨mode, m.1, num⟩))

/- Nothing is left of a batch, as before the first one. -/
def DrawState.IsClean (s : DrawState) : Prop :=
  s.drawArrayFirst = -1 ∧ s.drawIndexFirst = -1 ∧
    s.drawCount = 0

/- A batch submits its vertices and leaves nothing else. -/
def DrawnExactly (s : DrawState) (b : Batch) : Prop :=
  ∃ t,
    b.run s = some t ∧
      t.drawn = s.drawn ++ vertices b.mode b.methods ∧
        t.IsClean

/-
  The ranges follow each other from the first one on, and the
  draws are all of one kind.  Indices begin at zero and have
  room in the buffer.
-/
def Batch.IsExact (b : Batch) : Prop :=
  let first := fun c : Call => (rangeFirst (c.arg 1)).toNat
  match b.methods.find? (fun m => m.1 = .arrays) with
  | some m =>
      (∀ m' ∈ b.methods, m'.1 = .indexArray → m'.2.count = 0) ∧
        Ranges.Consecutive (first m.2) (ranges b.methods)
  | none =>
      match b.methods.head? with
      | some m =>
          first m.2 = 0 ∧
            Ranges.Consecutive 0 (ranges b.methods) ∧
              Ranges.total (ranges b.methods) *
                  b.type.byteSize ≤
                elementArrayIndexBufferSize.toNat
      | none => True

------------------------------------------------------------
-- Counts
------------------------------------------------------------

variable {s t : DrawState} {arg : BitVec 32}
variable {methods : List (DrawKind × Call)}

theorem toNat_rangeFirst_lt (arg : BitVec 32) :
    (rangeFirst arg).toNat < 2 ^ 24 := by
  rw [rangeFirst, BitVec.toNat_and]
  exact Nat.lt_succ_of_le Nat.and_le_right

theorem rangeFirst_ne : rangeFirst arg ≠ -1 := by
  intro hEq
  have hLess := toNat_rangeFirst_lt arg
  rw [hEq] at hLess
  exact absurd hLess (by decide)

theorem toNat_rangeCount (arg : BitVec 32) :
    (rangeCount arg).toNat = arg.toNat / 2 ^ 24 + 1 := by
  have hShift : (arg >>> 24).toNat = arg.toNat / 2 ^ 24 := by
    rw [BitVec.toNat_ushiftRight, Nat.shiftRight_eq_div_pow]
  have hArg := arg.isLt
  rw [rangeCount, BitVec.toNat_add, hShift, Nat.mod_eq_of_lt]
  · rfl
  · change _ + 1 < _
    omega

/- Ranges have a first of 24 bits and a count of 1 to 256. -/
theorem range_bounds :
    ∀ r ∈ ranges methods,
      0 < r.2 ∧ r.1 < 2 ^ 24 ∧ r.2 ≤ 256 := by
  intro r hr
  rw [ranges, List.mem_flatMap] at hr
  rcases hr with ⟨m, -, hr⟩
  rcases List.mem_map.mp hr with ⟨arg, -, rfl⟩
  have hArg := arg.isLt
  have hFirst := toNat_rangeFirst_lt arg
  simp only [toNat_rangeCount]
  omega

theorem ranges_cons
    (m : DrawKind × Call)
    (rest : List (DrawKind × Call)) :
    ranges (m :: rest) = ranges [m] ++ ranges rest := by
  simp [ranges]

/- A sum of counts that wraps is the sum, wrapped. -/
theorem foldl_add
    {B : Type}
    (f : B → BitVec 32)
    (start : BitVec 32)
    (bs : List B) :
    bs.foldl (fun count b => count + f b) start =
      start +
        BitVec.ofNat 32
          ((bs.map (fun b => (f b).toNat)).sum) := by
  induction bs generalizing start with
  | nil => simp
  | cons b rest ih =>
      rw [List.foldl_cons, ih, List.map_cons, List.sum_cons,
        BitVec.ofNat_add, BitVec.ofNat_toNat, BitVec.setWidth_eq,
        BitVec.add_assoc]

theorem addCounts_eq (kind : DrawKind) (c : Call) :
    addCounts (c.state s) =
      s.drawCount +
        BitVec.ofNat 32 (Ranges.total (ranges [(kind, c)])) := by
  have hCount :
      (c.count.setWidth 32).toNat = c.count.toNat := by
    rw [BitVec.toNat_setWidth, Nat.mod_eq_of_lt]
    exact Nat.lt_of_lt_of_le c.count.isLt (by decide)
  rw [addCounts, foldl_add]
  simp only [Call.state, hCount, ranges, Ranges.total,
    Call.args, List.flatMap_cons, List.flatMap_nil,
    List.append_nil, List.map_map]
  rfl

/- The range that is kept is that of the first method. -/
def firstOf
    (kind : DrawKind)
    (methods : List (DrawKind × Call)) : BitVec 32 :=
  match methods.find? (fun m => m.1 = kind) with
  | some m => rangeFirst (m.2.arg 1)
  | none => -1

/- What the methods of a batch leave for its end. -/
theorem runMethods_eq (s : DrawState) :
    runMethods s methods =
      some
        { s with
          drawArrayFirst :=
            if s.drawArrayFirst = -1 then
              firstOf .arrays methods
            else s.drawArrayFirst
          drawIndexFirst :=
            if s.drawIndexFirst = -1 then
              firstOf .indexArray methods
            else s.drawIndexFirst
          drawCount :=
            s.drawCount +
              BitVec.ofNat 32
                (Ranges.total (ranges methods)) } := by
  induction methods generalizing s with
  | nil =>
      have hSame :
          ∀ x : BitVec 32, (if x = -1 then -1 else x) = x := by
        intro x
        split
        case isTrue h => rw [h]
        case isFalse => rfl
      have hZero :
          s.drawCount +
              BitVec.ofNat 32 (Ranges.total (ranges [])) =
            s.drawCount :=
        BitVec.add_zero _
      simp only [runMethods, firstOf, List.find?_nil, hSame,
        hZero]
  | cons m rest ih =>
      rcases m with ⟨kind, c⟩
      have hSum :
          addCounts (c.state s) +
              BitVec.ofNat 32 (Ranges.total (ranges rest)) =
            s.drawCount +
              BitVec.ofNat 32
                (Ranges.total (ranges ((kind, c) :: rest))) := by
        rw [addCounts_eq kind, ranges_cons _ rest, Ranges.total_append,
          BitVec.ofNat_add, BitVec.add_assoc]
      have hKept : ∀ first, keepFirst (c.state s) first ≠ -1 := by
        intro first
        rw [keepFirst]
        split
        case isTrue => exact rangeFirst_ne
        case isFalse h => exact h
      cases kind with
      | arrays =>
          rw [runMethods]
          simp only [DrawKind.handler, drawArraysImpl,
            Option.bind_some, ih, if_neg (hKept _), hSum]
          rfl
      | indexArray =>
          rw [runMethods]
          simp only [DrawKind.handler, drawIndexArrayImpl,
            Option.bind_some, ih, if_neg (hKept _), hSum]
          rfl

------------------------------------------------------------
-- Runs
------------------------------------------------------------

variable {b : Batch}

/- What the end of a batch finds. -/
def Batch.ending (s : DrawState) (b : Batch) : DrawState where
  drawActive := false
  drawArrayFirst := firstOf .arrays b.methods
  drawIndexFirst := firstOf .indexArray b.methods
  drawCount := BitVec.ofNat 32 (Ranges.total (ranges b.methods))
  vertexArrayMode := b.mode
  indexArrayType := b.type
  drawn := s.drawn

def DrawState.finish (s : DrawState) : DrawState :=
  { s with
    drawArrayFirst := -1
    drawIndexFirst := -1
    drawCount := 0
    vertexArrayMode := .NONE }

theorem isClean_finish (s : DrawState) : s.finish.IsClean :=
  ⟨rfl, rfl, rfl⟩

/- Arrays are drawn rather than indices. -/
theorem run_eq (hClean : s.IsClean) :
    b.run s =
      (if firstOf .arrays b.methods ≠ -1 then
          some
            (drawArrays (b.ending s) (b.ending s).drawArrayFirst
              (b.ending s).drawCount)
        else if firstOf .indexArray b.methods ≠ -1 then
          drawIndexArray (b.ending s)
            (b.ending s).drawIndexFirst (b.ending s).drawCount
        else some (b.ending s)).map DrawState.finish := by
  rcases hClean with ⟨hArray, hIndex, hCount⟩
  have hActive : (decide (b.mode ≠ .NONE)) = true :=
    decide_eq_true b.hMode
  have hBegin :
      setBeginEndImpl
          (b.opening.state { s with indexArrayType := b.type }) =
        some
          { s with
            indexArrayType := b.type
            drawActive := true
            vertexArrayMode := b.mode } := by
    have hArg :
        enumCast
            (readarg
              (b.opening.state
                { s with indexArrayType := b.type }) 1) =
          some b.mode :=
      b.hOpening
    simp only [setBeginEndImpl, endDraw, hArg, Option.bind_some,
      hActive, if_true, Option.map_some]
    rfl
  have hEnd :
      ∀ u : DrawState,
        enumCast (readarg (b.closing.state u) 1) =
          some .NONE := fun _ => b.hClosing
  have hSum :
      ∀ n,
        s.drawCount + BitVec.ofNat 32 n = BitVec.ofNat 32 n := by
    intro n
    rw [hCount]
    exact BitVec.zero_add _
  rw [Batch.run, hBegin, Option.bind_some, runMethods_eq,
    Option.bind_some]
  simp only [hArray, hIndex, hSum, if_true, setBeginEndImpl,
    endDraw, hEnd, Option.bind_some, ne_eq, not_true_eq_false,
    decide_false, Bool.false_eq_true, if_false, Option.map_map]
  rfl

/- Every batch leaves a clean state to the next one. -/
theorem isClean_of_run
    (hClean : s.IsClean)
    (hRun : b.run s = some t) :
    t.IsClean := by
  rw [run_eq hClean, Option.map_eq_some_iff] at hRun
  rcases hRun with ⟨u, -, rfl⟩
  exact isClean_finish u

theorem isClean_of_runs
    {bs : List Batch}
    (hClean : s.IsClean)
    (hRun : bs.foldlM Batch.run s = some t) :
    t.IsClean := by
  induction bs generalizing s with
  | nil =>
      obtain rfl := Option.some.inj hRun
      exact hClean
  | cons b rest ih =>
      rw [List.foldlM_cons] at hRun
      rcases Option.bind_eq_some_iff.mp hRun with
        ⟨u, hFirst, hRest⟩
      exact ih (isClean_of_run hClean hFirst) hRest

------------------------------------------------------------
-- Exact Batches
------------------------------------------------------------

variable {s : DrawState} {mode : GcmPrimitive} {kind : DrawKind}

theorem vertices_cons
    (m : DrawKind × Call)
    (rest : List (DrawKind × Call)) :
    vertices mode (m :: rest) =
      (Ranges.elements (ranges [m])).map
          (fun num => ⟨mode, m.1, num⟩) ++
        vertices mode rest :=
  List.flatMap_cons

theorem map_num_vertices :
    (vertices mode methods).map Drawn.num =
      Ranges.elements (ranges methods) := by
  induction methods with
  | nil => rfl
  | cons m rest ih =>
      have hSame :
          Drawn.num ∘ (fun num => ⟨mode, m.1, num⟩) = id := rfl
      rw [vertices_cons, List.map_append, ih, List.map_map,
        hSame, List.map_id, ranges_cons m rest,
        Ranges.elements_append]

/- A method without ranges adds nothing. -/
theorem ranges_of_count
    {c : Call}
    (hCount : c.count = 0) :
    ranges [(kind, c)] = [] := by
  simp [ranges, Call.args, hCount]

theorem exists_vertex
    (kind : DrawKind)
    {c : Call}
    (hCount : c.count ≠ 0) :
    ∃ num, num ∈ Ranges.elements (ranges [(kind, c)]) := by
  have hPos : 0 < c.count.toNat := by
    rw [Nat.pos_iff_ne_zero]
    intro hZero
    exact hCount (BitVec.eq_of_toNat_eq hZero)
  have hRange :
      ((rangeFirst (c.arg 1)).toNat,
          (rangeCount (c.arg 1)).toNat) ∈
        ranges [(kind, c)] := by
    rw [ranges, List.flatMap_singleton]
    apply List.mem_map_of_mem
    exact List.mem_map_of_mem (List.mem_range.mpr hPos)
  refine ⟨(rangeFirst (c.arg 1)).toNat, ?_⟩
  apply List.mem_flatMap_of_mem hRange
  rw [List.mem_range'_1]
  have hSome := (range_bounds _ hRange).1
  omega

/- The vertices of a batch are one draw of a kind. -/
theorem vertices_eq_iff {first count : Nat} :
    vertices mode methods =
        (List.range' first count).map
          (fun num => ⟨mode, kind, num⟩) ↔
      (∀ m ∈ methods, m.1 ≠ kind → m.2.count = 0) ∧
        Ranges.elements (ranges methods) =
          List.range' first count := by
  constructor
  · intro hEq
    refine ⟨?_, ?_⟩
    · intro m hm hKind
      by_contra hCount
      rcases exists_vertex m.1 hCount with ⟨num, hNum⟩
      have hMem :
          Drawn.mk mode m.1 num ∈ vertices mode methods :=
        List.mem_flatMap_of_mem hm
          (List.mem_map_of_mem hNum)
      rw [hEq] at hMem
      rcases List.mem_map.mp hMem with ⟨n, -, hSame⟩
      exact hKind (Drawn.mk.inj hSame).2.1.symm
    · have hNums := congrArg (List.map Drawn.num) hEq
      rw [map_num_vertices, List.map_map] at hNums
      rw [hNums]
      exact List.map_id _
  · rintro ⟨hKinds, hElements⟩
    rw [← hElements]
    clear hElements
    induction methods with
    | nil => rfl
    | cons m rest ih =>
        have hRest :=
          ih (fun m' hm' =>
            hKinds m' (List.mem_cons_of_mem _ hm'))
        rw [vertices_cons, hRest, ranges_cons m rest,
          Ranges.elements_append, List.map_append]
        congr 1
        by_cases hKind : m.1 = kind
        · rw [hKind]
        · rcases m with ⟨kind', c⟩
          rw [ranges_of_count
            (hKinds _ List.mem_cons_self hKind)]
          rfl

/- Counts as small as those of consecutive ranges are kept. -/
theorem glCount_of_lt {n : Nat} (hLess : n < 2 ^ 31) :
    glCount (BitVec.ofNat 32 n) = n := by
  have hToNat : (BitVec.ofNat 32 n).toNat = n := by
    rw [BitVec.toNat_ofNat, Nat.mod_eq_of_lt]
    omega
  rw [glCount, BitVec.toInt_eq_toNat_of_lt, hToNat,
    Int.toNat_natCast]
  rw [hToNat]
  omega

/- Consecutive ranges end where the last one can end. -/
theorem total_lt
    {arg : BitVec 32}
    (hConsecutive :
      Ranges.Consecutive (rangeFirst arg).toNat
        (ranges methods)) :
    Ranges.total (ranges methods) < 2 ^ 31 := by
  have hBound :=
    Ranges.total_le_of_consecutive
      (fun r hr => (range_bounds r hr).2) hConsecutive
  have hFirst := toNat_rangeFirst_lt arg
  omega

/- What is drawn from a first vertex on is what is asked for. -/
theorem drawn_iff (s : DrawState) (arg : BitVec 32) :
    ((b.ending s).submit kind (rangeFirst arg)
          (b.ending s).drawCount).drawn =
        s.drawn ++ vertices b.mode b.methods ↔
      (∀ m ∈ b.methods, m.1 ≠ kind → m.2.count = 0) ∧
        Ranges.Consecutive (rangeFirst arg).toNat
          (ranges b.methods) := by
  rw [DrawState.submit, Batch.ending, List.append_cancel_left_eq,
    eq_comm, vertices_eq_iff,
    Ranges.elements_eq_range'_iff
      (fun r hr => (range_bounds r hr).1)]
  constructor
  · exact fun h => ⟨h.1, h.2.1⟩
  · exact fun h => ⟨h.1, h.2, glCount_of_lt (total_lt h.2)⟩

/- A batch is exact if its last draw is. -/
theorem drawnExactly_of_run
    {u : DrawState}
    (hRun : b.run s = some u.finish) :
    DrawnExactly s b ↔
      u.drawn = s.drawn ++ vertices b.mode b.methods := by
  constructor
  · rintro ⟨t, hT, hDrawn, -⟩
    rw [hRun] at hT
    obtain rfl := Option.some.inj hT
    exact hDrawn
  · exact fun hDrawn =>
      ⟨u.finish, hRun, hDrawn, isClean_finish u⟩

theorem kinds_of_find
    (hNone : methods.find? (fun m => m.1 = .arrays) = none) :
    ∀ m ∈ methods, m.1 = .indexArray := by
  intro m hm
  rw [List.find?_eq_none] at hNone
  have hKind := hNone m hm
  cases h : m.1 with
  | arrays => simp [h] at hKind
  | indexArray => rfl

/- Indices have to begin at zero and need room. -/
theorem drawnExactly_index_iff
    {m : DrawKind × Call}
    {rest : List (DrawKind × Call)}
    (hClean : s.IsClean)
    (hMethods : b.methods = m :: rest)
    (hNone :
      b.methods.find? (fun m => m.1 = .arrays) = none) :
    DrawnExactly s b ↔
      (rangeFirst (m.2.arg 1)).toNat = 0 ∧
        Ranges.Consecutive 0 (ranges b.methods) ∧
          Ranges.total (ranges b.methods) * b.type.byteSize ≤
            elementArrayIndexBufferSize.toNat := by
  have hKinds := kinds_of_find hNone
  have hArrays : firstOf .arrays b.methods = -1 := by
    rw [firstOf, hNone]
  have hFirst :
      firstOf .indexArray b.methods =
        rangeFirst (m.2.arg 1) := by
    have hHead := hKinds m (by rw [hMethods]; exact List.mem_cons_self)
    rw [firstOf, hMethods, List.find?_cons_of_pos (by simp [hHead])]
  have hRun : b.run s = _ := run_eq hClean
  simp only [hArrays, hFirst, ne_eq, not_true_eq_false,
    if_false, rangeFirst_ne, not_false_eq_true, if_true] at hRun
  have hCount :
      Ranges.Consecutive (rangeFirst (m.2.arg 1)).toNat
          (ranges b.methods) →
        (b.ending s).drawCount.toNat =
          Ranges.total (ranges b.methods) := by
    intro hConsecutive
    have hLess := total_lt hConsecutive
    rw [Batch.ending, BitVec.toNat_ofNat, Nat.mod_eq_of_lt]
    omega
  have hKept :
      (b.ending s).drawIndexFirst = rangeFirst (m.2.arg 1) :=
    hFirst
  constructor
  · rintro ⟨t, hT, hDrawn, hFinal⟩
    have hT' := hT
    rw [hRun, Option.map_eq_some_iff] at hT
    rcases hT with ⟨u, hDraw, rfl⟩
    have hExact :=
      (drawnExactly_of_run hT').mp ⟨_, hT', hDrawn, hFinal⟩
    simp only [drawIndexArray, Option.ite_none_right_eq_some,
      Option.some.injEq] at hDraw
    rcases hDraw with ⟨⟨hZero, -, hRoom⟩, rfl⟩
    rw [hKept] at hExact
    have hConsecutive := ((drawn_iff s _).mp hExact).2
    rw [hCount hConsecutive] at hRoom
    have hNat : (rangeFirst (m.2.arg 1)).toNat = 0 := by
      rw [← hFirst]
      exact congrArg BitVec.toNat hZero
    rw [hNat] at hConsecutive
    exact ⟨hNat, hConsecutive, hRoom⟩
  · rintro ⟨hNat, hConsecutive, hRoom⟩
    rw [← hNat] at hConsecutive
    have hZero : (b.ending s).drawIndexFirst = 0 := by
      apply BitVec.eq_of_toNat_eq
      rw [Batch.ending, hFirst]
      exact hNat
    have hFits :
        (b.ending s).drawCount *
            BitVec.ofNat 32 b.type.byteSize ≤
          elementArrayIndexBufferSize := by
      rw [BitVec.le_def, BitVec.toNat_mul, hCount hConsecutive,
        BitVec.toNat_ofNat]
      refine Nat.le_trans (Nat.mod_le _ _) ?_
      exact
        Nat.le_trans (Nat.mul_le_mul_left _ (Nat.mod_le _ _))
          hRoom
    have hDraw :
        drawIndexArray (b.ending s) (b.ending s).drawIndexFirst
            (b.ending s).drawCount =
          some
            ((b.ending s).submit .indexArray
              (b.ending s).drawIndexFirst
              (b.ending s).drawCount) := by
      rw [drawIndexArray, if_pos]
      refine ⟨hZero, hFits, ?_⟩
      rw [hCount hConsecutive]
      exact hRoom
    rw [hDraw, Option.map_some] at hRun
    rw [drawnExactly_of_run hRun, hKept, drawn_iff]
    exact ⟨fun m hm hKind => absurd (hKinds m hm) hKind,
      hConsecutive⟩

/-
  After any batches, a batch is drawn exactly if and only if
  its ranges are consecutive, of one kind, and fit.
-/
theorem drawnExactly_iff
    {start : DrawState}
    {bs : List Batch}
    (hStart : start.IsClean)
    (hRuns : bs.foldlM Batch.run start = some s)
    (b : Batch) :
    DrawnExactly s b ↔ b.IsExact := by
  have hClean := isClean_of_runs hStart hRuns
  rw [Batch.IsExact]
  cases hFind : b.methods.find? (fun m => m.1 = .arrays) with
  | some m =>
      have hFirst :
          firstOf .arrays b.methods =
            rangeFirst (m.2.arg 1) := by
        rw [firstOf, hFind]
      have hRun : b.run s = _ := run_eq hClean
      simp only [hFirst, ne_eq, rangeFirst_ne,
        not_false_eq_true, if_true, Option.map_some] at hRun
      rw [drawnExactly_of_run hRun, drawArrays]
      have hKept :
          (b.ending s).drawArrayFirst =
            rangeFirst (m.2.arg 1) := hFirst
      rw [hKept, drawn_iff]
      have hKinds :
          ∀ m' : DrawKind × Call,
            m'.1 ≠ .arrays ↔ m'.1 = .indexArray := by
        intro m'
        cases m'.1 <;> simp
      simp only [hKinds]
  | none =>
      cases hMethods : b.methods with
      | cons m rest =>
          have hIndex :=
            drawnExactly_index_iff hClean hMethods hFind
          rw [hMethods] at hIndex
          exact hIndex
      | nil =>
          have hRun : b.run s = _ := run_eq hClean
          simp only [firstOf, hMethods, List.find?_nil, ne_eq,
            not_true_eq_false, if_false, Option.map_some]
            at hRun
          simp only [List.head?_nil, iff_true]
          rw [drawnExactly_of_run hRun, hMethods]
          exact (List.append_nil _).symm

/- A method with these arguments. -/
def callOf (args : List (BitVec 32)) : Call where
  count := BitVec.ofNat 11 args.length
  words := fun n => Fifo.fastEndianReverse ((0 :: args).getD n 0)
  get := 0
  ret := 0

def triangles (methods : List (DrawKind × Call)) : Batch where
  type := .bits16
  mode := .TRIANGLES
  opening := callOf [5]
  methods := methods
  closing := callOf [0]
  hMode := by decide
  hOpening := by decide
  hClosing := by decide

def blank : DrawState where
  drawActive := false
  drawArrayFirst := -1
  drawIndexFirst := -1
  drawCount := 0
  vertexArrayMode := .NONE
  indexArrayType := .bits32
  drawn := []

/- Three vertices and the next three, after another batch. -/
theorem drawnExactly_triangles :
    ∃ s,
      [triangles []].foldlM Batch.run blank = some s ∧
        DrawnExactly s
          (triangles
            [(.arrays, callOf [0x2000000, 0x2000003])]) := by
  have hSome :
      ([triangles []].foldlM Batch.run blank).isSome = true := by
    decide
  rcases Option.isSome_iff_exists.mp hSome with ⟨s, hRun⟩
  refine ⟨s, hRun, ?_⟩
  rw [drawnExactly_iff ⟨rfl, rfl, rfl⟩ hRun]
  refine ⟨?_, ?_⟩
  · simp [triangles]
  · exact ⟨by decide, by decide, trivial⟩

/- With a gap of three vertices, the wrong ones are drawn. -/
theorem drawnExactly_fails :
    ¬ DrawnExactly blank
      (triangles
        [(.arrays, callOf [0x2000000, 0x2000006])]) := by
  rintro ⟨t, hRun, hDrawn, -⟩
  have hSame := congrArg (Option.map DrawState.drawn) hRun
  rw [Option.map_some, hDrawn] at hSame
  exact absurd hSame (by decide)

end DrawBatch

end Ps3emu
