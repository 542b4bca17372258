import Mathlib.Data.List.Basic
import Ps3emu.Library.Reachability
import Ps3emu.Rewriter.BasicBlocks

/-
  The graph of the branches between basic blocks, and the
  removal of the vertices that lead to unwanted ones.

  Key definitions include:
    * `Graph`
    * `buildGraph`
    * `removeVertices`, `graphToBlocks`
    * `Branches`

  Key theorems include:
    * `mem_removeVertices_iff`
    * `removeVertices_sublist`
-/

------------------------------------------------------------
-- Graph
------------------------------------------------------------

namespace Ps3emu

namespace Rewriter

structure Vertex where
  block : BasicBlock
  invalid : Bool
deriving DecidableEq

/- Vertices are named by their positions. -/
structure Edge where
  source : Nat
  target : Nat
  weight : Nat
deriving DecidableEq

structure Graph where
  vertices : List Vertex
  edges : List Edge
deriving DecidableEq

/- The targets collected at the end of a block. -/
def branchTargets
    (analyze : Analyze)
    (b : BasicBlock) : List Ps3Uintptr :=
  let info := analyze b.lastVa
  if info.flow then
    info.target.toList ++
      (if info.passthrough then [b.lastVa + 4#32] else [])
  else []

/- The vertex of each start; a later one replaces it. -/
def startMap
    (blocks : List BasicBlock) : Ps3Uintptr → Option Nat :=
  blocks.zipIdx.foldl
    (fun map (b, v) => Function.update map b.start (some v))
    (fun _ => none)

/- Fallthroughs weigh more, so that they are not cut. -/
def buildGraph
    (blocks : List BasicBlock)
    (analyze : Analyze) : Graph where
  vertices := blocks.map (fun b => ⟨b, false⟩)
  edges :=
    blocks.zipIdx.flatMap (fun (b, v) =>
      (branchTargets analyze b).filterMap (fun target =>
        (startMap blocks target).map (fun tv =>
          { source := v
            target := tv
            weight :=
              if target = b.lastVa + 4#32 then 5 else 1 })))

theorem buildGraph_vertices
    (blocks : List BasicBlock)
    (analyze : Analyze) :
    (buildGraph blocks analyze).vertices =
      blocks.map (fun b => ⟨b, false⟩) := rfl

namespace Graph

/- The neighbours of a vertex in the reverse graph. -/
def predecessors (g : Graph) (v : Nat) : List Nat :=
  (g.edges.filter (fun e => e.target = v)).map Edge.source

/- The vertices that `depth_first_visit` discovers from `v`. -/
def discovered (g : Graph) (v : Nat) : List Nat :=
  Reachability.visit g.predecessors g.vertices.length [] v

def markInvalid (g : Graph) (marked : List Nat) : Graph :=
  { g with
    vertices :=
      g.vertices.mapIdx (fun i v =>
        if i ∈ marked then { v with invalid := true }
        else v) }

end Graph

/- A copy of the part of the graph that is not invalid. -/
def removeInvalidVertices (g : Graph) : Graph :=
  let valid := fun i => (g.vertices[i]?).any (!·.invalid)
  let index := fun i => (g.vertices.take i).countP (!·.invalid)
  { vertices := g.vertices.filter (!·.invalid)
    edges :=
      (g.edges.filter
          (fun e => valid e.source && valid e.target)).map
        (fun e =>
          { e with
            source := index e.source
            target := index e.target }) }

def removeVertices
    (g : Graph)
    (removeIf : BasicBlock → Bool) : Graph :=
  removeInvalidVertices
    (g.vertices.zipIdx.foldl
      (fun h (v, i) =>
        if removeIf v.block then h.markInvalid (g.discovered i)
        else h)
      g)

def graphToBlocks (g : Graph) : List BasicBlock :=
  g.vertices.map Vertex.block

------------------------------------------------------------
-- Edges
------------------------------------------------------------

/- No two blocks start at one address. -/
def Distinct (blocks : List BasicBlock) : Prop :=
  blocks.Pairwise (fun b c => b.start ≠ c.start)

variable {blocks : List BasicBlock}

theorem Distinct.nodup
    (hDistinct : Distinct blocks) :
    blocks.Nodup :=
  hDistinct.imp (fun hNe hEq => hNe (congrArg _ hEq))

/- The map of the starts from position `k` on. -/
theorem foldl_startMap
    (hDistinct : Distinct blocks)
    (k : Nat)
    (map : Ps3Uintptr → Option Nat)
    (a : Ps3Uintptr)
    (v : Nat) :
    (blocks.zipIdx k).foldl
        (fun map (b, v) =>
          Function.update map b.start (some v))
        map a = some v ↔
      (∃ i b,
        blocks[i]? = some b ∧ b.start = a ∧ v = k + i) ∨
      (map a = some v ∧ ∀ b ∈ blocks, b.start ≠ a) := by
  induction blocks generalizing k map with
  | nil => simp
  | cons c rest ih =>
      rcases List.pairwise_cons.mp hDistinct with
        ⟨hHead, hTail⟩
      simp only [List.zipIdx_cons, List.foldl_cons, ih hTail]
      constructor
      · rintro (⟨i, b, hb, hStart, rfl⟩ | ⟨hMap, hNone⟩)
        · exact .inl ⟨i + 1, b, hb, hStart, by omega⟩
        · by_cases hSame : a = c.start
          · rw [hSame, Function.update_self] at hMap
            cases hMap
            exact .inl ⟨0, c, rfl, hSame.symm, rfl⟩
          · rw [Function.update_of_ne hSame] at hMap
            refine .inr ⟨hMap, ?_⟩
            intro b hb
            cases hb with
            | head => exact fun hEq => hSame hEq.symm
            | tail _ hRest => exact hNone b hRest
      · rintro (⟨i, b, hb, hStart, rfl⟩ | ⟨hMap, hNone⟩)
        · cases i with
          | zero =>
              cases hb
              refine .inr ⟨?_, ?_⟩
              · rw [hStart, Function.update_self]
                rfl
              · intro d hd hEq
                exact hHead d hd (hStart.trans hEq.symm)
          | succ i => exact .inl ⟨i, b, hb, hStart, by omega⟩
        · have hNe := hNone c List.mem_cons_self
          refine .inr ⟨?_, ?_⟩
          · rw [Function.update_of_ne (fun hEq => hNe hEq.symm)]
            exact hMap
          · intro d hd
            exact hNone d (List.mem_cons_of_mem _ hd)

theorem startMap_eq_some
    (hDistinct : Distinct blocks)
    (a : Ps3Uintptr)
    (v : Nat) :
    startMap blocks a = some v ↔
      ∃ b, blocks[v]? = some b ∧ b.start = a := by
  unfold startMap
  rw [foldl_startMap hDistinct]
  constructor
  · rintro (⟨i, b, hb, hStart, rfl⟩ | ⟨hMap, -⟩)
    · exact ⟨b, by simpa using hb, hStart⟩
    · cases hMap
  · rintro ⟨b, hb, hStart⟩
    exact .inl ⟨v, b, hb, hStart, by omega⟩

/- A block ends with a branch to another block. -/
def Branches
    (analyze : Analyze)
    (blocks : List BasicBlock)
    (b c : BasicBlock) : Prop :=
  b ∈ blocks ∧ c ∈ blocks ∧ c.start ∈ branchTargets analyze b

/- The same for the positions of the blocks. -/
def Adjacent (g : Graph) (i j : Nat) : Prop :=
  ∃ e ∈ g.edges, e.source = i ∧ e.target = j

theorem adjacent_iff
    {analyze : Analyze}
    (hDistinct : Distinct blocks)
    (i j : Nat) :
    Adjacent (buildGraph blocks analyze) i j ↔
      ∃ b c, blocks[i]? = some b ∧ blocks[j]? = some c ∧
        c.start ∈ branchTargets analyze b := by
  simp only [Adjacent, buildGraph, List.mem_flatMap,
    List.mem_filterMap, Option.map_eq_some_iff, Prod.exists,
    List.mem_zipIdx_iff_getElem?,
    startMap_eq_some hDistinct]
  constructor
  · rintro ⟨e, ⟨b, v, hb, target, hTarget, tv, ⟨c, hc, rfl⟩,
      rfl⟩, rfl, rfl⟩
    exact ⟨b, c, hb, hc, hTarget⟩
  · rintro ⟨b, c, hb, hc, hTarget⟩
    exact
      ⟨_, ⟨b, i, hb, c.start, hTarget, j, ⟨c, hc, rfl⟩, rfl⟩,
        rfl, rfl⟩

theorem mem_predecessors
    (g : Graph)
    (i j : Nat) :
    i ∈ g.predecessors j ↔ Adjacent g i j := by
  simp only [Graph.predecessors, List.mem_map,
    List.mem_filter, decide_eq_true_eq, Adjacent]
  constructor
  · rintro ⟨e, ⟨he, hTarget⟩, hSource⟩
    exact ⟨e, he, hSource, hTarget⟩
  · rintro ⟨e, he, hSource, hTarget⟩
    exact ⟨e, ⟨he, hTarget⟩, hSource⟩

/- Paths along positions are paths along blocks. -/
theorem reaches_iff
    {analyze : Analyze}
    (hDistinct : Distinct blocks)
    {i j : Nat}
    {b c : BasicBlock}
    (hb : blocks[i]? = some b)
    (hc : blocks[j]? = some c) :
    Relation.ReflTransGen
        (Adjacent (buildGraph blocks analyze)) i j ↔
      Relation.ReflTransGen (Branches analyze blocks) b c := by
  constructor
  · intro hPath
    have hStep :
        ∀ k l, Adjacent (buildGraph blocks analyze) k l →
          Branches analyze blocks (blocks.getD k b)
            (blocks.getD l b) := by
      intro k l hAdjacent
      rcases (adjacent_iff hDistinct k l).mp hAdjacent with
        ⟨d, e, hd, he, hTarget⟩
      simp only [List.getD, hd, he, Option.getD_some]
      exact
        ⟨List.mem_of_getElem? hd, List.mem_of_getElem? he,
          hTarget⟩
    have hLift :
        Relation.ReflTransGen (Branches analyze blocks)
          (blocks.getD i b) (blocks.getD j b) :=
      hPath.lift (fun k => blocks.getD k b) hStep
    simpa only [List.getD, hb, hc, Option.getD_some] using
      hLift
  · intro hPath
    have hStep :
        ∀ d e, Branches analyze blocks d e →
          Adjacent (buildGraph blocks analyze)
            (blocks.idxOf d) (blocks.idxOf e) := by
      rintro d e ⟨hd, he, hTarget⟩
      refine (adjacent_iff hDistinct _ _).mpr
        ⟨d, e, ?_, ?_, hTarget⟩
      · exact List.getElem?_idxOf hd
      · exact List.getElem?_idxOf he
    have hLift :
        Relation.ReflTransGen
          (Adjacent (buildGraph blocks analyze))
          (blocks.idxOf b) (blocks.idxOf c) :=
      hPath.lift (fun d => blocks.idxOf d) hStep
    have hIndex :
        ∀ k d, blocks[k]? = some d → blocks.idxOf d = k := by
      intro k d hd
      rcases List.getElem?_eq_some_iff.mp hd with ⟨hk, rfl⟩
      exact hDistinct.nodup.idxOf_getElem k hk
    rwa [hIndex i b hb, hIndex j c hc] at hLift

------------------------------------------------------------
-- Removal
------------------------------------------------------------

/- A search from one of the vertices discovers `i`. -/
def doomed
    (g : Graph)
    (removeIf : BasicBlock → Bool)
    (vertices : List (Vertex × Nat))
    (i : Nat) : Bool :=
  vertices.any (fun (v, j) =>
    removeIf v.block && decide (i ∈ g.discovered j))

/- The property is given a new value for each vertex. -/
def setInvalid
    (invalid : Nat → Bool)
    (vertices : List Vertex) : List Vertex :=
  vertices.mapIdx (fun i v =>
    { v with invalid := v.invalid || invalid i })

theorem markInvalid_eq (g : Graph) (marked : List Nat) :
    g.markInvalid marked =
      { g with
        vertices :=
          setInvalid (fun i => decide (i ∈ marked))
            g.vertices } := by
  simp only [Graph.markInvalid, setInvalid, Graph.mk.injEq,
    and_true]
  apply List.ext_getElem?
  intro i
  simp only [List.getElem?_mapIdx]
  cases g.vertices[i]? with
  | none => rfl
  | some v =>
      by_cases hMarked : i ∈ marked
      · simp [hMarked]
      · simp [hMarked]

theorem setInvalid_setInvalid
    (first second : Nat → Bool)
    (vertices : List Vertex) :
    setInvalid second (setInvalid first vertices) =
      setInvalid (fun i => first i || second i) vertices := by
  apply List.ext_getElem?
  intro i
  simp only [setInvalid, List.getElem?_mapIdx,
    Option.map_map, Function.comp_def, Bool.or_assoc]

/- One depth-first visit after another. -/
theorem foldl_markInvalid
    (g h : Graph)
    (removeIf : BasicBlock → Bool)
    (vertices : List (Vertex × Nat)) :
    vertices.foldl
        (fun h (v, i) =>
          if removeIf v.block then
            h.markInvalid (g.discovered i)
          else h)
        h =
      { h with
        vertices :=
          setInvalid (doomed g removeIf vertices)
            h.vertices } := by
  induction vertices generalizing h with
  | nil =>
      have hSame :
          setInvalid (doomed g removeIf []) h.vertices =
            h.vertices := by
        apply List.ext_getElem?
        intro i
        simp [setInvalid, doomed]
      rw [List.foldl_nil, hSame]
  | cons head rest ih =>
      rcases head with ⟨v, j⟩
      have hCons :
          ∀ i, doomed g removeIf ((v, j) :: rest) i =
            ((removeIf v.block &&
                decide (i ∈ g.discovered j)) ||
              doomed g removeIf rest i) := by
        intro i
        rfl
      simp only [List.foldl_cons, ih, funext hCons]
      cases removeIf v.block with
      | true =>
          simp only [if_true, markInvalid_eq,
            setInvalid_setInvalid, Bool.true_and]
      | false =>
          simp only [Bool.false_eq_true, if_false,
            Bool.false_and, Bool.false_or]

/- What is left of a list of blocks. -/
def keep
    (invalid : Nat → Bool)
    (blocks : List BasicBlock) : List BasicBlock :=
  (((setInvalid invalid
    (blocks.map (fun b => ⟨b, false⟩))).filter
      (!·.invalid)).map Vertex.block)

theorem keep_cons
    (invalid : Nat → Bool)
    (b : BasicBlock)
    (rest : List BasicBlock) :
    keep invalid (b :: rest) =
      (if invalid 0 then [] else [b]) ++
        keep (fun i => invalid (i + 1)) rest := by
  unfold keep setInvalid
  rw [List.map_cons, List.mapIdx_cons, List.filter_cons]
  cases invalid 0 with
  | true => rfl
  | false => rfl

theorem keep_sublist
    (invalid : Nat → Bool)
    (blocks : List BasicBlock) :
    (keep invalid blocks).Sublist blocks := by
  induction blocks generalizing invalid with
  | nil => exact .slnil
  | cons b rest ih =>
      rw [keep_cons]
      cases invalid 0 with
      | true => exact (ih _).cons b
      | false => exact (ih _).cons_cons b

theorem mem_keep
    (invalid : Nat → Bool)
    (blocks : List BasicBlock)
    (b : BasicBlock) :
    b ∈ keep invalid blocks ↔
      ∃ i, blocks[i]? = some b ∧ invalid i = false := by
  induction blocks generalizing invalid with
  | nil => simp [keep, setInvalid]
  | cons c rest ih =>
      rw [keep_cons, List.mem_append, ih]
      constructor
      · rintro (hHead | ⟨i, hi, hInvalid⟩)
        · refine ⟨0, ?_⟩
          cases hFirst : invalid 0 with
          | true => simp [hFirst] at hHead
          | false =>
              rw [hFirst] at hHead
              rw [List.mem_singleton.mp hHead]
              exact ⟨rfl, rfl⟩
        · exact ⟨i + 1, hi, hInvalid⟩
      · rintro ⟨i, hi, hInvalid⟩
        cases i with
        | zero =>
            cases hi
            left
            rw [hInvalid]
            exact List.mem_singleton_self b
        | succ i => exact .inr ⟨i, hi, hInvalid⟩

/- The blocks that a removal leaves. -/
theorem graphToBlocks_removeVertices
    (blocks : List BasicBlock)
    (analyze : Analyze)
    (removeIf : BasicBlock → Bool) :
    graphToBlocks
        (removeVertices (buildGraph blocks analyze) removeIf) =
      keep
        (doomed (buildGraph blocks analyze) removeIf
          (buildGraph blocks analyze).vertices.zipIdx)
        blocks := by
  unfold removeVertices
  rw [foldl_markInvalid]
  rfl

theorem removeVertices_sublist
    (blocks : List BasicBlock)
    (analyze : Analyze)
    (removeIf : BasicBlock → Bool) :
    (graphToBlocks
      (removeVertices (buildGraph blocks analyze)
        removeIf)).Sublist blocks := by
  rw [graphToBlocks_removeVertices]
  exact keep_sublist _ _

/- A search discovers the vertices that lead to its start. -/
theorem mem_discovered
    (analyze : Analyze)
    (hDistinct : Distinct blocks)
    {i j : Nat}
    {b c : BasicBlock}
    (hb : blocks[i]? = some b)
    (hc : blocks[j]? = some c) :
    i ∈ (buildGraph blocks analyze).discovered j ↔
      Relation.ReflTransGen (Branches analyze blocks) b c := by
  have hClosed :
      ∀ v ∈ Finset.range blocks.length, ∀ w,
        Reachability.Next
          (buildGraph blocks analyze).predecessors v w →
        w ∈ Finset.range blocks.length := by
    intro v _ w hNext
    rcases (adjacent_iff hDistinct w v).mp
      ((mem_predecessors _ w v).mp hNext) with
      ⟨d, e, hd, -, -⟩
    exact
      Finset.mem_range.mpr
        (List.getElem?_eq_some_iff.mp hd).1
  have hj : j ∈ Finset.range blocks.length :=
    Finset.mem_range.mpr (List.getElem?_eq_some_iff.mp hc).1
  have hVisit := Reachability.mem_visit_iff hClosed hj i
  rw [Finset.card_range] at hVisit
  unfold Graph.discovered
  rw [show (buildGraph blocks analyze).vertices.length =
    blocks.length from List.length_map _, hVisit,
    ← reaches_iff hDistinct hb hc,
    ← Relation.reflTransGen_swap]
  constructor
  · apply Relation.ReflTransGen.mono
    intro v w hNext
    exact (mem_predecessors _ v w).mp hNext
  · apply Relation.ReflTransGen.mono
    intro v w hAdjacent
    exact (mem_predecessors _ v w).mpr hAdjacent

/-
  A removal leaves the blocks from which no block that is to
  be removed is reached along branches.
-/
theorem mem_removeVertices_iff
    (analyze : Analyze)
    (removeIf : BasicBlock → Bool)
    (hDistinct : Distinct blocks)
    (b : BasicBlock) :
    b ∈ graphToBlocks
        (removeVertices (buildGraph blocks analyze)
          removeIf) ↔
      b ∈ blocks ∧
        ∀ c ∈ blocks,
          Relation.ReflTransGen (Branches analyze blocks) b
            c →
          removeIf c = false := by
  rw [graphToBlocks_removeVertices, mem_keep]
  have hDoomed :
      ∀ i, blocks[i]? = some b →
        (doomed (buildGraph blocks analyze) removeIf
            (buildGraph blocks analyze).vertices.zipIdx i =
          false ↔
        ∀ c ∈ blocks,
          Relation.ReflTransGen (Branches analyze blocks) b
            c →
          removeIf c = false) := by
    intro i hi
    simp only [doomed, List.any_eq_false, Prod.forall,
      List.mem_zipIdx_iff_getElem?, Bool.and_eq_true,
      decide_eq_true_eq, not_and, buildGraph_vertices,
      List.getElem?_map, Option.map_eq_some_iff]
    constructor
    · intro hAll c hc hPath
      rcases List.mem_iff_getElem?.mp hc with ⟨j, hj⟩
      by_contra hRemove
      have hNot :=
        hAll ⟨c, false⟩ j ⟨c, hj, rfl⟩
          (Bool.eq_true_of_not_eq_false hRemove)
      exact
        hNot ((mem_discovered analyze hDistinct hi hj).mpr
          hPath)
    · rintro hAll v j ⟨c, hj, rfl⟩ hRemove hSeen
      have hPath :=
        (mem_discovered analyze hDistinct hi hj).mp hSeen
      rw [hAll c (List.mem_of_getElem? hj) hPath] at hRemove
      cases hRemove
  constructor
  · rintro ⟨i, hi, hKeep⟩
    exact ⟨List.mem_of_getElem? hi, (hDoomed i hi).mp hKeep⟩
  · rintro ⟨hb, hAll⟩
    rcases List.mem_iff_getElem?.mp hb with ⟨i, hi⟩
    exact ⟨i, hi, (hDoomed i hi).mpr hAll⟩

end Rewriter

end Ps3emu
