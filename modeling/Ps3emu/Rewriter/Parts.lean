import Mathlib.Data.List.Perm.Basic
import Ps3emu.Rewriter.Closure

/-
  The partition of the blocks of a segment into parts, each of
  which becomes a function, and the addresses that lead out of
  a part.  The partition of the graph is a parameter.

  Key definitions include:
    * `partitionBasicBlocks`
    * `outOfPartTargets`

  Key theorems include:
    * `partitionBasicBlocks_perm`
    * `partitionBasicBlocks_ordered`
    * `Ordered.next`
-/

------------------------------------------------------------
-- Parts and Permutations
------------------------------------------------------------

namespace Ps3emu

namespace Rewriter

/-
  `METIS_PartGraphRecursive`: the numbers of the parts of the
  vertices, or nothing if an error is returned.
-/
abbrev Metis := Graph → Nat → Option (Nat → Nat)

/- `res.at(n).push_back(b)`. -/
def pushBack
    (res : List (List BasicBlock))
    (n : Nat)
    (b : BasicBlock) :
    Except Failure (List (List BasicBlock)) :=
  if n < res.length then return res.modify n (· ++ [b])
  else throw (.error "out of range")

def sortBlocks (blocks : List BasicBlock) : List BasicBlock :=
  blocks.insertionSort
    (fun b c => b.start.toNat ≤ c.start.toNat)

/- One part unless there are two or more of the given size. -/
def partitionBasicBlocks
    (metis : Metis)
    (blocks : List BasicBlock)
    (analyze : Analyze)
    (partSize : Nat) :
    Except Failure (List (List BasicBlock)) := do
  let g := buildGraph blocks analyze
  let nparts := blocks.length / partSize
  if nparts ≤ 1 then return [blocks]
  else
    match metis g nparts with
    | none => throw (.error "metis error")
    | some partNumbers => do
        let res ← g.vertices.zipIdx.foldlM
          (fun res (v, i) =>
            pushBack res (partNumbers i) v.block)
          (List.replicate nparts [])
        return res.map sortBlocks

/- Some block of the part starts at the address. -/
def startsAt
    (part : List BasicBlock)
    (target : Ps3Uintptr) : Bool :=
  part.any (fun b => b.start == target)

/-
  The target and the address after the block, if no block of
  the part starts there; no address after it is zero.
-/
def outOfPartTargets
    (block : BasicBlock)
    (part : List BasicBlock)
    (analyze : Analyze) : Option Ps3Uintptr × Ps3Uintptr :=
  let info := analyze (block.start + block.len - 4#32)
  let fallthrough := block.start + block.len
  let fallthrough :=
    if (info.flow && !info.passthrough) ||
        startsAt part fallthrough then
      0#32
    else fallthrough
  let target :=
    info.target.filter
      (fun t => info.flow && !startsAt part t)
  (target, fallthrough)

variable {part : List BasicBlock}

theorem startsAt_iff
    {target : Ps3Uintptr} :
    startsAt part target = true ↔
      ∃ b ∈ part, b.start = target := by
  simp [startsAt]

theorem flatten_modify_perm
    {res : List (List BasicBlock)}
    {n : Nat}
    (hLt : n < res.length)
    (b : BasicBlock) :
    (res.modify n (· ++ [b])).flatten.Perm
      (res.flatten ++ [b]) := by
  induction res generalizing n with
  | nil => cases hLt
  | cons part rest ih =>
      cases n with
      | zero =>
          rw [List.modify_zero_cons, List.flatten_cons,
            List.flatten_cons, List.append_assoc,
            List.append_assoc]
          exact (List.perm_append_comm).append_left part
      | succ n =>
          rw [List.modify_succ_cons, List.flatten_cons,
            List.flatten_cons, List.append_assoc]
          exact (ih (Nat.lt_of_succ_lt_succ hLt)).append_left part

/- The loop puts every vertex into one of the parts. -/
theorem foldlM_pushBack_perm
    {partNumbers : Nat → Nat}
    {vertices : List (Vertex × Nat)}
    {res res' : List (List BasicBlock)}
    (hLoop :
      vertices.foldlM
          (fun res (v, i) =>
            pushBack res (partNumbers i) v.block) res =
        .ok res') :
    res'.flatten.Perm
      (res.flatten ++ vertices.map (fun p => p.1.block)) := by
  induction vertices generalizing res with
  | nil =>
      cases hLoop
      rw [List.map_nil, List.append_nil]
  | cons p rest ih =>
      rw [List.foldlM_cons] at hLoop
      rcases Fallible.bind_eq_ok.mp hLoop with
        ⟨mid, hPush, hRest⟩
      change pushBack res (partNumbers p.2) p.1.block = _
        at hPush
      unfold pushBack at hPush
      split at hPush
      case isFalse => cases hPush
      case isTrue hLt =>
        cases hPush
        have hHead := flatten_modify_perm hLt p.1.block
        have hTail := ih hRest
        rw [List.map_cons, ← List.singleton_append,
          ← List.append_assoc]
        exact hTail.trans (hHead.append_right _)

theorem flatten_map_sort_perm
    (parts : List (List BasicBlock)) :
    (parts.map sortBlocks).flatten.Perm parts.flatten := by
  induction parts with
  | nil => exact .refl _
  | cons part rest ih =>
      rw [List.map_cons, List.flatten_cons, List.flatten_cons]
      exact (List.perm_insertionSort _ part).append ih

variable {metis : Metis} {blocks : List BasicBlock} {partSize : Nat}
variable {parts : List (List BasicBlock)}
variable {analyze : Analyze}

/- Every block is in one part, and once. -/
theorem partitionBasicBlocks_perm
    (hParts :
      partitionBasicBlocks metis blocks analyze partSize =
        .ok parts) :
    parts.flatten.Perm blocks := by
  unfold partitionBasicBlocks at hParts
  dsimp only at hParts
  split at hParts
  case isTrue =>
    cases hParts
    rw [List.flatten_singleton]
  case isFalse =>
    split at hParts
    case h_1 => cases hParts
    case h_2 partNumbers _ =>
      rcases Fallible.bind_eq_ok.mp hParts with
        ⟨res, hLoop, hSort⟩
      cases hSort
      have hPerm := foldlM_pushBack_perm hLoop
      have hEmpty :
          (List.replicate (blocks.length / partSize)
            ([] : List BasicBlock)).flatten = [] := by
        simp
      have hBlocks :
          ((buildGraph blocks analyze).vertices.zipIdx.map
            (fun p => p.1.block)) = blocks := by
        have hVertices :
            ∀ vs : List Vertex,
              vs.zipIdx.map (fun p => p.1.block) =
                vs.map Vertex.block := by
          intro vs
          rw [← List.zipIdx_map_fst 0 vs, List.map_map,
            List.zipIdx_map_fst]
          rfl
        rw [hVertices, buildGraph_vertices, List.map_map]
        exact List.map_id _
      rw [hEmpty, hBlocks, List.nil_append] at hPerm
      exact (flatten_map_sort_perm res).trans hPerm

------------------------------------------------------------
-- Order
------------------------------------------------------------

/- Each block ends before the ones behind it start. -/
def Ordered (part : List BasicBlock) : Prop :=
  part.Pairwise (fun b c => b.finish ≤ c.start.toNat)

theorem sortBlocks_pairwise (part : List BasicBlock) :
    (sortBlocks part).Pairwise
      (fun b c => b.start.toNat ≤ c.start.toNat) := by
  have : Std.Total
      (fun b c : BasicBlock => b.start.toNat ≤ c.start.toNat) :=
    ⟨fun b c => Nat.le_total b.start.toNat c.start.toNat⟩
  have : IsTrans BasicBlock
      (fun b c => b.start.toNat ≤ c.start.toNat) :=
    ⟨fun _ _ _ => Nat.le_trans⟩
  exact List.pairwise_insertionSort _ part

/- Either the given list, or a sorted one. -/
theorem partitionBasicBlocks_pairwise
    (hParts :
      partitionBasicBlocks metis blocks analyze partSize =
        .ok parts)
    (hPart : part ∈ parts) :
    part = blocks ∨
      part.Pairwise
        (fun b c => b.start.toNat ≤ c.start.toNat) := by
  unfold partitionBasicBlocks at hParts
  dsimp only at hParts
  split at hParts
  case isTrue =>
    cases hParts
    exact .inl (List.mem_singleton.mp hPart)
  case isFalse =>
    split at hParts
    case h_1 => cases hParts
    case h_2 partNumbers _ =>
      rcases Fallible.bind_eq_ok.mp hParts with
        ⟨res, -, hSort⟩
      cases hSort
      rcases List.mem_map.mp hPart with ⟨old, -, rfl⟩
      exact .inr (sortBlocks_pairwise old)

/- Blocks that share no address are ordered by their starts. -/
theorem finish_le_of_start_le
    {b c : BasicBlock}
    (hApart : Apart b c)
    (hLe : b.start.toNat ≤ c.start.toNat)
    (hNonempty : 0 < c.len.toNat) :
    b.finish ≤ c.start.toNat := by
  rcases hApart with hBefore | hAfter
  · exact hBefore
  · unfold BasicBlock.finish at hAfter ⊢
    omega

/- Parts of a list of blocks that do not overlap. -/
theorem partitionBasicBlocks_ordered
    (hOrdered : Ordered blocks)
    (hNonempty : ∀ b ∈ blocks, 0 < b.len.toNat)
    (hParts :
      partitionBasicBlocks metis blocks analyze partSize =
        .ok parts)
    (hPart : part ∈ parts) :
    Ordered part ∧ ∀ b ∈ part, b ∈ blocks := by
  have hPerm := partitionBasicBlocks_perm hParts
  have hSubset : ∀ b ∈ part, b ∈ blocks := by
    intro b hb
    exact hPerm.subset (List.mem_flatten.mpr ⟨part, hPart, hb⟩)
  refine ⟨?_, hSubset⟩
  rcases partitionBasicBlocks_pairwise hParts hPart with
    rfl | hSorted
  · exact hOrdered
  · have hApart : part.Pairwise Apart := by
      have hAll : parts.flatten.Pairwise Apart := by
        refine (hPerm.pairwise_iff ?_).mpr ?_
        · intro b c hSides
          exact hSides.symm
        · exact hOrdered.imp (fun hBefore => .inl hBefore)
      exact (List.pairwise_flatten.mp hAll).1 part hPart
    refine (hSorted.and hApart).imp_of_mem ?_
    rintro b c - hc ⟨hLe, hSides⟩
    exact
      finish_le_of_start_le hSides hLe
        (hNonempty c (hSubset c hc))

/- The block at the end of another one comes next. -/
theorem Ordered.next
    {before after : List BasicBlock}
    {b c : BasicBlock}
    (hOrdered : Ordered (before ++ b :: after))
    (hNonempty :
      ∀ d ∈ before ++ b :: after, 0 < d.len.toNat)
    (hc : c ∈ before ++ b :: after)
    (hStart : c.start.toNat = b.finish) :
    ∃ rest, after = c :: rest := by
  have hPos := hNonempty b (by simp)
  rcases List.pairwise_append.mp hOrdered with
    ⟨-, hTail, hBefore⟩
  rcases List.pairwise_cons.mp hTail with ⟨hAfter, hRest⟩
  unfold BasicBlock.finish at hStart hBefore hAfter
  rcases List.mem_append.mp hc with hLeft | hRight
  · have hLt := hBefore c hLeft b List.mem_cons_self
    omega
  · cases hRight with
    | head => omega
    | tail _ hIn =>
        cases after with
        | nil => cases hIn
        | cons d rest =>
            refine ⟨rest, ?_⟩
            cases hIn with
            | head => rfl
            | tail _ hLater =>
                -- the next block would have no address
                have hLe :=
                  (List.pairwise_cons.mp hRest).1 c hLater
                have hFirst := hAfter d List.mem_cons_self
                have hLen := hNonempty d (by simp)
                unfold BasicBlock.finish at hLe
                omega

/- The list that is discovered is ordered. -/
theorem Partition.ordered
    {start length : BitVec 32}
    {leads : List Ps3Uintptr}
    (hPartition :
      Partition start length leads analyze blocks) :
    Ordered blocks := by
  refine
    (hPartition.sorted.and hPartition.disjoint).imp_of_mem ?_
  rintro b c - hc ⟨hLt, hDisjoint⟩
  have hPos := hPartition.nonempty c hc
  have hNot := hDisjoint c.start
  unfold BasicBlock.Contains BasicBlock.finish at hNot
  unfold BasicBlock.finish
  omega

end Rewriter

end Ps3emu
