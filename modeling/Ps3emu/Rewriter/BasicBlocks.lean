import Mathlib.Data.List.Pairwise
import Ps3emu.Rewriter.CodeMap

/-
  The cut of a segment into basic blocks at its breaks.

  Key definitions include:
    * `BasicBlock`
    * `makeBasicBlocks`
    * `Tiles`, `BlockOk`

  Key theorems include:
    * `makeBasicBlocks_spec`
    * `makeBasicBlocks_isOk`
-/

------------------------------------------------------------
-- Blocks, Cuts and Tiles
------------------------------------------------------------

namespace Ps3emu

namespace Rewriter

structure BasicBlock where
  start : Ps3Uintptr
  len : BitVec 32
deriving DecidableEq

namespace BasicBlock

/- The first address after the block. -/
def finish (b : BasicBlock) : Nat :=
  b.start.toNat + b.len.toNat

/- The address of the last instruction. -/
def lastVa (b : BasicBlock) : Ps3Uintptr :=
  b.start + b.len - 4#32

/- `operator<` on the pairs of start and length. -/
def Less (a b : BasicBlock) : Prop :=
  a.start.toNat < b.start.toNat ∨
    (a.start = b.start ∧ a.len.toNat < b.len.toNat)

instance (a b : BasicBlock) : Decidable (Less a b) :=
  inferInstanceAs (Decidable (_ ∨ _))

/- The address lies in the block. -/
def Contains (b : BasicBlock) (a : Ps3Uintptr) : Prop :=
  b.start.toNat ≤ a.toNat ∧ a.toNat < b.finish

end BasicBlock

/- Insertion into an ordered set of blocks. -/
def insertBlock
    (b : BasicBlock) : List BasicBlock → List BasicBlock
  | [] => [b]
  | c :: rest =>
      if b.Less c then b :: c :: rest
      else if c.Less b then c :: insertBlock b rest
      else c :: rest

variable {blocks : List BasicBlock}

theorem insertBlock_append
    {b : BasicBlock}
    (hLast : ∀ c ∈ blocks, c.start.toNat < b.start.toNat) :
    insertBlock b blocks = blocks ++ [b] := by
  induction blocks with
  | nil => rfl
  | cons c rest ih =>
      have hLt := hLast c List.mem_cons_self
      have hNot : ¬ b.Less c := by
        rintro (hLess | ⟨hSame, -⟩)
        · omega
        · rw [hSame] at hLt
          omega
      rw [insertBlock, if_neg hNot, if_pos (.inl hLt),
        ih (fun d hd => hLast d (List.mem_cons_of_mem _ hd)),
        List.cons_append]

/- The blocks that are closed, and the one that grows. -/
structure Sweep where
  blocks : List BasicBlock
  block : BasicBlock
deriving DecidableEq

def makeBasicBlocksStep
    (breaks : CodeMap)
    (s : Sweep)
    (cia : Ps3Uintptr) : Except Failure Sweep := do
  let isBreak ← breaks.get cia
  let s :=
    if isBreak = true ∧ s.block.len ≠ 0#32 then
      { blocks := insertBlock s.block s.blocks
        block := ⟨cia, 0#32⟩ : Sweep }
    else s
  return { s with
    block := { s.block with len := s.block.len + 4#32 } }

/- The last block is inserted if it is not empty. -/
def Sweep.close (s : Sweep) : List BasicBlock :=
  if s.block.len ≠ 0#32 then insertBlock s.block s.blocks
  else s.blocks

def makeBasicBlocks
    (start len : BitVec 32)
    (breaks : CodeMap) :
    Except Failure (List BasicBlock) := do
  let s ←
    (whileLt start (start + len)).foldlM
      (makeBasicBlocksStep breaks) ⟨[], ⟨start, 0#32⟩⟩
  return s.close

/- Blocks that follow each other from one address to another. -/
def Tiles : Nat → List BasicBlock → Nat → Prop
  | a, [], z => a = z
  | a, b :: rest, z =>
      b.start.toNat = a ∧ 0 < b.len.toNat ∧
        Tiles b.finish rest z

theorem Tiles.snoc
    {a m : Nat}
    {b : BasicBlock}
    (hTiles : Tiles a blocks m)
    (hStart : b.start.toNat = m)
    (hPos : 0 < b.len.toNat) :
    Tiles a (blocks ++ [b]) b.finish := by
  induction blocks generalizing a with
  | nil => exact ⟨hStart.trans hTiles.symm, hPos, rfl⟩
  | cons c rest ih =>
      exact ⟨hTiles.1, hTiles.2.1, ih hTiles.2.2⟩

theorem Tiles.le
    {a z : Nat}
    (hTiles : Tiles a blocks z) :
    a ≤ z := by
  induction blocks generalizing a with
  | nil => exact Nat.le_of_eq hTiles
  | cons c rest ih =>
      have hRest := ih hTiles.2.2
      have hStart := hTiles.1
      unfold BasicBlock.finish at hRest
      omega

theorem Tiles.bounds
    {a z : Nat}
    (hTiles : Tiles a blocks z)
    {b : BasicBlock}
    (hb : b ∈ blocks) :
    a ≤ b.start.toNat ∧ b.finish ≤ z ∧ 0 < b.len.toNat := by
  induction blocks generalizing a with
  | nil => cases hb
  | cons c rest ih =>
      have hStart := hTiles.1
      have hPos := hTiles.2.1
      have hLe := hTiles.2.2.le
      cases hb with
      | head =>
          exact ⟨Nat.le_of_eq hStart.symm, hLe, hPos⟩
      | tail _ hRest =>
          have hBounds := ih hTiles.2.2 hRest
          unfold BasicBlock.finish at hBounds hLe ⊢
          omega

/- Each block ends where a later one starts, or before. -/
theorem Tiles.pairwise
    {a z : Nat}
    (hTiles : Tiles a blocks z) :
    blocks.Pairwise
      (fun b c => b.finish ≤ c.start.toNat) := by
  induction blocks generalizing a with
  | nil => exact .nil
  | cons b rest ih =>
      refine List.pairwise_cons.mpr ⟨?_, ih hTiles.2.2⟩
      intro c hc
      exact (hTiles.2.2.bounds hc).1

------------------------------------------------------------
-- Specification
------------------------------------------------------------

/- No break lies inside the addresses of a block. -/
def Unbroken (breaks : CodeMap) (b : BasicBlock) : Prop :=
  ∀ a : Ps3Uintptr,
    a.toNat % 4 = 0 →
    b.start.toNat < a.toNat →
    a.toNat < b.finish →
    ¬ breaks.Marked a

structure BlockOk
    (breaks : CodeMap)
    (b : BasicBlock) : Prop where
  start : b.start.toNat % 4 = 0
  len : b.len.toNat % 4 = 0
  unbroken : Unbroken breaks b

/- The sweep has come to the address `c`. -/
structure SweepOk
    (breaks : CodeMap)
    (a c : Nat)
    (s : Sweep) : Prop where
  tiles : Tiles a s.blocks s.block.start.toNat
  block : ∀ b ∈ s.blocks, BlockOk breaks b
  current : BlockOk breaks s.block
  finish : s.block.finish = c

variable {breaks : CodeMap}

/- A block that is not empty is put behind the others. -/
theorem SweepOk.insert
    {a c : Nat}
    {s : Sweep}
    (hSweep : SweepOk breaks a c s)
    (hLen : s.block.len ≠ 0#32) :
    Tiles a (insertBlock s.block s.blocks) c ∧
      ∀ b ∈ insertBlock s.block s.blocks,
        BlockOk breaks b := by
  have hPos : 0 < s.block.len.toNat := by bv_omega
  have hAppend :
      insertBlock s.block s.blocks =
        s.blocks ++ [s.block] := by
    apply insertBlock_append
    intro b hb
    have hBounds := hSweep.tiles.bounds hb
    unfold BasicBlock.finish at hBounds
    omega
  rw [hAppend, ← hSweep.finish]
  refine ⟨hSweep.tiles.snoc rfl hPos, ?_⟩
  intro b hb
  rcases List.mem_append.mp hb with hOld | hNew
  · exact hSweep.block b hOld
  · rw [List.mem_singleton.mp hNew]
    exact hSweep.current

variable {cia : Ps3Uintptr}

theorem SweepOk.step
    {a c : Nat}
    {s t : Sweep}
    (hSweep : SweepOk breaks a c s)
    (hCia : cia.toNat = c)
    (hFits : c + 4 < 2 ^ 32)
    (hStep : makeBasicBlocksStep breaks s cia = .ok t) :
    SweepOk breaks a (c + 4) t := by
  rcases Fallible.bind_eq_ok.mp hStep with
    ⟨isBreak, hGet, hRest⟩
  rcases CodeMap.get_eq_ok.mp hGet with ⟨hAligned, hBit⟩
  cases hRest
  have hFinish := hSweep.finish
  have hCurrent := hSweep.current
  unfold BasicBlock.finish at hFinish
  by_cases hCut : isBreak = true ∧ s.block.len ≠ 0#32
  · -- the block that starts at `cia` has one instruction
    rw [if_pos hCut]
    have hInsert := hSweep.insert hCut.2
    have hFour : (0#32 + 4#32).toNat = 4 := rfl
    refine ⟨?_, hInsert.2, ⟨hAligned, ?_, ?_⟩, ?_⟩
    · rw [hCia]
      exact hInsert.1
    · simp only [hFour]
    · intro b hb hLower hUpper
      simp only [BasicBlock.finish, hFour] at hLower hUpper
      omega
    · simp only [BasicBlock.finish, hFour]
      omega
  · rw [if_neg hCut]
    have hLen :
        (s.block.len + 4#32).toNat = s.block.len.toNat + 4 :=
      toNat_add_ofNat _ 4 (by omega)
    have hOldLen := hCurrent.len
    refine
      ⟨hSweep.tiles, hSweep.block,
        ⟨hCurrent.start, by simp only; omega, ?_⟩, ?_⟩
    · intro b hb hLower hUpper
      simp only [BasicBlock.finish] at hLower hUpper
      by_cases hOld : b.toNat < c
      · apply hCurrent.unbroken b hb hLower
        unfold BasicBlock.finish
        omega
      · -- only `cia` itself is new
        have hSame : b = cia := by
          apply BitVec.eq_of_toNat_eq
          omega
        rw [hSame] at hLower ⊢
        intro hMarked
        unfold CodeMap.Marked at hMarked
        rw [hBit] at hMarked
        cases hMarked
        apply hCut
        refine ⟨rfl, ?_⟩
        intro hZero
        have hNone : s.block.len.toNat = 0 := by
          rw [hZero]
          rfl
        omega
    · simp only [BasicBlock.finish]
      omega

theorem SweepOk.loop
    {a : Nat}
    {n : Nat}
    {s t : Sweep}
    (hSweep : SweepOk breaks a cia.toNat s)
    (hFits : cia.toNat + 4 * n < 2 ^ 32)
    (hLoop :
      (rounds n cia).foldlM (makeBasicBlocksStep breaks) s =
        .ok t) :
    SweepOk breaks a (cia.toNat + 4 * n) t := by
  induction n generalizing cia s with
  | zero =>
      cases hLoop
      exact hSweep
  | succ n ih =>
      rw [rounds, List.foldlM_cons] at hLoop
      rcases Fallible.bind_eq_ok.mp hLoop with
        ⟨u, hFirst, hRest⟩
      have hNext :
          (cia + 4#32).toNat = cia.toNat + 4 :=
        toNat_add_ofNat _ 4 (by omega)
      have hStep := hSweep.step rfl (by omega) hFirst
      rw [← hNext] at hStep
      have hEnd := ih hStep (by omega) hRest
      rw [hNext] at hEnd
      have hSum :
          cia.toNat + 4 + 4 * n = cia.toNat + 4 * (n + 1) := by
        omega
      rwa [hSum] at hEnd

/- An assertion of the sweep fails if it starts unaligned. -/
theorem aligned_of_loop
    {n : Nat}
    {s t : Sweep}
    (hLoop :
      (rounds (n + 1) cia).foldlM
          (makeBasicBlocksStep breaks) s =
        .ok t) :
    cia.toNat % 4 = 0 := by
  rw [rounds, List.foldlM_cons] at hLoop
  rcases Fallible.bind_eq_ok.mp hLoop with ⟨u, hFirst, -⟩
  rcases Fallible.bind_eq_ok.mp hFirst with
    ⟨isBreak, hGet, -⟩
  exact (CodeMap.get_eq_ok.mp hGet).1

/- The addresses the cut goes through. -/
theorem whileLt_segment
    (start len : BitVec 32)
    (hFits : start.toNat + len.toNat < 2 ^ 32) :
    whileLt start (start + len) =
      rounds (len.toNat / 4) start := by
  have hEnd :
      (start + len).toNat = start.toNat + len.toNat := by
    rw [BitVec.toNat_add]
    omega
  have hDistance : start + len - start = len := by
    bv_omega
  unfold whileLt
  rw [hEnd, hDistance]
  split
  case isTrue => rfl
  case isFalse hZero =>
    have hNone : len.toNat / 4 = 0 := by omega
    rw [hNone, rounds]

theorem whileLt_wrapped
    (start len : BitVec 32)
    (hWraps : 2 ^ 32 ≤ start.toNat + len.toNat) :
    whileLt start (start + len) = [] := by
  apply whileLt_of_le
  rw [BitVec.toNat_add]
  omega

theorem SweepOk.close
    {a c : Nat}
    {s : Sweep}
    (hSweep : SweepOk breaks a c s) :
    Tiles a s.close c ∧
      ∀ b ∈ s.close, BlockOk breaks b := by
  unfold Sweep.close
  split
  case isTrue hLen => exact hSweep.insert hLen
  case isFalse hLen =>
    have hZero : s.block.len.toNat = 0 := by
      rw [not_not.mp hLen]
      rfl
    have hTiles := hSweep.tiles
    have hFinish := hSweep.finish
    unfold BasicBlock.finish at hFinish
    rw [hZero, Nat.add_zero] at hFinish
    rw [hFinish] at hTiles
    exact ⟨hTiles, hSweep.block⟩

/-
  The blocks tile the segment, and no break lies inside one.
  A segment whose end does not fit in a word has no blocks.
-/
theorem makeBasicBlocks_spec
    {start len : BitVec 32}
    (hDvd : 4 ∣ len.toNat)
    (hBlocks : makeBasicBlocks start len breaks = .ok blocks) :
    (start.toNat + len.toNat < 2 ^ 32 →
        Tiles start.toNat blocks
          (start.toNat + len.toNat)) ∧
      (2 ^ 32 ≤ start.toNat + len.toNat → blocks = []) ∧
      ∀ b ∈ blocks, BlockOk breaks b := by
  rcases Fallible.bind_eq_ok.mp hBlocks with
    ⟨s, hLoop, hClose⟩
  cases hClose
  by_cases hFits : start.toNat + len.toNat < 2 ^ 32
  · rw [whileLt_segment start len hFits] at hLoop
    cases hCount : len.toNat / 4 with
    | zero =>
        rw [hCount] at hLoop
        cases hLoop
        have hNone : Sweep.close ⟨[], ⟨start, 0#32⟩⟩ = [] := by
          simp [Sweep.close]
        rw [hNone]
        refine ⟨?_, fun _ => rfl, by simp⟩
        intro _
        change start.toNat = _
        omega
    | succ n =>
        rw [hCount] at hLoop
        have hAligned := aligned_of_loop hLoop
        have hStart :
            SweepOk breaks start.toNat start.toNat
              ⟨[], ⟨start, 0#32⟩⟩ := by
          refine ⟨rfl, ?_, ⟨hAligned, rfl, ?_⟩, rfl⟩
          · intro b hb
            cases hb
          · intro b hb hLower hUpper
            simp only [BasicBlock.finish,
              BitVec.toNat_ofNat] at hLower hUpper
            omega
        have hEnd := hStart.loop (by omega) hLoop
        have hLen : 4 * (n + 1) = len.toNat := by omega
        rw [hLen] at hEnd
        have hClose := hEnd.close
        exact
          ⟨fun _ => hClose.1, fun hWraps => by omega,
            hClose.2⟩
  · rw [whileLt_wrapped start len (by omega)] at hLoop
    cases hLoop
    have hNone : Sweep.close ⟨[], ⟨start, 0#32⟩⟩ = [] := by
      simp [Sweep.close]
    rw [hNone]
    exact
      ⟨fun hLt => absurd hLt hFits, fun _ => rfl, by simp⟩

theorem makeBasicBlocks_isOk
    {start len : BitVec 32}
    (hAligned : start.toNat % 4 = 0)
    (hFits : start.toNat + len.toNat < 2 ^ 32)
    (hStart : breaks.start = start)
    (hLength : breaks.map.length = len.toNat / 4) :
    ∃ blocks, makeBasicBlocks start len breaks = .ok blocks := by
  have hBody :
      ∀ s : Sweep, True → ∀ cia ∈ rounds (len.toNat / 4) start,
        ∃ t, makeBasicBlocksStep breaks s cia = .ok t ∧
          True := by
    intro s _ cia hCia
    rcases (mem_rounds _ _ _).mp hCia with ⟨i, hi, rfl⟩
    have hValue :
        (start + BitVec.ofNat 32 (4 * i)).toNat =
          start.toNat + 4 * i :=
      toNat_add_ofNat _ _ (by omega)
    have hIndex :
        breaks.index (start + BitVec.ofNat 32 (4 * i)) = i := by
      unfold CodeMap.index
      rw [hStart, Masks.toNat_sub_of_le _ _ (by omega), hValue]
      omega
    have hLt : i < breaks.map.length := by omega
    refine ⟨_, Fallible.bind_eq_ok.mpr ⟨breaks.map[i], ?_, rfl⟩,
      trivial⟩
    apply CodeMap.get_eq_ok.mpr
    rw [hIndex]
    exact ⟨by omega, List.getElem?_eq_getElem hLt⟩
  rcases Fallible.foldlM_isOk hBody
    (trivial : (fun _ : Sweep => True) ⟨[], ⟨start, 0#32⟩⟩)
    with ⟨s, hLoop, -⟩
  refine ⟨s.close, Fallible.bind_eq_ok.mpr ⟨s, ?_, rfl⟩⟩
  rw [whileLt_segment start len hFits]
  exact hLoop

end Rewriter

end Ps3emu
