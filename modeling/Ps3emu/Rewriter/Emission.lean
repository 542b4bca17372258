import Ps3emu.Ppu.Rewrite
import Ps3emu.Rewriter.Optimize
import Ps3emu.Rewriter.Parts

/-
  The text that is printed for the parts of a segment: the
  lines of the blocks, the blocks that become functions, and
  the function of a part.

  Key definitions include:
    * `Line`, `printStatement`
    * `emitBlock`
    * `printSegment`
    * `rewritePPU`

  Key theorems include:
    * `optimized_ends`
    * `loadSegment_spec`
-/

------------------------------------------------------------
-- Lines and Segments
------------------------------------------------------------

namespace Ps3emu

namespace Rewriter

open Ppu (SetNip)

/-
  The macro of an instruction, one of the lines of an access
  that several instructions have been combined into, a remark
  about an address, a directive that undefines or defines
  `SET_NIP`, and `SET_NIP_INDIRECT` of an address.
-/
inductive Line where
  | instr (i : SimpleInstruction)
  | access (st : LoadStoreStatement) (k : Nat)
  | comment (va : Ps3Uintptr)
  | undef
  | define (mode : SetNip)
  | indirect (va : Ps3Uintptr)
deriving DecidableEq

/-
  The braces around all, those of the struct, its fields, the
  call of the memory and an assignment for each source.
-/
def LoadStoreStatement.lines (st : LoadStoreStatement) : Nat :=
  2 * st.src.length + 5

/- `StatementPrinter`. -/
def printStatement : Statement → List Line
  | .simple i => [.instr i]
  | .loadStore st =>
      if st.src.length = 1 then [.instr st.simple]
      else (List.range st.lines).map (.access st)

structure BasicBlockInfo where
  start : Ps3Uintptr
  len : BitVec 32
  body : List Line
  label : Ps3Uintptr
  extractable : Bool
deriving DecidableEq

structure SegmentInfo where
  suffix : Nat
  blocks : List BasicBlockInfo
deriving DecidableEq

/- A target that leads out of the part is not a label. -/
def withTarget
    (target : Option Ps3Uintptr)
    (body : List Line) : List Line :=
  match target with
  | some va =>
      [.comment va, .undef, .define .indirect] ++ body ++
        [.undef, .define .initial]
  | none => body

def withFallthrough
    (fallthrough : Ps3Uintptr)
    (body : List Line) : List Line :=
  if fallthrough ≠ 0#32 then
    .comment fallthrough :: body ++ [.indirect fallthrough]
  else body

/- The analysis of the words in memory. -/
def analyzeFunc (load32 : Ps3Uintptr → BitVec 32) : Analyze :=
  fun cia => Ppu.analyze (load32 cia) cia

/- The words that are instructions. -/
def validateFunc (load32 : Ps3Uintptr → BitVec 32) : Validate :=
  fun cia => (Ppu.decode (load32 cia)).isSome

/- The body of the loop over the blocks of a part. -/
def emitBlock
    (load32 : Ps3Uintptr → BitVec 32)
    (part : List BasicBlock)
    (block : BasicBlock) : BasicBlockInfo :=
  let body := (optimized load32 block).flatMap printStatement
  let (target, fallthrough) :=
    outOfPartTargets block part (analyzeFunc load32)
  { start := block.start
    len := block.len
    body := withFallthrough fallthrough (withTarget target body)
    label := block.start
    extractable := target.isNone && fallthrough == 0#32 }

/-
  The words of a segment are loaded one after another.  A word
  from `RawSpuBaseAddr` on would be read from a raw SPU, and
  the tool has none.  If the length is no multiple of four,
  the loop goes on until it comes to such a word.
-/
def loadSegment
    (start length : BitVec 32) : Except Failure Unit :=
  if length.toNat % 4 ≠ 0 then throw .assertion
  else
    (untilEq start (start + length)).forM (fun cia =>
      if isRawSpuVa cia then throw .assertion else return)

/- The segment of the part of a number. -/
def emitPart
    (load32 : Ps3Uintptr → BitVec 32)
    (i : Nat)
    (part : List BasicBlock) : SegmentInfo where
  suffix := i
  blocks := part.map (emitBlock load32 part)

/-
  The parts of the first segment of an executable.  The size
  is 800 blocks.
-/
def rewritePPU
    (metis : Metis)
    (partSize : Nat)
    (load32 : Ps3Uintptr → BitVec 32)
    (vaBase segmentSize : BitVec 32)
    (leads : List Ps3Uintptr) :
    Except Failure (List SegmentInfo) := do
  loadSegment vaBase segmentSize
  let blocks ←
    discoverBasicBlocks vaBase segmentSize leads
      (analyzeFunc load32) (validateFunc load32)
  let parts ←
    partitionBasicBlocks metis blocks (analyzeFunc load32)
      partSize
  return parts.mapIdx (emitPart load32)

------------------------------------------------------------
-- Text and Last Statement
------------------------------------------------------------

/- A label, the call of a block that is a function, a line. -/
inductive Item where
  | label (va : Ps3Uintptr)
  | call (va : Ps3Uintptr)
  | line (l : Line)
deriving DecidableEq

structure SegmentText where
  blocks : List (Ps3Uintptr × BitVec 32)
  functions : List (Ps3Uintptr × List Line)
  labels : List Ps3Uintptr
  body : List Item
deriving DecidableEq

/- `g_minExtractableBlockSize`. -/
def minExtractableBlockSize : Nat := 10

def shouldExtract (b : BasicBlockInfo) : Bool :=
  b.extractable &&
    decide (minExtractableBlockSize ≤ b.body.length)

/- Of a block that is a function the last line is kept. -/
def blockItems (b : BasicBlockInfo) : List Item :=
  .label b.label ::
    if shouldExtract b then
      .call b.label :: b.body.getLast?.toList.map .line
    else b.body.map .line

def printSegment (segment : SegmentInfo) : SegmentText where
  blocks := segment.blocks.map (fun b => (b.start, b.len))
  functions :=
    (segment.blocks.filter shouldExtract).map
      (fun b => (b.label, b.body.dropLast))
  labels := segment.blocks.map BasicBlockInfo.label
  body := segment.blocks.flatMap blockItems

/-
  The statement of one of the given instructions, or of more
  than one.
-/
def Early
    (instrs : List SimpleInstruction)
    (st : Statement) : Prop :=
  (∃ i ∈ instrs, st = transform i) ∨
    ∃ x, st = .loadStore x ∧ 1 < x.src.length

/- The last instruction of a block is not combined. -/
def Ends
    (instrs : List SimpleInstruction)
    (last : SimpleInstruction)
    (statements : List Statement) : Prop :=
  ∃ front,
    statements = front ++ [transform last] ∧
      ∀ st ∈ front, Early instrs st

theorem src_of_merged
    {load : Bool}
    {run : List LoadStoreStatement}
    {st : LoadStoreStatement}
    (hRun : Run load run)
    (hMerged : merged run = some st) :
    1 < st.src.length := by
  rw [(merged_spec hRun hMerged).2.1, List.length_map]
  unfold sorted
  rw [List.length_map, (sortByDisp_perm run).length_eq]
  exact hRun.two

/- A pass leaves the last statement where it is. -/
theorem foldr_mergeSeq_last
    {load : Bool}
    {front : List Statement}
    {last : Statement}
    (hSingle : Single load (front ++ [last]))
    {seqs : List (Nat × Nat)}
    (hSeqs : ∀ seq ∈ seqs, SeqOk load (front ++ [last]) seq)
    (hApart :
      seqs.Pairwise (fun a b => a.1 + a.2 ≤ b.1)) :
    ∃ front',
      seqs.foldr mergeSeq (front ++ [last]) =
          front' ++ [last] ∧
        (∀ st ∈ front', st ∈ front ∨
          ∃ x, st = .loadStore x ∧ 1 < x.src.length) ∧
          ∀ m, m ≤ front.length →
            (∀ seq ∈ seqs, m ≤ seq.1) → m ≤ front'.length := by
  induction seqs with
  | nil =>
      exact ⟨front, rfl, fun _ hst => .inl hst, fun _ hm _ => hm⟩
  | cons seq rest ih =>
      rcases List.pairwise_cons.mp hApart with
        ⟨hHead, hTail⟩
      have hSeq := hSeqs seq List.mem_cons_self
      have hOthers :
          ∀ x ∈ rest, SeqOk load (front ++ [last]) x :=
        fun x hx => hSeqs x (List.mem_cons_of_mem _ hx)
      have hSlice :=
        slice_congr (take_foldr hOthers hTail hHead)
      rcases ih hOthers hTail with
        ⟨front', hEq, hMem, hLength⟩
      have hEnds := hSeq.ends
      rw [List.length_append, List.length_singleton] at hEnds
      have hInside : seq.1 + seq.2 ≤ front'.length :=
        hLength _ (by omega) hHead
      rw [List.foldr_cons]
      rw [hEq] at hSlice ⊢
      unfold mergeSeq
      rw [hSlice]
      cases hMerged : merged (slice (front ++ [last]) seq) with
      | none =>
          refine ⟨front', rfl, hMem, ?_⟩
          intro m hm hBefore
          exact
            hLength m hm
              (fun x hx =>
                hBefore x (List.mem_cons_of_mem _ hx))
      | some st =>
          refine
            ⟨front'.take seq.1 ++ .loadStore st ::
              front'.drop (seq.1 + seq.2), ?_, ?_, ?_⟩
          · simp only
            rw [List.take_append_of_le_length (by omega),
              List.drop_append_of_le_length hInside,
              List.append_assoc, List.cons_append]
          · intro x hx
            rcases List.mem_append.mp hx with hOld | hNew
            · exact hMem x (List.mem_of_mem_take hOld)
            · cases hNew with
              | head =>
                  exact
                    .inr
                      ⟨st, rfl,
                        src_of_merged
                          (run_of_seq hSingle hSeq) hMerged⟩
              | tail _ hLater =>
                  exact hMem x (List.mem_of_mem_drop hLater)
          · intro m _ hBefore
            have hFirst := hBefore seq List.mem_cons_self
            rw [List.length_append, List.length_take]
            omega

theorem Ends.pass
    {instrs : List SimpleInstruction}
    {last : SimpleInstruction}
    {load : Bool}
    {statements : List Statement}
    (hSingle : Single load statements)
    (hEnds : Ends instrs last statements) :
    Ends instrs last
      (optimizeAdjacentLoadStores load statements) := by
  rcases hEnds with ⟨front, rfl, hEarly⟩
  have hSpec := findSeqs_spec load (front ++ [transform last])
  rcases foldr_mergeSeq_last hSingle hSpec.1 hSpec.2 with
    ⟨front', hEq, hMem, -⟩
  refine ⟨front', hEq, ?_⟩
  intro st hst
  rcases hMem st hst with hOld | hNew
  · exact hEarly st hOld
  · exact .inr hNew

theorem optimized_ends
    (load32 : Ps3Uintptr → BitVec 32)
    (b : BasicBlock)
    {instrs : List SimpleInstruction}
    {last : SimpleInstruction}
    (hInstrs : instructions load32 b = instrs ++ [last]) :
    Ends instrs last (optimized load32 b) := by
  have hTransform :
      Ends instrs last (transformBasicBlock load32 b) := by
    refine ⟨instrs.map transform, ?_, ?_⟩
    · unfold transformBasicBlock
      rw [hInstrs, List.map_append]
      rfl
    · intro st hst
      rcases List.mem_map.mp hst with ⟨i, hi, rfl⟩
      exact .inl ⟨i, hi, rfl⟩
  exact
    (hTransform.pass
      (fun st hst _ => plain_of_transform load32 b hst)).pass
      (single_stores load32 b)

------------------------------------------------------------
-- Placement
------------------------------------------------------------

/- A block of whole instructions, below the windows of SPUs. -/
structure Placed (b : BasicBlock) : Prop where
  start : b.start.toNat % 4 = 0
  len : b.len.toNat % 4 = 0
  nonempty : 0 < b.len.toNat
  below : b.finish ≤ 0xe0000000

variable {b : BasicBlock}

theorem Placed.toNat_finish
    (hPlaced : Placed b) :
    (b.start + b.len).toNat = b.finish := by
  have hBelow := hPlaced.below
  unfold BasicBlock.finish at hBelow ⊢
  rw [BitVec.toNat_add]
  omega

theorem Placed.toNat_lastVa
    (hPlaced : Placed b) :
    b.lastVa.toNat + 4 = b.finish := by
  have hFinish := hPlaced.toNat_finish
  have hStart := hPlaced.start
  have hLen := hPlaced.len
  have hPos := hPlaced.nonempty
  unfold BasicBlock.finish at hFinish ⊢
  unfold BasicBlock.lastVa
  have hFour : (4#32).toNat = 4 := rfl
  rw [Masks.toNat_sub_of_le _ _ (by omega), hFinish]
  omega

theorem Placed.lastVa_mod
    (hPlaced : Placed b) :
    b.lastVa.toNat % 4 = 0 := by
  have hLast := hPlaced.toNat_lastVa
  have hStart := hPlaced.start
  have hLen := hPlaced.len
  unfold BasicBlock.finish at hLast
  omega

/- `SET_NIP_INDIRECT` of the address after a block. -/
theorem Placed.setNIP_finish
    {R : Type}
    (hPlaced : Placed b)
    (t : Ppu.PPUThread R) :
    t.setNIP ((b.start + b.len).setWidth 64 &&& ~~~3#64) =
      ⟨b.start + b.len, t.regs⟩ := by
  have hStart := hPlaced.start
  have hLen := hPlaced.len
  have hFinish := hPlaced.toNat_finish
  unfold BasicBlock.finish at hFinish
  have hAligned :
      ((b.start + b.len).setWidth 64).toNat % 4 = 0 := by
    rw [BitVec.toNat_setWidth]
    omega
  rw [Ppu.and_not_three hAligned]
  unfold Ppu.PPUThread.setNIP
  rw [BitVec.setWidth_setWidth_of_le _ (by omega),
    BitVec.setWidth_eq]

theorem Placed.lastVa_add
    {b : BasicBlock} :
    b.lastVa + 4#32 = b.start + b.len :=
  BitVec.sub_add_cancel _ _

theorem rounds_succ
    (n : Nat)
    (start : Ps3Uintptr) :
    rounds (n + 1) start =
      rounds n start ++ [start + BitVec.ofNat 32 (4 * n)] := by
  induction n generalizing start with
  | zero => simp [rounds]
  | succ n ih =>
      rw [rounds, ih, rounds, List.cons_append]
      have hNext :
          start + 4#32 + BitVec.ofNat 32 (4 * n) =
            start + BitVec.ofNat 32 (4 * (n + 1)) := by
        bv_omega
      rw [hNext]

/- The instructions of a block, and the last of them. -/
theorem Placed.instructions_eq
    (hPlaced : Placed b)
    (load32 : Ps3Uintptr → BitVec 32) :
    ∃ early,
      instructions load32 b =
          early ++ [⟨b.lastVa, load32 b.lastVa⟩] ∧
        ∀ i ∈ early,
          i.bytes = load32 i.cia ∧ 4 ∣ i.cia.toNat ∧
            b.Contains i.cia ∧ i.cia ≠ b.lastVa := by
  have hFinish := hPlaced.toNat_finish
  have hLast := hPlaced.toNat_lastVa
  have hStart := hPlaced.start
  have hLen := hPlaced.len
  have hPos := hPlaced.nonempty
  have hBelow := hPlaced.below
  unfold BasicBlock.finish at hFinish hLast hBelow
  rcases Nat.exists_eq_succ_of_ne_zero
    (show b.len.toNat / 4 ≠ 0 by omega) with ⟨n, hn⟩
  have hRounds :
      whileLt b.start (b.start + b.len) =
        rounds n b.start ++ [b.lastVa] := by
    rw [whileLt_segment _ _ (by omega), hn, rounds_succ]
    have hValue :
        (b.start + BitVec.ofNat 32 (4 * n)).toNat =
          b.start.toNat + 4 * n :=
      toNat_add_ofNat _ _ (by omega)
    have hSame :
        b.start + BitVec.ofNat 32 (4 * n) = b.lastVa := by
      apply BitVec.eq_of_toNat_eq
      omega
    rw [hSame]
  refine
    ⟨(rounds n b.start).map (fun cia => ⟨cia, load32 cia⟩),
      ?_, ?_⟩
  · unfold instructions
    rw [hRounds, List.map_append]
    rfl
  · intro i hi
    rcases List.mem_map.mp hi with ⟨cia, hCia, rfl⟩
    rcases (mem_rounds _ _ _).mp hCia with ⟨k, hk, rfl⟩
    have hValue :
        (b.start + BitVec.ofNat 32 (4 * k)).toNat =
          b.start.toNat + 4 * k :=
      toNat_add_ofNat _ _ (by omega)
    refine ⟨rfl, ?_, ?_, ?_⟩
    · simp only
      omega
    · unfold BasicBlock.Contains BasicBlock.finish
      simp only
      omega
    · intro hSame
      have hNat := congrArg BitVec.toNat hSame
      simp only at hNat
      omega

/- A sweep that ends has not come to the windows. -/
theorem loadSegment_spec
    {start length : BitVec 32}
    (hLoad : loadSegment start length = .ok ⟨⟩) :
    length.toNat % 4 = 0 ∧
      (0 < length.toNat →
        start.toNat + length.toNat < 0xe0000004) := by
  unfold loadSegment at hLoad
  split at hLoad
  case isTrue => cases hLoad
  case isFalse hDvd =>
    refine ⟨by omega, ?_⟩
    intro hPos
    by_contra hOver
    have hWord :
        ∃ n, 4 * n < length.toNat ∧
          0xe0000000 ≤ (start + BitVec.ofNat 32 (4 * n)).toNat := by
      by_cases hStart : 0xe0000000 ≤ start.toNat
      · refine ⟨0, by omega, ?_⟩
        simpa using hStart
      · -- the first word that starts in the windows
        refine ⟨(0xe0000000 - start.toNat + 3) / 4, by omega, ?_⟩
        rw [toNat_add_ofNat _ _ (by omega)]
        omega
    rcases hWord with ⟨n, hn, hHigh⟩
    have hMem :
        start + BitVec.ofNat 32 (4 * n) ∈
          untilEq start (start + length) :=
      (mem_untilEq_segment (by omega)).mpr ⟨n, hn, rfl⟩
    have hCheck :=
      Fallible.forM_eq_ok.mp hLoad _ hMem
    rw [if_pos ((isRawSpuVa_iff _).mpr hHigh)] at hCheck
    cases hCheck

/- The blocks that are discovered in such a segment. -/
theorem Partition.placed
    {start length : BitVec 32}
    {leads : List Ps3Uintptr}
    {analyze : Analyze}
    {blocks : List BasicBlock}
    (hPartition :
      Partition start length leads analyze blocks)
    (hLoad : loadSegment start length = .ok ⟨⟩)
    (hb : b ∈ blocks) :
    Placed b := by
  have hBounds := (loadSegment_spec hLoad).2
  have hPos := hPartition.nonempty b hb
  have hInside := hPartition.inside b hb
  rcases hPartition.aligned b hb with ⟨hStart, hLen⟩
  unfold BasicBlock.finish at hInside
  refine ⟨by omega, by omega, hPos, ?_⟩
  unfold BasicBlock.finish
  omega

end Rewriter

end Ps3emu
