import Ps3emu.Shaders.FragmentProgram
import Ps3emu.Shaders.VertexInstr

/-
  Which words the decoders of shaders can take.  The fields of
  opcodes are wider than the tables, a vertex instruction may
  have more operands than its array, and the map of constants
  has no bit after the one of the last slot.

  Key definitions include:
    * `FragmentDecodes`, `VertexDecodes`, `InfoFits`
    * `FragmentLegal`, `VertexLegal`
    * `Starts`, `ProgramLegal`

  Key theorems include:
    * `fragmentDecodes_iff`
    * `vertexDecodes_iff`
    * `infoFits_iff`
    * `decoders_safe_iff`
-/

------------------------------------------------------------
-- Fragment and Vertex Instructions
------------------------------------------------------------

namespace Ps3emu

namespace Shaders

/-
  Both decoders find the opcode in the table, and the array of
  three arguments holds those of the instruction.
-/
def FragmentDecodes (instr next : Slot) : Prop :=
  (fragmentScanInstr instr).isSome = true ∧
    ∃ fi size,
      fragmentDasmInstr instr (some next) = some (fi, size) ∧
        fi.arguments.length ≤ 3

/- The opcode, a field of seven bits, is one of the table. -/
def FragmentLegal (instr : Slot) : Prop :=
  (FragmentWords.ofSlot instr).opcode < fragmentOpcodes.length

theorem opCount_le_three :
    ∀ opcode ∈ fragmentOpcodes, opcode.opCount ≤ 3 := by
  decide

theorem isSome_fragmentScanInstr (instr : Slot) :
    (fragmentScanInstr instr).isSome = true ↔
      FragmentLegal instr := by
  simp [fragmentScanInstr, FragmentLegal]

/- There is an argument for each source of the opcode. -/
theorem length_arguments
    {instr : Slot}
    {next : Option Slot}
    {fi : FragmentInstr}
    {size : Nat}
    (hDasm : fragmentDasmInstr instr next = some (fi, size)) :
    fi.arguments.length ≤ 3 := by
  rcases Option.bind_eq_some_iff.mp hDasm with
    ⟨opcode, hOpcode, hRest⟩
  rcases Option.map_eq_some_iff.mp hRest with
    ⟨arguments, hArguments, hPair⟩
  obtain ⟨rfl, -⟩ := Prod.mk.inj hPair
  have hLength := length_of_mapM hArguments
  rw [List.length_range] at hLength
  rw [hLength]
  exact opCount_le_three opcode (List.mem_of_getElem? hOpcode)

theorem fragmentDecodes_iff (instr next : Slot) :
    FragmentDecodes instr next ↔ FragmentLegal instr := by
  rw [← isSome_fragmentScanInstr]
  constructor
  · exact And.left
  · intro hScan
    refine ⟨hScan, ?_⟩
    rcases Option.isSome_iff_exists.mp hScan with
      ⟨⟨isConst, isLast⟩, hRes⟩
    rcases @exists_dasm_of_scan instr (some next) _ _ hRes
        (fun _ => rfl) with ⟨fi, hDasm, -⟩
    exact ⟨fi, _, hDasm, length_arguments hDasm⟩

/-
  The active slots find their opcodes in the tables, and the
  array of four arguments holds what each of them stores.
-/
def VertexDecodes (instr : Slot) : Prop :=
  ∀ res : VertexInstr × VertexInstr,
    ∃ instrs,
      vertexDasmInstr instr res = some instrs ∧
        ∀ i ∈ instrs, i.opCount ≤ 4

/- A vector operation that writes two destinations. -/
def VertexDecoded.WritesTwo (decoded : VertexDecoded) : Prop :=
  decoded.outputRegNum ≠ 31 ∧ decoded.maskSelector = true ∧
    decoded.addrDataRegNum ≠ 63

/- The fourth opcode is `MAD`, which has three sources. -/
def VertexLegal (instr : Slot) : Prop :=
  let decoded := (VertexWords.ofSlot instr).decode
  decoded.opcode1 < vertexOpcodes1.length ∧
    decoded.opcode2 < vertexOpcodes0.length ∧
      ¬ (decoded.opcode1 = 4 ∧ decoded.WritesTwo)

theorem length_destinations_le
    (decoded : VertexDecoded)
    (slot : Bool)
    (opcode : VertexOpcode) :
    (destinations decoded slot opcode).length ≤ 2 := by
  rw [destinations]
  split
  · rw [List.length_append]
    cases outputDest decoded slot <;>
      cases registerDest decoded slot opcode <;> simp
  · simp

/- A slot decodes if its opcode is there and it fits. -/
theorem isSome_vertexDasmSlot
    (decoded : VertexDecoded)
    (slot : Bool)
    (res : VertexInstr) :
    (vertexDasmSlot decoded slot res).isSome = true ↔
      ∃ opcode,
        decoded.opcode slot = some opcode ∧
          (destinations decoded slot opcode).length +
            min opcode.opCount 3 ≤ 4 := by
  rw [vertexDasmSlot]
  cases decoded.opcode slot with
  | none => simp
  | some opcode => simp

theorem opCount_le_of_vertexDasmSlot
    {decoded : VertexDecoded}
    {slot : Bool}
    {res i : VertexInstr}
    (hDasm : vertexDasmSlot decoded slot res = some i) :
    i.opCount ≤ 4 := by
  rcases Option.bind_eq_some_iff.mp hDasm with
    ⟨opcode, -, hSlot⟩
  rw [Option.ite_none_right_eq_some, Option.some.injEq] at hSlot
  obtain ⟨hFits, rfl⟩ := hSlot
  exact hFits

theorem opCount_le_one :
    ∀ opcode ∈ vertexOpcodes0, opcode.opCount ≤ 1 := by
  decide

/- The scalar slot needs no more than three places. -/
theorem isSome_scalar
    (decoded : VertexDecoded)
    (res : VertexInstr) :
    (vertexDasmSlot decoded false res).isSome = true ↔
      decoded.opcode2 < vertexOpcodes0.length := by
  rw [isSome_vertexDasmSlot]
  constructor
  · rintro ⟨opcode, hOpcode, -⟩
    exact (List.getElem?_eq_some_iff.mp hOpcode).1
  · intro hLess
    refine ⟨_, List.getElem?_eq_getElem hLess, ?_⟩
    have hCount :=
      opCount_le_one _ (List.getElem_mem hLess)
    have hDests :=
      length_destinations_le decoded false
        vertexOpcodes0[decoded.opcode2]
    omega

theorem length_destinations_mad (decoded : VertexDecoded) :
    (destinations decoded true (plainOpcode 3 .MAD)).length =
        2 ↔
      decoded.WritesTwo := by
  simp only [destinations, plainOpcode, if_true, outputDest,
    registerDest, VertexDecoded.WritesTwo]
  by_cases hOutput : decoded.outputRegNum = 31
  · by_cases hReg : decoded.addrDataRegNum = 63 <;>
      simp [hOutput, hReg]
  · cases decoded.maskSelector with
    | false =>
        by_cases hReg : decoded.addrDataRegNum = 63 <;>
          simp [hReg]
    | true =>
        by_cases hReg : decoded.addrDataRegNum = 63 <;>
          simp [hOutput, hReg]

/- Only `MAD` has three sources. -/
theorem opCount_le_two :
    ∀ n < vertexOpcodes1.length, ∀ opcode,
      vertexOpcodes1[n]? = some opcode →
      n = 4 ∧ opcode = plainOpcode 3 .MAD ∨
        n ≠ 4 ∧ opcode.opCount ≤ 2 := by
  decide

/- The vector slot has one place too few for two results. -/
theorem isSome_vector
    (decoded : VertexDecoded)
    (res : VertexInstr) :
    (vertexDasmSlot decoded true res).isSome = true ↔
      decoded.opcode1 < vertexOpcodes1.length ∧
        ¬ (decoded.opcode1 = 4 ∧ decoded.WritesTwo) := by
  rw [isSome_vertexDasmSlot, ← length_destinations_mad]
  have hTwo := length_destinations_le decoded true
  constructor
  · rintro ⟨opcode, hOpcode, hFits⟩
    have hLess := (List.getElem?_eq_some_iff.mp hOpcode).1
    refine ⟨hLess, ?_⟩
    rintro ⟨hMad, hLength⟩
    rcases opCount_le_two _ hLess opcode hOpcode with
      ⟨-, rfl⟩ | ⟨hOther, -⟩
    · rw [hLength] at hFits
      exact absurd hFits (by decide)
    · exact hOther hMad
  · rintro ⟨hLess, hNot⟩
    have hOpcode :
        decoded.opcode true =
          some vertexOpcodes1[decoded.opcode1] :=
      List.getElem?_eq_getElem hLess
    refine ⟨_, hOpcode, ?_⟩
    have hDests := hTwo vertexOpcodes1[decoded.opcode1]
    rcases opCount_le_two _ hLess _ hOpcode with
      ⟨hMad, hEq⟩ | ⟨-, hCount⟩
    · rw [hEq] at hDests ⊢
      have hNotTwo := fun hLength => hNot ⟨hMad, hLength⟩
      have hOne :
          (plainOpcode 3 VertexOp.MAD).opCount = 3 := rfl
      omega
    · omega

theorem isSome_vertexDasmInstr
    (instr : Slot)
    (res : VertexInstr × VertexInstr) :
    (vertexDasmInstr instr res).isSome = true ↔
      VertexLegal instr := by
  simp only [vertexDasmInstr, VertexLegal]
  split
  case isTrue hScalar =>
    have hZero : 0 < vertexOpcodes0.length := by decide
    rw [Option.isSome_map, isSome_vector, hScalar]
    exact and_congr_right (fun _ => (and_iff_right hZero).symm)
  case isFalse =>
    split
    case isTrue hVector =>
      have hZero : 0 < vertexOpcodes1.length := by decide
      rw [Option.isSome_map, isSome_scalar, hVector]
      simp [hZero]
    case isFalse =>
      rw [← isSome_scalar _ res.1, and_left_comm,
        ← isSome_vector _ res.2]
      cases vertexDasmSlot (VertexWords.ofSlot instr).decode
          false res.1 with
      | none => simp
      | some scalar => simp

theorem opCount_le_of_vertexDasmInstr
    {instr : Slot}
    {res : VertexInstr × VertexInstr}
    {instrs : List VertexInstr}
    (hDasm : vertexDasmInstr instr res = some instrs) :
    ∀ i ∈ instrs, i.opCount ≤ 4 := by
  have hOne :
      ∀ slot res,
        (vertexDasmSlot (VertexWords.ofSlot instr).decode slot
            res).map (fun i => [i]) =
          some instrs →
        ∀ i ∈ instrs, i.opCount ≤ 4 := by
    intro slot res hMap i hMem
    rcases Option.map_eq_some_iff.mp hMap with ⟨j, hj, rfl⟩
    obtain rfl := List.mem_singleton.mp hMem
    exact opCount_le_of_vertexDasmSlot hj
  simp only [vertexDasmInstr] at hDasm
  split at hDasm
  case isTrue => exact hOne true _ hDasm
  case isFalse =>
    split at hDasm
    case isTrue => exact hOne false _ hDasm
    case isFalse =>
      rcases Option.bind_eq_some_iff.mp hDasm with
        ⟨scalar, hScalar, hRest⟩
      rcases Option.map_eq_some_iff.mp hRest with
        ⟨vector, hVector, rfl⟩
      have hFirst := opCount_le_of_vertexDasmSlot hScalar
      have hSecond := opCount_le_of_vertexDasmSlot hVector
      intro i hMem
      split at hMem <;> simp only [List.mem_cons,
        List.not_mem_nil, or_false] at hMem <;>
        rcases hMem with rfl | rfl <;> assumption

theorem vertexDecodes_iff (instr : Slot) :
    VertexDecodes instr ↔ VertexLegal instr := by
  constructor
  · intro hDecodes
    have res : VertexInstr :=
      { opCount := 0
        isSat := false
        args := fun _ => .condReg 0
        mask := ⟨false, false, false, false⟩
        operation := .NOP
        isLast := false
        control := .None
        condition := ⟨.FL, false, Swizzle.xyzw⟩
        isBranch := false }
    rcases hDecodes (res, res) with ⟨instrs, hDasm, -⟩
    rw [← isSome_vertexDasmInstr instr (res, res), hDasm]
    rfl
  · intro hLegal res
    rw [← isSome_vertexDasmInstr instr res] at hLegal
    rcases Option.isSome_iff_exists.mp hLegal with
      ⟨instrs, hDasm⟩
    exact ⟨instrs, hDasm, opCount_le_of_vertexDasmInstr hDasm⟩

------------------------------------------------------------
-- The Map of a Program
------------------------------------------------------------

/- The slots of memory that a fragment program may take. -/
def programSlots (ptr : Nat → Slot) : List Slot :=
  (List.range fragmentProgramSlots).map ptr

/-
  `get_fragment_bytecode_info` reads and sets only what is
  there, and finds no more slots than a program may take.
-/
def InfoFits (ptr : Nat → Slot) : Prop :=
  ∃ info,
    getFragmentBytecodeInfo (programSlots ptr) = some info ∧
      info.length ≤ fragmentProgramSlots

/- An instruction starts here, after those before it. -/
def Starts (ptr : Nat → Slot) (pos : Nat) : Prop :=
  Cursor.Reaches (scanItem (programSlots ptr))
    fragmentProgramSlots 0 pos

/-
  Every instruction that starts in a slot of the program has
  an opcode of the table, and it is not the last slot.
-/
def ProgramLegal (ptr : Nat → Slot) : Prop :=
  ∀ pos < fragmentProgramSlots, Starts ptr pos →
    FragmentLegal (ptr pos) ∧
      pos + 1 < fragmentProgramSlots

theorem isSome_scanItem
    (ptr : Nat → Slot)
    {pos : Nat}
    (hPos : pos < fragmentProgramSlots) :
    (scanItem (programSlots ptr) pos).isSome = true ↔
      FragmentLegal (ptr pos) := by
  rw [← isSome_fragmentScanInstr]
  simp [scanItem, programSlots, hPos]

theorem infoFits_iff (ptr : Nat → Slot) :
    InfoFits ptr ↔ ProgramLegal ptr := by
  have hExists :=
    Cursor.exists_walk_iff fragmentProgramSlots 0
      (scanItem_size_pos (programSlots ptr))
  constructor
  · rintro ⟨info, hInfo, -⟩ pos hPos hStarts
    rcases (getFragmentBytecodeInfo_iff _ _).mp hInfo with
      ⟨items, hWalk, hMapped, -⟩
    rcases (hWalk.mem_iff_reaches pos).mpr ⟨hPos, hStarts⟩
      with ⟨i, hMem⟩
    refine ⟨?_, hMapped _ hMem⟩
    rw [← isSome_scanItem ptr hPos,
      (hWalk.item_of_mem hMem).2]
    rfl
  · intro hLegal
    rcases hExists.mpr (fun pos hPos hStarts =>
        (isSome_scanItem ptr hPos).mpr
          (hLegal pos hPos hStarts).1) with
      ⟨items, stop, hWalk⟩
    have hMapped : Mapped items := by
      rintro ⟨pos, i⟩ hMem
      rcases (hWalk.mem_iff_reaches pos).mp ⟨i, hMem⟩ with
        ⟨hPos, hStarts⟩
      exact (hLegal pos hPos hStarts).2
    refine
      ⟨⟨fun j => decide (j ∈ constSlots items), stop⟩, ?_, ?_⟩
    · exact
        (getFragmentBytecodeInfo_iff _ _).mpr
          ⟨items, hWalk, hMapped, rfl⟩
    · exact stop_le_of_mapped hWalk (Nat.zero_le _) hMapped

/-
  The decoders stay inside their tables and arrays on exactly
  these words and programs, and report no other as illegal.
-/
theorem decoders_safe_iff
    (instr next : Slot)
    (ptr : Nat → Slot) :
    (FragmentDecodes instr next ↔ FragmentLegal instr) ∧
      (VertexDecodes instr ↔ VertexLegal instr) ∧
        (InfoFits ptr ↔ ProgramLegal ptr) :=
  ⟨fragmentDecodes_iff instr next, vertexDecodes_iff instr,
    infoFits_iff ptr⟩

/- A program of `NOP`, none of which is the last one. -/
theorem starts_zero
    (pos : Nat)
    (hPos : pos < fragmentProgramSlots) :
    Starts (fun _ => Slot.zero) pos := by
  induction pos with
  | zero => exact .here
  | succ pos ih =>
      have hLess : pos < fragmentProgramSlots := by omega
      have hScan :
          fragmentScanInstr Slot.zero = some (false, false) := by
        decide
      have hItem :
          scanItem (programSlots fun _ => Slot.zero) pos =
            some ⟨false, 1, false⟩ := by
        simp [scanItem, programSlots, hLess, hScan]
      exact (ih hLess).snoc hLess hItem rfl

/-
  An opcode past the table, a `MAD` of two destinations, and a
  program without a last instruction.
-/
theorem decoders_overrun :
    ¬ FragmentDecodes (fun _ => 0xff) Slot.zero ∧
      ¬ VertexDecodes
          ![0x40, 0, 0, 0, 1, 0, 0, 0, 0, 0, 0, 0, 0, 0, 0, 0] ∧
        ¬ InfoFits (fun _ => Slot.zero) := by
  rw [fragmentDecodes_iff, vertexDecodes_iff, infoFits_iff]
  refine ⟨?_, ?_, ?_⟩
  · rw [FragmentLegal]
    decide
  · rintro ⟨-, -, hNot⟩
    apply hNot
    rw [VertexDecoded.WritesTwo]
    decide
  · intro hLegal
    have hLess : 511 < fragmentProgramSlots := by decide
    exact
      absurd (hLegal 511 hLess (starts_zero 511 hLess)).2
        (Nat.lt_irrefl 512)

end Shaders

end Ps3emu
