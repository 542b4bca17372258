import Ps3emu.Rsx.ShaderContext

/-
  Fragment constants over a run of commands.  An update moves
  the constants out of the byte code, so that a second update
  without a load in between finds zeros.

  Key definitions include:
    * `BindsConstants`, `Redirtied`, `ConstantsZero`
    * `Stage`

  Key theorems include:
    * `Stage.update`, `Stage.step`
    * `draw_bindsConstants_iff`
-/

------------------------------------------------------------
-- Stages
------------------------------------------------------------

namespace Ps3emu

namespace Rsx

open Shaders
open Cursor (Item Walk)

/-
  The buffer of the current entry starts with the constants
  that are embedded in a program.
-/
def BindsConstants
    {H : Type}
    (s : RsxContext H)
    (p : Bytecode) : Prop :=
  ∃ constants,
    embeddedConstants p.slots = some constants ∧
      constants <+: s.drawRingBuffer.contents

/- A command made the shader dirty again after a draw. -/
def Redirtied (commands : List Command) : Prop :=
  ∃ before flat after,
    commands = before ++ .shadeMode flat :: after ∧
      .draw ∈ before

def ConstantsZero (p : Bytecode) : Prop :=
  ∀ constants,
    embeddedConstants p.slots = some constants →
    ∀ c ∈ constants, c = Slot.zero

def Command.isLoad : Command → Bool
  | .shaderProgram _ => true
  | _ => false

theorem redirtied_append_of_redirtied
    {commands : List Command}
    (hRedirtied : Redirtied commands)
    (c : Command) :
    Redirtied (commands ++ [c]) := by
  rcases hRedirtied with ⟨before, flat, after, rfl, hDraw⟩
  exact
    ⟨before, flat, after ++ [c], by simp, hDraw⟩

theorem redirtied_append_iff
    (commands : List Command)
    (c : Command) :
    Redirtied (commands ++ [c]) ↔
      Redirtied commands ∨
        ((∃ flat, c = .shadeMode flat) ∧
          .draw ∈ commands) := by
  constructor
  · rintro ⟨before, flat, after, hEq, hDraw⟩
    rcases Transition.snoc_eq_split hEq with
      ⟨rfl, rfl, -⟩ | ⟨init, rfl, rfl⟩
    · exact .inr ⟨⟨flat, rfl⟩, hDraw⟩
    · exact .inl ⟨before, flat, init, rfl, hDraw⟩
  · rintro (hOld | ⟨⟨flat, rfl⟩, hDraw⟩)
    · exact redirtied_append_of_redirtied hOld c
    · exact ⟨commands, flat, [], rfl, hDraw⟩

/-
  Where the constants of the last program are, by the
  commands since it was loaded: still in the byte code, in
  the buffer, in the buffer while the shader is dirty again,
  or lost.
-/
inductive Stage
    {H : Type}
    (p : Bytecode)
    (since : List Command)
    (s : RsxContext H) : Prop where
  | loaded
      (hDraw : .draw ∉ since)
      (hBytecode : s.fragmentBytecode = p.slots)
      (hDirty : s.fragmentShaderDirty = true)
  | moved
      (items : List (Nat × Item Bool))
      (stop : Nat)
      (hWalk :
        Walk (scanItem p.slots) fragmentProgramSlots 0 items
          stop)
      (hMapped : Mapped items)
      (hBytecode :
        s.fragmentBytecode =
          cleared p.slots (constSlots items))
      (hDraw : .draw ∈ since)
      (hState :
        (¬ Redirtied since ∧
            s.fragmentShaderDirty = false ∧
            embedded p.slots (constSlots items) <+:
              s.drawRingBuffer.contents) ∨
          (Redirtied since ∧
            (s.fragmentShaderDirty = true ∨
              List.replicate (constSlots items).length
                  Slot.zero <+:
                s.drawRingBuffer.contents)))

------------------------------------------------------------
-- Updates
------------------------------------------------------------

variable {H : Type} [DecidableEq H] {xxh64 : List Slot → H}
variable {xxh64Words : List (BitVec 32) → H}
variable {s t : RsxContext H}

/- What an update does to the byte code and the constants. -/
theorem constants_updateShaders
    (hUpdate :
      s.updateShaders xxh64 xxh64Words = some t) :
    t.fragmentShaderDirty = false ∧
      ((s.fragmentShaderDirty = false ∧
          t.fragmentBytecode = s.fragmentBytecode ∧
          t.drawRingBuffer = s.drawRingBuffer) ∨
        ∃ u key,
          s.fragmentShaderDirty = true ∧
            unzip xxh64 s.fragmentBytecode
                s.drawRingBuffer.contents s.isMrt =
              some (u, key) ∧
            t.fragmentBytecode = u.slots ∧
            t.drawRingBuffer =
              s.drawRingBuffer.write u.fconst) := by
  rcases RsxContext.updateShaders_cases hUpdate with
    ⟨m, hFragment, hVertex⟩
  have hFrame :
      t.fragmentShaderDirty = m.fragmentShaderDirty ∧
        t.fragmentBytecode = m.fragmentBytecode ∧
        t.drawRingBuffer = m.drawRingBuffer := by
    rcases RsxContext.updateVertexShader_cases hVertex with
      ⟨-, rfl⟩ | ⟨-, ⟨shader, -, rfl⟩ | ⟨-, rfl⟩⟩
    · exact ⟨rfl, rfl, rfl⟩
    · exact ⟨rfl, rfl, rfl⟩
    · exact ⟨rfl, rfl, rfl⟩
  rw [hFrame.1, hFrame.2.1, hFrame.2.2]
  rcases RsxContext.updateFragmentShader_cases hFragment with
    ⟨hClean, rfl⟩ |
    ⟨u, key, hDirty, hUnzip, ⟨shader, -, rfl⟩ | ⟨-, rfl⟩⟩
  · exact ⟨hClean, .inl ⟨hClean, rfl, rfl⟩⟩
  · exact ⟨rfl, .inr ⟨u, key, hDirty, hUnzip, rfl, rfl⟩⟩
  · exact ⟨rfl, .inr ⟨u, key, hDirty, hUnzip, rfl, rfl⟩⟩

/-
  The byte code is a whole program, and every entry of the
  ring has room for the constants of one.
-/
structure Sized (s : RsxContext H) : Prop where
  bytecode : s.fragmentBytecode.length = fragmentProgramSlots
  buffers :
    ∀ i,
      (s.drawRingBuffer.entries i).length =
        fragmentProgramSlots / 2

variable {p : Bytecode} {since : List Command}

/-
  After an update the buffer holds the constants, or zeros if
  the shader had become dirty again.
-/
theorem Stage.update
    (hStage : Stage p since s)
    (hSized : Sized s)
    (hUpdate :
      s.updateShaders xxh64 xxh64Words = some t) :
    ∃ items stop,
      Walk (scanItem p.slots) fragmentProgramSlots 0 items
          stop ∧
        Mapped items ∧
        t.fragmentBytecode =
          cleared p.slots (constSlots items) ∧
        t.fragmentShaderDirty = false ∧
        (¬ Redirtied since →
          embedded p.slots (constSlots items) <+:
            t.drawRingBuffer.contents) ∧
        (Redirtied since →
          List.replicate (constSlots items).length
              Slot.zero <+:
            t.drawRingBuffer.contents) := by
  rcases constants_updateShaders hUpdate with ⟨hClean, hCases⟩
  cases hStage with
  | loaded hDraw hBytecode hDirty =>
      have hNot : ¬ Redirtied since := by
        rintro ⟨before, flat, after, rfl, hMem⟩
        exact hDraw (by simp [hMem])
      rcases hCases with
        ⟨hOld, -, -⟩ | ⟨u, key, -, hUnzip, hSlots, hRing⟩
      · rw [hDirty] at hOld
        cases hOld
      · rw [hBytecode] at hUnzip
        rcases unzip_cases hUnzip p.full
              (hSized.buffers _) with
          ⟨items, stop, hWalk, hMapped, rfl, -⟩
        refine
          ⟨items, stop, hWalk, hMapped, hSlots, hClean, ?_,
            fun hRe => absurd hRe hNot⟩
        intro _
        rw [hRing, RingBuffer.contents_write]
        exact List.prefix_append _ _
  | moved items stop hWalk hMapped hBytecode hDraw hState =>
      have hIn := const_lt_of_mapped hMapped p.full
      rcases hCases with
        ⟨hOld, hSame, hRing⟩ |
        ⟨u, key, hDirty, hUnzip, hSlots, hRing⟩
      · refine
          ⟨items, stop, hWalk, hMapped, hSame.trans hBytecode,
            hClean, ?_, ?_⟩
        · intro hNot
          rcases hState with ⟨-, -, hPrefix⟩ | ⟨hRe, -⟩
          · rwa [hRing]
          · exact absurd hRe hNot
        · intro hRe
          rcases hState with ⟨hNot, -⟩ | ⟨-, hDirty | hZeros⟩
          · exact absurd hRe hNot
          · rw [hDirty] at hOld
            cases hOld
          · rwa [hRing]
      · -- the byte code has lost its constants already
        have hFull :
            (cleared p.slots (constSlots items)).length =
              fragmentProgramSlots := by
          rw [length_cleared, p.full]
        rw [hBytecode] at hUnzip
        rcases unzip_cases hUnzip hFull (hSized.buffers _)
          with
          ⟨items', stop', hWalk', -, rfl, -⟩
        obtain ⟨rfl, rfl⟩ :=
          hWalk'.unique (walk_cleared hWalk)
        refine
          ⟨items', stop', hWalk, hMapped,
            hSlots.trans (cleared_cleared _ _), hClean,
            ?_, ?_⟩
        · intro hNot
          rcases hState with ⟨-, hFalse, -⟩ | ⟨hRe, -⟩
          · rw [hDirty] at hFalse
            cases hFalse
          · exact absurd hRe hNot
        · intro _
          rw [hRing, RingBuffer.contents_write,
            embedded_cleared _ _ hIn]
          exact List.prefix_append _ _

------------------------------------------------------------
-- Commands
------------------------------------------------------------

omit [DecidableEq H] in
theorem Sized.initial
    (hInitial : RsxContext.Initial s) :
    Sized s where
  bytecode := by
    rw [hInitial.bytecode, List.length_replicate]
  buffers := hInitial.buffers

theorem Sized.update
    (hSized : Sized s)
    (hUpdate :
      s.updateShaders xxh64 xxh64Words = some t) :
    Sized t := by
  rcases (constants_updateShaders hUpdate).2 with
    ⟨-, hSame, hRing⟩ | ⟨u, key, -, hUnzip, hSlots, hRing⟩
  · refine ⟨?_, ?_⟩
    · rw [hSame]
      exact hSized.bytecode
    · rw [hRing]
      exact hSized.buffers
  · rcases unzip_cases hUnzip hSized.bytecode
        (hSized.buffers _) with
      ⟨items, stop, hWalk, hMapped, rfl, -⟩
    have hIn := const_lt_of_mapped hMapped hSized.bytecode
    have hRoom := length_constSlots_le hWalk hMapped
    refine ⟨?_, ?_⟩
    · rw [hSlots, length_cleared]
      exact hSized.bytecode
    · intro i
      rw [hRing]
      simp only [RingBuffer.write, Function.update_apply]
      split
      · have hBuffer :=
          hSized.buffers s.drawRingBuffer.current
        rw [List.length_append, length_embedded _ _ hIn,
          List.length_drop, RingBuffer.contents, hBuffer]
        omega
      · exact hSized.buffers i

/- The commands that do not set what the constants need. -/
def Command.isOther : Command → Bool
  | .shaderProgram _ => false
  | .shadeMode _ => false
  | .draw => false
  | _ => true

variable {c : Command}

theorem step_other
    (hOther : c.isOther = true)
    (hStep : RsxContext.Step xxh64 xxh64Words s c t) :
    t.fragmentBytecode = s.fragmentBytecode ∧
      t.fragmentShaderDirty = s.fragmentShaderDirty ∧
      t.drawRingBuffer = s.drawRingBuffer := by
  cases c with
  | shaderProgram => cases hOther
  | shadeMode => cases hOther
  | draw => cases hOther
  | transformProgram source =>
      simp only [RsxContext.Step, RsxContext.step] at hStep
      split at hStep
      case isTrue =>
        rw [← Option.some.inj hStep]
        exact ⟨rfl, rfl, rfl⟩
      case isFalse => cases hStep
  | _ =>
      rw [← Option.some.inj hStep]
      exact ⟨rfl, rfl, rfl⟩

omit [DecidableEq H] in
theorem Sized.advance
    (hSized : Sized s) :
    Sized
      { s with drawRingBuffer := s.drawRingBuffer.advance } where
  bytecode := hSized.bytecode
  buffers := by
    intro i
    simp only [RingBuffer.advance, Function.update_apply]
    split
    · exact hSized.buffers _
    · exact hSized.buffers i

theorem Sized.step
    (hSized : Sized s)
    (hStep : RsxContext.Step xxh64 xxh64Words s c t) :
    Sized t := by
  cases hOther : c.isOther with
  | true =>
      rcases step_other hOther hStep with ⟨hSlots, -, hRing⟩
      refine ⟨?_, ?_⟩
      · rw [hSlots]
        exact hSized.bytecode
      · rw [hRing]
        exact hSized.buffers
  | false =>
      cases c with
      | shaderProgram p =>
          rw [← Option.some.inj hStep]
          exact ⟨p.full, hSized.buffers⟩
      | shadeMode flat =>
          rw [← Option.some.inj hStep]
          exact ⟨hSized.bytecode, hSized.buffers⟩
      | draw =>
          rcases Option.map_eq_some_iff.mp hStep with
            ⟨m, hUpdate, rfl⟩
          exact (hSized.update hUpdate).advance
      | _ => cases hOther

theorem mem_snoc_of_ne
    {commands : List Command}
    {c d : Command}
    (hNe : c ≠ d) :
    d ∈ commands ++ [c] ↔ d ∈ commands := by
  simp [hNe.symm]

/- A command that is no load takes a stage to the next. -/
theorem Stage.step
    (hStage : Stage p since s)
    (hSized : Sized s)
    (hLoad : c.isLoad = false)
    (hStep : RsxContext.Step xxh64 xxh64Words s c t) :
    Stage p (since ++ [c]) t := by
  cases hOther : c.isOther with
  | true =>
      have hDraw : c ≠ .draw := by
        rintro rfl
        cases hOther
      have hShade : ¬ ∃ flat, c = .shadeMode flat := by
        rintro ⟨flat, rfl⟩
        cases hOther
      have hRedirtied :
          Redirtied (since ++ [c]) ↔ Redirtied since := by
        rw [redirtied_append_iff]
        simp [hShade]
      rcases step_other hOther hStep with
        ⟨hSlots, hDirty, hRing⟩
      cases hStage with
      | loaded hNone hBytecode hOld =>
          refine
            .loaded ?_ (hSlots.trans hBytecode)
              (hDirty.trans hOld)
          rwa [mem_snoc_of_ne hDraw]
      | moved items stop hWalk hMapped hBytecode hMem hState =>
          refine
            .moved items stop hWalk hMapped
              (hSlots.trans hBytecode) ?_ ?_
          · rwa [mem_snoc_of_ne hDraw]
          · rwa [hRedirtied, hDirty, hRing]
  | false =>
      cases c with
      | shaderProgram p => cases hLoad
      | shadeMode flat =>
          rw [← Option.some.inj hStep]
          cases hStage with
          | loaded hNone hBytecode hOld =>
              refine .loaded ?_ hBytecode rfl
              simpa using hNone
          | moved items stop hWalk hMapped hBytecode hMem =>
              refine
                .moved items stop hWalk hMapped hBytecode
                  (List.mem_append_left _ hMem) ?_
              right
              refine ⟨?_, .inl rfl⟩
              rw [redirtied_append_iff]
              exact .inr ⟨⟨flat, rfl⟩, hMem⟩
      | draw =>
          rcases Option.map_eq_some_iff.mp hStep with
            ⟨m, hUpdate, rfl⟩
          rcases hStage.update hSized hUpdate with
            ⟨items, stop, hWalk, hMapped, hSlots, hClean,
              hKept, hLost⟩
          have hRedirtied :
              Redirtied (since ++ [.draw]) ↔
                Redirtied since := by
            rw [redirtied_append_iff]
            simp
          refine
            .moved items stop hWalk hMapped hSlots (by simp) ?_
          simp only [RingBuffer.contents_advance]
          rw [hRedirtied]
          by_cases hRe : Redirtied since
          · exact .inr ⟨hRe, .inr (hLost hRe)⟩
          · exact .inl ⟨hRe, hClean, hKept hRe⟩
      | _ => cases hOther

/- A load starts over. -/
theorem Stage.load
    (hStep :
      RsxContext.Step xxh64 xxh64Words s (.shaderProgram p)
        t) :
    Stage p [] t := by
  rw [← Option.some.inj hStep]
  exact .loaded (by simp) rfl rfl

theorem Stage.run
    {p : Bytecode}
    (hStage : Stage p [] s)
    (hSized : Sized s)
    (hRun :
      Transition.Run (RsxContext.Step xxh64 xxh64Words) s
        since t)
    (hLoads : ∀ c ∈ since, c.isLoad = false) :
    Stage p since t ∧ Sized t := by
  induction hRun with
  | nil => exact ⟨hStage, hSized⟩
  | snoc _ hLast ih =>
      rcases ih (fun c hc => hLoads c (by simp [hc])) with
        ⟨hBefore, hMiddle⟩
      exact
        ⟨hBefore.step hMiddle (hLoads _ (by simp)) hLast,
          hMiddle.step hLast⟩

------------------------------------------------------------
-- Draws
------------------------------------------------------------

/-
  A draw binds the constants of the program that was loaded
  last if and only if the shader has not become dirty again
  after a draw since then, or the constants are all zero.
-/
theorem draw_bindsConstants_iff
    {start : RsxContext H}
    {before since : List Command}
    {p : Bytecode}
    (hInitial : RsxContext.Initial start)
    (hRun :
      Transition.Run (RsxContext.Step xxh64 xxh64Words) start
        (before ++ .shaderProgram p :: since) s)
    (hLoads : ∀ c ∈ since, c.isLoad = false)
    (hUpdate :
      s.updateShaders xxh64 xxh64Words = some t) :
    BindsConstants t p ↔
      ¬ Redirtied since ∨ ConstantsZero p := by
  rw [← List.singleton_append, ← List.append_assoc] at hRun
  rcases Transition.Run.split hRun with
    ⟨loaded, hInit, hSince⟩
  rcases Transition.Run.of_snoc hInit with
    ⟨middle, hBefore, hLoad⟩
  have hSized : Sized middle :=
    hBefore.invariant Sized (fun _ _ _ => Sized.step)
      (Sized.initial hInitial)
  rcases Stage.run (Stage.load hLoad) (hSized.step hLoad)
      hSince hLoads with
    ⟨hStage, hEnd⟩
  rcases hStage.update hEnd hUpdate with
    ⟨items, stop, hWalk, hMapped, -, -, hKept, hLost⟩
  have hIn := const_lt_of_mapped hMapped p.full
  have hConstants :
      embeddedConstants p.slots =
        some (embedded p.slots (constSlots items)) := by
    apply embeddedConstants_of_walk hWalk
    intro x hx hValue
    apply hIn
    exact (mem_constSlots _ _).mpr ⟨x, hx, hValue, rfl⟩
  have hBinds :
      BindsConstants t p ↔
        embedded p.slots (constSlots items) <+:
          t.drawRingBuffer.contents := by
    constructor
    · rintro ⟨constants, hEq, hPrefix⟩
      rw [hConstants] at hEq
      rwa [← Option.some.inj hEq] at hPrefix
    · intro hPrefix
      exact ⟨_, hConstants, hPrefix⟩
  rw [hBinds]
  by_cases hRe : Redirtied since
  · -- the buffer starts with as many zeros
    have hZeros := hLost hRe
    have hLength := length_embedded p.slots _ hIn
    constructor
    · intro hPrefix
      right
      intro constants hEq c hc
      rw [hConstants] at hEq
      rw [← Option.some.inj hEq] at hc
      have hSame :
          embedded p.slots (constSlots items) =
            List.replicate (constSlots items).length
              Slot.zero := by
        have hEqual :
            (embedded p.slots (constSlots items)).length =
              (List.replicate (constSlots items).length
                Slot.zero).length := by
          rw [hLength, List.length_replicate]
        exact
          (List.prefix_of_prefix_length_le hPrefix hZeros
            (Nat.le_of_eq hEqual)).eq_of_length hEqual
      rw [hSame] at hc
      exact List.eq_of_mem_replicate hc
    · rintro (hNot | hZero)
      · exact absurd hRe hNot
      · have hSame :
            embedded p.slots (constSlots items) =
              List.replicate (constSlots items).length
                Slot.zero := by
          rw [List.eq_replicate_iff]
          exact ⟨hLength, hZero _ hConstants⟩
        rwa [hSame]
  · exact ⟨fun _ => .inl hRe, fun _ => hKept hRe⟩

/- A move of a constant, the last instruction of its program. -/
def moveConstant : Slot :=
  ![0, 1, 1, 0, 0, 2, 0, 0, 0, 0, 0, 0, 0, 0, 0, 0]

def program : Bytecode where
  slots :=
    moveConstant :: (fun _ => 1) ::
      List.replicate 510 Slot.zero
  full := by
    rw [List.length_cons, List.length_cons,
      List.length_replicate]
    rfl

/- Hashes that keep what is hashed. -/
abbrev Bytes := List Slot × List (BitVec 32)

def hashSlots (l : List Slot) : Bytes := (l, [])

def hashWords (l : List (BitVec 32)) : Bytes := ([], l)

theorem ten_pos : 0 < 10 := by decide

def start : RsxContext Bytes where
  fragmentBytecode :=
    List.replicate fragmentProgramSlots Slot.zero
  fragmentShaderDirty := false
  isFlatShadeMode := false
  colorTarget := fun _ => false
  fragmentTextureSamplers := fun _ => ⟨false, false, 0⟩
  fragmentShaderCache := fun _ => none
  fragmentShader := none
  drawRingBuffer :=
    { entries := fun _ =>
        List.replicate (fragmentProgramSlots / 2) Slot.zero
      current := ⟨0, ten_pos⟩ }
  vertexInstructions :=
    List.replicate RsxContext.vertexProgramWords 0
  vertexLoadOffset := 0
  vertexShaderDirty := false
  vertexInputs := fun _ => ⟨.f32, 4⟩
  vertexTextureSamplers := fun _ => ⟨false, 0⟩
  vertexShaderCache := fun _ => none
  vertexShader := none
  replay := false

theorem initial_start : RsxContext.Initial start where
  bytecode := rfl
  clean := rfl
  cache := rfl
  shader := rfl
  buffers := fun _ => List.length_replicate
  vertexClean := rfl
  vertexCache := rfl
  vertexShader := rfl

theorem draw_bindsConstants_iff_twice :
    ∃ s t,
      Transition.Run (RsxContext.Step hashSlots hashWords)
          start
          ([] ++ .shaderProgram program :: [.draw]) s ∧
        s.updateShaders hashSlots hashWords = some t ∧
        (BindsConstants t program ↔
          ¬ Redirtied [.draw] ∨ ConstantsZero program) := by
  have hExec :
      ((Transition.exec
        (RsxContext.step hashSlots hashWords) start
        ([] ++ .shaderProgram program :: [.draw])).bind
          (fun s =>
            (s.updateShaders hashSlots hashWords).map
              (fun t => (s, t)))).isSome = true := by
    decide +kernel
  rcases Option.isSome_iff_exists.mp hExec with ⟨r, hr⟩
  rcases Option.bind_eq_some_iff.mp hr with ⟨s, hs, hMap⟩
  rcases Option.map_eq_some_iff.mp hMap with ⟨t, hUpdate, -⟩
  have hRun := Transition.run_of_exec hs
  refine ⟨s, t, hRun, hUpdate, ?_⟩
  exact
    draw_bindsConstants_iff initial_start hRun (by decide)
      hUpdate

/-
  A change of the shading mode between two draws loses the
  constants of the program.
-/
theorem constants_lost_by_shadeMode :
    ¬ ∀ (start s t : RsxContext Bytes)
        (before since : List Command)
        (p : Bytecode),
        RsxContext.Initial start →
        Transition.Run (RsxContext.Step hashSlots hashWords)
          start (before ++ .shaderProgram p :: since) s →
        (∀ c ∈ since, c.isLoad = false) →
        s.updateShaders hashSlots hashWords = some t →
        BindsConstants t p := by
  intro hAll
  have hExec :
      ((Transition.exec
        (RsxContext.step hashSlots hashWords) start
        ([] ++ .shaderProgram program ::
          [.draw, .shadeMode true])).bind (fun s =>
            (s.updateShaders hashSlots hashWords).map
              (fun t => (s, t)))).map (fun r =>
                (r.2.drawRingBuffer.contents.head?,
                  embeddedConstants program.slots)) =
        some (some Slot.zero, some [fun _ => 1]) := by
    decide +kernel
  rcases Option.map_eq_some_iff.mp hExec with ⟨r, hr, hState⟩
  obtain ⟨hHead, hConstants⟩ := Prod.mk.inj hState
  rcases Option.bind_eq_some_iff.mp hr with ⟨s, hs, hMap⟩
  rcases Option.map_eq_some_iff.mp hMap with ⟨t, hUpdate, rfl⟩
  have hRun := Transition.run_of_exec hs
  rcases hAll start s t [] _ program initial_start hRun
      (by decide) hUpdate with
    ⟨constants, hEq, hPrefix⟩
  rw [hConstants] at hEq
  obtain rfl := Option.some.inj hEq
  rcases hPrefix with ⟨rest, hContents⟩
  rw [← hContents] at hHead
  have hFirst : (fun _ => 1 : Slot) = Slot.zero :=
    Option.some.inj hHead
  have hByte := congrFun hFirst 0
  cases hByte

end Rsx

end Ps3emu
