import Ps3emu.Library.Memo
import Ps3emu.Rsx.FragmentConstants

/-
  The shader caches over a run of commands.  A draw that finds
  a shader dirty requests one; a cache gives the shader of the
  first request with the same key, and the key leaves out some
  of what the shader was generated from.

  Key definitions include:
    * `fragmentInputs`, `fragmentKey`, `fragmentProgram`
    * `VertexRequest`, `vertexKeyOf`, `vertexProgram`
    * `Tracked`, `Tracked.Step`
    * `ShadersCurrent`, `Unchanged`

  Key theorems include:
    * `FragmentCached.update`, `VertexCached.update`
    * `fragmentCurrent_iff`, `vertexCurrent_iff`
    * `Tracked.Inv.step`
    * `draw_shadersCurrent_iff`
-/

------------------------------------------------------------
-- Requests of Fragment Shaders
------------------------------------------------------------

namespace Ps3emu

namespace Rsx

open Shaders
open Cursor (Item Walk)

variable {H : Type} [DecidableEq H] {xxh64 : List Slot → H}
variable {xxh64Words : List (BitVec 32) → H}
variable {s t : RsxContext H}

/- What a fragment shader would be generated from now. -/
def fragmentInputs
    (s : RsxContext H) : Option FragmentInputs :=
  (fragmentCode s.fragmentBytecode).map (fun code =>
    { code
      samplerSizes := s.samplerSizes
      isFlatColorShading := s.isFlatShadeMode
      isMrt := s.isMrt })

/- The key under which a request is stored. -/
def fragmentKey
    (xxh64 : List Slot → H)
    (c : FragmentInputs) : FragmentShaderKey H where
  hash := xxh64 c.code.slots
  size := c.code.size
  constCount := c.code.constCount
  mrt := c.isMrt

/- The part of a request that its key depends on. -/
def fragmentProgram
    (c : FragmentInputs) : FragmentCode × Bool :=
  (c.code, c.isMrt)

omit [DecidableEq H] in
theorem fragmentKey_eq_iff
    (hInjective : Function.Injective xxh64)
    (c d : FragmentInputs) :
    fragmentKey xxh64 c = fragmentKey xxh64 d ↔
      fragmentProgram c = fragmentProgram d := by
  rcases c with ⟨⟨slots, size, count⟩, _, _, mrt⟩
  rcases d with ⟨⟨slots', size', count'⟩, _, _, mrt'⟩
  simp [fragmentKey, fragmentProgram, hInjective.eq_iff,
    and_assoc]

theorem fragmentCode_of_walk
    {p : List Slot}
    {stop : Nat}
    {items : List (Nat × Item Bool)}
    (hWalk :
      Walk (scanItem p) fragmentProgramSlots 0 items stop)
    (hMapped : Mapped items) :
    fragmentCode p =
      some
        { slots := (cleared p (constSlots items)).take stop
          size := stop
          constCount := (constSlots items).length } := by
  have hInfo :
      getFragmentBytecodeInfo p =
        some
          ⟨fun j => decide (j ∈ constSlots items), stop⟩ :=
    (getFragmentBytecodeInfo_iff p _).mpr
      ⟨items, hWalk, hMapped, rfl⟩
  rw [fragmentCode, hInfo, Option.map_some]
  simp only [filter_constSlots hWalk]

/-
  The byte code that an extraction leaves is the byte code
  that there was before, and its key is the request's.
-/
omit [DecidableEq H] in
theorem fragmentInputs_of_unzip
    {u : Unzipped}
    {key : FragmentShaderKey H}
    (hSized : Sized s)
    (hUnzip :
      unzip xxh64 s.fragmentBytecode
          s.drawRingBuffer.contents s.isMrt =
        some (u, key)) :
    fragmentInputs s = some (s.fragmentGenerator u key) ∧
      fragmentKey xxh64 (s.fragmentGenerator u key) = key ∧
      fragmentCode u.slots =
        fragmentCode s.fragmentBytecode := by
  rcases unzip_cases hUnzip hSized.bytecode
      (hSized.buffers _) with
    ⟨items, stop, hWalk, hMapped, rfl, rfl⟩
  have hCode := fragmentCode_of_walk hWalk hMapped
  refine ⟨?_, rfl, ?_⟩
  · rw [fragmentInputs, hCode]
    rfl
  · rw [fragmentCode_of_walk (walk_cleared hWalk) hMapped,
      hCode, cleared_cleared]

/- The request that a draw makes, if the shader is dirty. -/
def fragmentRequest (s : RsxContext H) : List FragmentInputs :=
  if s.fragmentShaderDirty then (fragmentInputs s).toList
  else []

/-
  The cache holds the first requests of each key, and the
  shader in use is the one given for the last request.
-/
structure FragmentCached
    (xxh64 : List Slot → H)
    (requests : List FragmentInputs)
    (s : RsxContext H) : Prop where
  cache :
    s.fragmentShaderCache =
      Memo.first (fragmentKey xxh64) requests
  shader :
    s.fragmentShader =
      requests.getLast?.bind (fun last =>
        Memo.first (fragmentKey xxh64) requests
          (fragmentKey xxh64 last))
  clean :
    s.fragmentShaderDirty = false →
    ∀ last,
      requests.getLast? = some last →
      fragmentCode s.fragmentBytecode = some last.code ∧
        s.isFlatShadeMode = last.isFlatColorShading

theorem FragmentCached.update
    {requests : List FragmentInputs}
    (hCached : FragmentCached xxh64 requests s)
    (hSized : Sized s)
    (hUpdate : s.updateFragmentShader xxh64 = some t) :
    FragmentCached xxh64 (requests ++ fragmentRequest s) t ∧
      t.fragmentShaderDirty = false := by
  rcases RsxContext.updateFragmentShader_cases hUpdate with
    ⟨hClean, rfl⟩ | ⟨u, key, hDirty, hUnzip, hCases⟩
  · rw [fragmentRequest, hClean]
    simp only [Bool.false_eq_true, if_false, List.append_nil]
    exact ⟨hCached, trivial⟩
  · rcases fragmentInputs_of_unzip hSized hUnzip with
      ⟨hInputs, hKey, hCode⟩
    rw [fragmentRequest, hDirty, if_pos rfl, hInputs]
    simp only [Option.toList_some]
    have hClean :
        ∀ last,
          (requests ++ [s.fragmentGenerator u key]).getLast? =
              some last →
          fragmentCode u.slots = some last.code ∧
            s.isFlatShadeMode = last.isFlatColorShading := by
      intro last hLast
      rw [List.getLast?_concat] at hLast
      rw [← Option.some.inj hLast, hCode]
      rcases Option.map_eq_some_iff.mp hInputs with
        ⟨code, hSome, hEq⟩
      rw [hSome, ← hEq]
      exact ⟨rfl, rfl⟩
    have hStore :=
      Memo.store_first (fragmentKey xxh64) requests
        (s.fragmentGenerator u key)
    have hServe :=
      Memo.serve_first (fragmentKey xxh64) requests
        (s.fragmentGenerator u key)
    rw [← hCached.cache, Memo.store, hKey] at hStore
    rw [← hCached.cache, Memo.serve, hKey] at hServe
    rcases hCases with ⟨shader, hFound, rfl⟩ | ⟨hNone, rfl⟩
    · rw [hFound] at hStore hServe
      refine ⟨⟨hStore, ?_, fun _ => hClean⟩, rfl⟩
      rw [List.getLast?_concat, Option.bind_some, hKey, hServe]
      rfl
    · rw [hNone] at hStore hServe
      refine ⟨⟨hStore, ?_, fun _ => hClean⟩, rfl⟩
      rw [List.getLast?_concat, Option.bind_some, hKey, hServe]
      rfl

/- The fragment shader in use is what would be generated. -/
def FragmentCurrent (s : RsxContext H) : Prop :=
  ∀ shader,
    s.fragmentShader = some shader →
    fragmentInputs s = some shader

/-
  Between the first request of the program of the last
  request and now, the sampler sizes, the shading mode and
  the number of targets are the same.
-/
def FragmentUnchanged
    (requests : List FragmentInputs)
    (s : RsxContext H) : Prop :=
  ∀ last c,
    requests.getLast? = some last →
    Memo.first fragmentProgram requests
        (fragmentProgram last) =
      some c →
    c.samplerSizes = s.samplerSizes ∧
      c.isFlatColorShading = s.isFlatShadeMode ∧
      c.isMrt = s.isMrt

theorem fragmentCurrent_iff
    {requests : List FragmentInputs}
    (hInjective : Function.Injective xxh64)
    (hCached : FragmentCached xxh64 requests s)
    (hClean : s.fragmentShaderDirty = false) :
    FragmentCurrent s ↔ FragmentUnchanged requests s := by
  have hFirst := fun last =>
    Memo.first_congr (fragmentKey_eq_iff hInjective) requests
      last
  constructor
  · intro hCurrent last c hLast hc
    have hShader : s.fragmentShader = some c := by
      rw [hCached.shader, hLast, Option.bind_some, hFirst, hc]
    rcases Option.map_eq_some_iff.mp (hCurrent c hShader) with
      ⟨code, -, rfl⟩
    exact ⟨rfl, rfl, rfl⟩
  · intro hUnchanged c hShader
    rw [hCached.shader] at hShader
    rcases Option.bind_eq_some_iff.mp hShader with
      ⟨last, hLast, hc⟩
    rw [hFirst] at hc
    rcases hUnchanged last c hLast hc with
      ⟨hSizes, hFlat, hMrt⟩
    have hProgram : c.code = last.code :=
      congrArg Prod.fst (Memo.key_of_first hc)
    have hCode := (hCached.clean hClean last hLast).1
    rw [fragmentInputs, hCode, Option.map_some, ← hProgram,
      ← hSizes, ← hFlat, ← hMrt]

------------------------------------------------------------
-- Requests of Vertex Shaders
------------------------------------------------------------

/-
  The words that were uploaded, and what a shader would be
  generated from.
-/
structure VertexRequest where
  words : List (BitVec 32)
  inputs : VertexInputs

def vertexKeyOf
    (xxh64Words : List (BitVec 32) → H)
    (c : VertexRequest) : VertexShaderKey H where
  hash := xxh64Words c.words
  ranks := fun i => (c.inputs.inputs i).rank

/- The part of a request that its key depends on. -/
def vertexProgram
    (c : VertexRequest) :
    List (BitVec 32) × (Fin 16 → BitVec 8) :=
  (c.words, fun i => (c.inputs.inputs i).rank)

omit [DecidableEq H] in
theorem vertexKeyOf_eq_iff
    (hInjective : Function.Injective xxh64Words)
    (c d : VertexRequest) :
    vertexKeyOf xxh64Words c = vertexKeyOf xxh64Words d ↔
      vertexProgram c = vertexProgram d := by
  simp [vertexKeyOf, vertexProgram, hInjective.eq_iff]

def vertexRequestNow (s : RsxContext H) : VertexRequest where
  words := s.vertexInstructions.take s.vertexLoadOffset
  inputs := s.vertexGenerator

def vertexRequest (s : RsxContext H) : List VertexRequest :=
  if s.vertexShaderDirty then [vertexRequestNow s] else []

structure VertexCached
    (xxh64Words : List (BitVec 32) → H)
    (requests : List VertexRequest)
    (s : RsxContext H) : Prop where
  cache :
    s.vertexShaderCache = fun k =>
      (Memo.first (vertexKeyOf xxh64Words) requests k).map
        VertexRequest.inputs
  shader :
    s.vertexShader =
      requests.getLast?.bind (fun last =>
        (Memo.first (vertexKeyOf xxh64Words) requests
          (vertexKeyOf xxh64Words last)).map
            VertexRequest.inputs)

variable {requests : List VertexRequest}

theorem VertexCached.update
    (hCached : VertexCached xxh64Words requests s)
    (hUpdate : s.updateVertexShader xxh64Words = some t) :
    VertexCached xxh64Words (requests ++ vertexRequest s)
      t := by
  rcases RsxContext.updateVertexShader_cases hUpdate with
    ⟨hClean, rfl⟩ | ⟨hDirty, hCases⟩
  · rw [vertexRequest, hClean]
    simp only [Bool.false_eq_true, if_false, List.append_nil]
    exact hCached
  · rw [vertexRequest, hDirty, if_pos rfl]
    have hKey :
        s.vertexKey xxh64Words =
          vertexKeyOf xxh64Words (vertexRequestNow s) := rfl
    have hFound :
        s.vertexShaderCache (s.vertexKey xxh64Words) =
          (Memo.first (vertexKeyOf xxh64Words) requests
            (vertexKeyOf xxh64Words
              (vertexRequestNow s))).map
                VertexRequest.inputs := by
      rw [hCached.cache, hKey]
    have hServe :=
      Memo.serve_first (vertexKeyOf xxh64Words) requests
        (vertexRequestNow s)
    have hStore :=
      Memo.store_first (vertexKeyOf xxh64Words) requests
        (vertexRequestNow s)
    rw [Memo.serve] at hServe
    rw [Memo.store] at hStore
    rcases hCases with ⟨shader, hSome, rfl⟩ | ⟨hNone, rfl⟩
    · rw [hFound] at hSome
      rcases Option.map_eq_some_iff.mp hSome with
        ⟨c, hc, rfl⟩
      rw [hc] at hServe hStore
      refine ⟨?_, ?_⟩
      · rw [← hStore]
        exact hCached.cache
      · rw [List.getLast?_concat, Option.bind_some, hServe]
        rfl
    · rw [hFound, Option.map_eq_none_iff] at hNone
      rw [hNone] at hServe hStore
      refine ⟨?_, ?_⟩
      · rw [← hStore]
        funext k
        simp only [hCached.cache, Function.update_apply, hKey]
        split
        · rfl
        · rfl
      · rw [List.getLast?_concat, Option.bind_some, hServe]
        rfl

/- More words do not change a program that is complete. -/
theorem vertexCode_append
    {words code : List (BitVec 32)}
    (hCode : vertexCode words = some code)
    (more : List (BitVec 32)) :
    vertexCode (words ++ more) = some code := by
  induction words using vertexCode.induct generalizing code with
  | case1 b0 b1 b2 b3 rest hLast =>
      rw [vertexCode, if_pos hLast] at hCode
      simp only [List.cons_append]
      rw [vertexCode, if_pos hLast]
      exact hCode
  | case2 b0 b1 b2 b3 rest hLast ih =>
      rw [vertexCode, if_neg hLast] at hCode
      rcases Option.map_eq_some_iff.mp hCode with
        ⟨tail, hTail, rfl⟩
      simp only [List.cons_append]
      rw [vertexCode, if_neg hLast, ih hTail]
      rfl
  | case3 words hShort =>
      rw [vertexCode] at hCode
      · cases hCode
      · exact hShort

/-
  A request of a complete program is for the byte code in its
  words.
-/
def FromWords (c : VertexRequest) : Prop :=
  ∀ code,
    vertexCode c.words = some code →
    c.inputs.code = some code

omit [DecidableEq H] in
theorem fromWords_now (s : RsxContext H) :
    FromWords (vertexRequestNow s) := by
  intro code hCode
  have hAll :=
    vertexCode_append hCode
      (s.vertexInstructions.drop s.vertexLoadOffset)
  change
    vertexCode
        (s.vertexInstructions.take s.vertexLoadOffset ++
          s.vertexInstructions.drop s.vertexLoadOffset) =
      some code at hAll
  rwa [List.take_append_drop] at hAll

/-
  What holds of the requests so far: each was made in the
  feedback mode that there is, and a shader that is not dirty
  was last requested for the byte code that there is.
-/
structure VertexHistory
    (requests : List VertexRequest)
    (s : RsxContext H) : Prop where
  words : ∀ c ∈ requests, FromWords c
  feedback : ∀ c ∈ requests, c.inputs.feedback = s.replay
  clean :
    s.vertexShaderDirty = false →
    ∀ last,
      requests.getLast? = some last →
      last.inputs.code = vertexCode s.vertexInstructions

theorem VertexHistory.update
    (hHistory : VertexHistory requests s)
    (hUpdate : s.updateVertexShader xxh64Words = some t) :
    VertexHistory (requests ++ vertexRequest s) t ∧
      t.vertexShaderDirty = false := by
  have hSame :
      t.vertexShaderDirty = false ∧
        t.replay = s.replay ∧
        t.vertexInstructions = s.vertexInstructions := by
    rcases RsxContext.updateVertexShader_cases hUpdate with
      ⟨hClean, rfl⟩ | ⟨-, ⟨shader, -, rfl⟩ | ⟨-, rfl⟩⟩
    · exact ⟨hClean, rfl, rfl⟩
    · exact ⟨rfl, rfl, rfl⟩
    · exact ⟨rfl, rfl, rfl⟩
  refine ⟨⟨?_, ?_, ?_⟩, hSame.1⟩
  · intro c hc
    rcases List.mem_append.mp hc with hOld | hNew
    · exact hHistory.words c hOld
    · rw [vertexRequest] at hNew
      split at hNew
      · rw [List.mem_singleton.mp hNew]
        exact fromWords_now s
      · cases hNew
  · intro c hc
    rw [hSame.2.1]
    rcases List.mem_append.mp hc with hOld | hNew
    · exact hHistory.feedback c hOld
    · rw [vertexRequest] at hNew
      split at hNew
      · rw [List.mem_singleton.mp hNew]
        rfl
      · cases hNew
  · intro _ last hLast
    rw [hSame.2.2]
    rw [vertexRequest] at hLast
    split at hLast
    · rw [List.getLast?_concat] at hLast
      rw [← Option.some.inj hLast]
      rfl
    case isFalse hClean =>
      rw [List.append_nil] at hLast
      exact
        hHistory.clean (Bool.not_eq_true _ ▸ hClean) last hLast

/- The vertex shader in use is what would be generated. -/
def VertexCurrent (s : RsxContext H) : Prop :=
  ∀ shader,
    s.vertexShader = some shader →
    shader = s.vertexGenerator

/-
  Between the first request with the words and ranks of the
  last request and now, the ranks and types and the sampler
  sizes are the same, and so is the byte code where the words
  do not hold a complete program.
-/
def VertexUnchanged
    (requests : List VertexRequest)
    (s : RsxContext H) : Prop :=
  ∀ last c,
    requests.getLast? = some last →
    Memo.first vertexProgram requests (vertexProgram last) =
      some c →
    c.inputs.inputs = s.vertexInputs ∧
      c.inputs.samplerSizes = s.vertexSamplerSizes ∧
      (vertexCode c.words = none →
        c.inputs.code = vertexCode s.vertexInstructions)

theorem vertexCurrent_iff
    (hInjective : Function.Injective xxh64Words)
    (hCached : VertexCached xxh64Words requests s)
    (hHistory : VertexHistory requests s)
    (hClean : s.vertexShaderDirty = false) :
    VertexCurrent s ↔ VertexUnchanged requests s := by
  have hFirst := fun last =>
    Memo.first_congr (vertexKeyOf_eq_iff hInjective) requests
      last
  constructor
  · intro hCurrent last c hLast hc
    have hShader : s.vertexShader = some c.inputs := by
      rw [hCached.shader, hLast, Option.bind_some, hFirst, hc]
      rfl
    rw [hCurrent _ hShader]
    exact ⟨rfl, rfl, fun _ => rfl⟩
  · intro hUnchanged shader hShader
    rw [hCached.shader] at hShader
    rcases Option.bind_eq_some_iff.mp hShader with
      ⟨last, hLast, hMap⟩
    rw [hFirst] at hMap
    rcases Option.map_eq_some_iff.mp hMap with ⟨c, hc, rfl⟩
    rcases hUnchanged last c hLast hc with
      ⟨hInputs, hSizes, hRest⟩
    have hMem : c ∈ requests := List.mem_of_find?_eq_some hc
    have hLastMem : last ∈ requests :=
      List.mem_of_getLast? hLast
    have hWords : c.words = last.words :=
      congrArg Prod.fst (Memo.key_of_first hc)
    have hCode :
        c.inputs.code = vertexCode s.vertexInstructions := by
      cases hComplete : vertexCode c.words with
      | none => exact hRest hComplete
      | some code =>
          rw [hHistory.words c hMem code hComplete]
          rw [hWords] at hComplete
          rw [← hHistory.clean hClean last hLast]
          exact
            (hHistory.words last hLastMem code hComplete).symm
    have hFeedback := hHistory.feedback c hMem
    rcases c with ⟨words, ⟨code, inputs, sizes, feedback⟩⟩
    simp only at hCode hInputs hSizes hFeedback
    rw [RsxContext.vertexGenerator, hCode, hInputs, hSizes,
      hFeedback]

------------------------------------------------------------
-- Runs with their Requests
------------------------------------------------------------

/- The context, with the requests of the draws so far. -/
structure Tracked (H : Type) where
  context : RsxContext H
  fragmentRequests : List FragmentInputs
  vertexRequests : List VertexRequest

namespace Tracked

/- The requests up to and including those of a draw. -/
def fragmentRequestsNow
    (s : Tracked H) : List FragmentInputs :=
  s.fragmentRequests ++ fragmentRequest s.context

def vertexRequestsNow (s : Tracked H) : List VertexRequest :=
  s.vertexRequests ++ vertexRequest s.context

def step
    (xxh64 : List Slot → H)
    (xxh64Words : List (BitVec 32) → H)
    (s : Tracked H)
    (c : Command) : Option (Tracked H) :=
  (s.context.step xxh64 xxh64Words c).map (fun context =>
    match c with
    | .draw =>
        { context
          fragmentRequests := s.fragmentRequestsNow
          vertexRequests := s.vertexRequestsNow }
    | _ => { s with context })

def Step
    (xxh64 : List Slot → H)
    (xxh64Words : List (BitVec 32) → H)
    (s : Tracked H)
    (c : Command)
    (t : Tracked H) : Prop :=
  s.step xxh64 xxh64Words c = some t

structure Initial (s : Tracked H) : Prop where
  context : RsxContext.Initial s.context
  fragment : s.fragmentRequests = []
  vertex : s.vertexRequests = []

structure Inv
    (xxh64 : List Slot → H)
    (xxh64Words : List (BitVec 32) → H)
    (s : Tracked H) : Prop where
  sized : Sized s.context
  fragment :
    FragmentCached xxh64 s.fragmentRequests s.context
  vertex : VertexCached xxh64Words s.vertexRequests s.context
  history : VertexHistory s.vertexRequests s.context

theorem Inv.initial
    {s : Tracked H}
    (hInitial : Initial s) :
    Inv xxh64 xxh64Words s := by
  rcases s with ⟨context, fragment, vertex⟩
  rcases hInitial with ⟨hContext, rfl, rfl⟩
  refine ⟨Sized.initial hContext, ?_, ?_, ?_⟩
  · refine ⟨hContext.cache, hContext.shader, ?_⟩
    intro _ last hLast
    cases hLast
  · exact ⟨hContext.vertexCache, hContext.vertexShader⟩
  · refine ⟨nofun, nofun, ?_⟩
    intro _ last hLast
    cases hLast

/- What holds of the context in which a draw is made. -/
theorem Inv.update
    {s : Tracked H}
    {t : RsxContext H}
    (hInv : Inv xxh64 xxh64Words s)
    (hUpdate :
      s.context.updateShaders xxh64 xxh64Words = some t) :
    FragmentCached xxh64 s.fragmentRequestsNow t ∧
      t.fragmentShaderDirty = false ∧
      VertexCached xxh64Words s.vertexRequestsNow t ∧
      VertexHistory s.vertexRequestsNow t ∧
      t.vertexShaderDirty = false := by
  rcases RsxContext.updateShaders_cases hUpdate with
    ⟨m, hFragment, hVertex⟩
  rcases hInv.fragment.update hInv.sized hFragment with
    ⟨hCached, hClean⟩
  -- the first part leaves the vertex fields as they are
  have hMiddle :
      VertexCached xxh64Words s.vertexRequests m ∧
        VertexHistory s.vertexRequests m ∧
        vertexRequest m = vertexRequest s.context := by
    rcases RsxContext.updateFragmentShader_cases hFragment
      with
      ⟨-, rfl⟩ | ⟨u, key, -, -, ⟨shader, -, rfl⟩ | ⟨-, rfl⟩⟩
    · exact ⟨hInv.vertex, hInv.history, rfl⟩
    · refine ⟨⟨?_, ?_⟩, ⟨hInv.history.words, ?_, ?_⟩, rfl⟩
      · exact hInv.vertex.cache
      · exact hInv.vertex.shader
      · exact hInv.history.feedback
      · exact hInv.history.clean
    · refine ⟨⟨?_, ?_⟩, ⟨hInv.history.words, ?_, ?_⟩, rfl⟩
      · exact hInv.vertex.cache
      · exact hInv.vertex.shader
      · exact hInv.history.feedback
      · exact hInv.history.clean
  rcases hMiddle with ⟨hVertexCached, hHistory, hRequest⟩
  have hVertexEnd := hVertexCached.update hVertex
  have hHistoryEnd := hHistory.update hVertex
  rw [hRequest] at hVertexEnd hHistoryEnd
  -- and the second part leaves the fragment fields
  have hFragmentEnd :
      FragmentCached xxh64 s.fragmentRequestsNow t ∧
        t.fragmentShaderDirty = false := by
    rcases RsxContext.updateVertexShader_cases hVertex with
      ⟨-, rfl⟩ | ⟨-, ⟨shader, -, rfl⟩ | ⟨-, rfl⟩⟩
    · exact ⟨hCached, hClean⟩
    · exact
        ⟨⟨hCached.cache, hCached.shader, hCached.clean⟩,
          hClean⟩
    · exact
        ⟨⟨hCached.cache, hCached.shader, hCached.clean⟩,
          hClean⟩
  exact
    ⟨hFragmentEnd.1, hFragmentEnd.2, hVertexEnd,
      hHistoryEnd.1, hHistoryEnd.2⟩

theorem Inv.step
    {s t : Tracked H}
    {c : Command}
    (hInv : Inv xxh64 xxh64Words s)
    (hStep : Step xxh64 xxh64Words s c t) :
    Inv xxh64 xxh64Words t := by
  rcases Option.map_eq_some_iff.mp hStep with
    ⟨context, hContext, rfl⟩
  have hSized := hInv.sized.step hContext
  have hFragment := hInv.fragment
  have hVertex := hInv.vertex
  have hHistory := hInv.history
  cases c with
  | draw =>
      rcases Option.map_eq_some_iff.mp hContext with
        ⟨m, hUpdate, rfl⟩
      rcases hInv.update hUpdate with
        ⟨hCached, -, hVertexCached, hHistoryEnd, -⟩
      exact
        ⟨hSized,
          ⟨hCached.cache, hCached.shader, hCached.clean⟩,
          ⟨hVertexCached.cache, hVertexCached.shader⟩,
          ⟨hHistoryEnd.words, hHistoryEnd.feedback,
            hHistoryEnd.clean⟩⟩
  | transformProgram source =>
      simp only [RsxContext.step] at hContext
      split at hContext
      case isFalse => cases hContext
      case isTrue =>
        obtain rfl := Option.some.inj hContext
        refine
          ⟨hSized,
            ⟨hFragment.cache, hFragment.shader,
              hFragment.clean⟩,
            ⟨hVertex.cache, hVertex.shader⟩,
            ⟨hHistory.words, hHistory.feedback, ?_⟩⟩
        intro hClean
        cases hClean
  | shaderProgram p =>
      obtain rfl := Option.some.inj hContext
      refine
        ⟨hSized, ⟨hFragment.cache, hFragment.shader, ?_⟩,
          ⟨hVertex.cache, hVertex.shader⟩,
          ⟨hHistory.words, hHistory.feedback,
            hHistory.clean⟩⟩
      intro hClean
      cases hClean
  | shadeMode flat =>
      obtain rfl := Option.some.inj hContext
      refine
        ⟨hSized, ⟨hFragment.cache, hFragment.shader, ?_⟩,
          ⟨hVertex.cache, hVertex.shader⟩,
          ⟨hHistory.words, hHistory.feedback,
            hHistory.clean⟩⟩
      intro hClean
      cases hClean
  | _ =>
      obtain rfl := Option.some.inj hContext
      exact
        ⟨hSized,
          ⟨hFragment.cache, hFragment.shader,
            hFragment.clean⟩,
          ⟨hVertex.cache, hVertex.shader⟩,
          ⟨hHistory.words, hHistory.feedback,
            hHistory.clean⟩⟩

end Tracked

------------------------------------------------------------
-- Draws
------------------------------------------------------------

/- Both shaders in use are what would be generated. -/
def ShadersCurrent (s : RsxContext H) : Prop :=
  FragmentCurrent s ∧ VertexCurrent s

/- Nothing that the keys leave out has changed. -/
def Unchanged (s : Tracked H) : Prop :=
  FragmentUnchanged s.fragmentRequestsNow s.context ∧
    VertexUnchanged s.vertexRequestsNow s.context

/- An update does not change what shaders depend on. -/
theorem unchanged_updateShaders
    (hUpdate :
      s.updateShaders xxh64 xxh64Words = some t) :
    t.samplerSizes = s.samplerSizes ∧
      t.isFlatShadeMode = s.isFlatShadeMode ∧
      t.isMrt = s.isMrt ∧
      t.vertexInputs = s.vertexInputs ∧
      t.vertexSamplerSizes = s.vertexSamplerSizes ∧
      t.vertexInstructions = s.vertexInstructions := by
  rcases RsxContext.updateShaders_cases hUpdate with
    ⟨m, hFragment, hVertex⟩
  rcases RsxContext.updateFragmentShader_cases hFragment with
    ⟨-, rfl⟩ | ⟨u, key, -, -, ⟨shader, -, rfl⟩ | ⟨-, rfl⟩⟩ <;>
  rcases RsxContext.updateVertexShader_cases hVertex with
    ⟨-, rfl⟩ | ⟨-, ⟨shader, -, rfl⟩ | ⟨-, rfl⟩⟩ <;>
  exact ⟨rfl, rfl, rfl, rfl, rfl, rfl⟩

/-
  The shaders of a draw are those of the current byte code and
  settings if and only if nothing that the keys and the dirty
  flags leave out has changed since they were requested.
-/
theorem draw_shadersCurrent_iff
    {start s : Tracked H}
    {commands : List Command}
    (hSlots : Function.Injective xxh64)
    (hWords : Function.Injective xxh64Words)
    (hInitial : start.Initial)
    (hRun :
      Transition.Run (Tracked.Step xxh64 xxh64Words) start
        commands s)
    (hUpdate :
      s.context.updateShaders xxh64 xxh64Words = some t) :
    ShadersCurrent t ↔ Unchanged s := by
  have hInv : Tracked.Inv xxh64 xxh64Words s :=
    hRun.invariant (Tracked.Inv xxh64 xxh64Words)
      (fun _ _ _ => Tracked.Inv.step)
      (Tracked.Inv.initial hInitial)
  rcases hInv.update hUpdate with
    ⟨hFragment, hClean, hVertex, hHistory, hVertexClean⟩
  rcases unchanged_updateShaders hUpdate with
    ⟨hSizes, hFlat, hMrt, hInputs, hVertexSizes, hCode⟩
  rw [ShadersCurrent, Unchanged,
    fragmentCurrent_iff hSlots hFragment hClean,
    vertexCurrent_iff hWords hVertex hHistory hVertexClean]
  simp only [FragmentUnchanged, VertexUnchanged, hSizes, hFlat,
    hMrt, hInputs, hVertexSizes, hCode]

theorem injective_hashSlots :
    Function.Injective hashSlots :=
  fun _ _ hEq => congrArg Prod.fst hEq

theorem injective_hashWords :
    Function.Injective hashWords :=
  fun _ _ hEq => congrArg Prod.snd hEq

def trackedStart : Tracked Bytes :=
  ⟨start, [], []⟩

theorem initial_trackedStart : trackedStart.Initial :=
  ⟨initial_start, rfl, rfl⟩

theorem draw_shadersCurrent_iff_loaded :
    ∃ s t,
      Transition.Run (Tracked.Step hashSlots hashWords)
          trackedStart
          [.textureOffset 0 2 false, .shaderProgram program]
          s ∧
        s.context.updateShaders hashSlots hashWords = some t ∧
        (ShadersCurrent t ↔ Unchanged s) := by
  have hExec :
      ((Transition.exec (Tracked.step hashSlots hashWords)
        trackedStart
        [.textureOffset 0 2 false,
          .shaderProgram program]).bind (fun s =>
            (s.context.updateShaders hashSlots
              hashWords).map (fun t => (s, t)))).isSome =
        true := by
    decide +kernel
  rcases Option.isSome_iff_exists.mp hExec with ⟨r, hr⟩
  rcases Option.bind_eq_some_iff.mp hr with ⟨s, hs, hMap⟩
  rcases Option.map_eq_some_iff.mp hMap with ⟨t, hUpdate, -⟩
  have hRun := Transition.run_of_exec hs
  refine ⟨s, t, hRun, hUpdate, ?_⟩
  exact
    draw_shadersCurrent_iff injective_hashSlots
      injective_hashWords initial_trackedStart hRun hUpdate

/-
  A texture that is enabled between two draws with the same
  program gives a sampler that the shader in use lacks.
-/
theorem stale_shader_after_textureOffset :
    ¬ ∀ (start s : Tracked Bytes)
        (t : RsxContext Bytes)
        (commands : List Command),
        Function.Injective hashSlots →
        Function.Injective hashWords →
        start.Initial →
        Transition.Run (Tracked.Step hashSlots hashWords)
          start commands s →
        s.context.updateShaders hashSlots hashWords =
          some t →
        ShadersCurrent t := by
  intro hAll
  have hExec :
      ((Transition.exec (Tracked.step hashSlots hashWords)
        trackedStart
        [.shaderProgram program, .draw,
          .textureOffset 0 2 false]).bind (fun s =>
            (s.context.updateShaders hashSlots
              hashWords).map (fun t => (s, t)))).map
                (fun r =>
                  (r.2.fragmentShader.map (fun c =>
                      c.samplerSizes 0),
                    r.2.samplerSizes 0)) =
        some (some 0, 2) := by
    decide +kernel
  rcases Option.map_eq_some_iff.mp hExec with ⟨r, hr, hState⟩
  obtain ⟨hShader, hSizes⟩ := Prod.mk.inj hState
  rcases Option.bind_eq_some_iff.mp hr with ⟨s, hs, hMap⟩
  rcases Option.map_eq_some_iff.mp hMap with ⟨t, hUpdate, rfl⟩
  rcases Option.map_eq_some_iff.mp hShader with
    ⟨c, hc, hOld⟩
  have hRun := Transition.run_of_exec hs
  have hCurrent :=
    hAll trackedStart s t _ injective_hashSlots
      injective_hashWords initial_trackedStart hRun hUpdate
  rcases Option.map_eq_some_iff.mp (hCurrent.1 c hc) with
    ⟨code, -, rfl⟩
  cases hSizes.symm.trans hOld

end Rsx

end Ps3emu
