import Mathlib.Data.Fintype.Basic
import Ps3emu.Library.Transition
import Ps3emu.Shaders.FragmentProgram

/-
  The part of the renderer's context that decides which
  shaders a draw uses, and the commands that set it.  A shader
  stands for the values that its text was generated from.

  Key definitions include:
    * `RingBuffer`
    * `FragmentInputs`, `VertexInputs`
    * `RsxContext`, `Command`
    * `updateFragmentShader`, `updateVertexShader`
    * `RsxContext.Step`

  Key theorems include:
    * `unzip_cases`
    * `updateFragmentShader_cases`
    * `updateVertexShader_cases`
-/

------------------------------------------------------------
-- Ring Buffer
------------------------------------------------------------

namespace Ps3emu

namespace Rsx

open Shaders

/-
  The part of each entry that holds fragment constants, which
  is copied when the ring advances.
-/
structure RingBuffer where
  entries : Fin 10 → List Slot
  current : Fin 10

namespace RingBuffer

/- The constants of the current entry. -/
def contents (r : RingBuffer) : List Slot :=
  r.entries r.current

def write (r : RingBuffer) (fconst : List Slot) : RingBuffer :=
  { r with entries := Function.update r.entries r.current fconst }

def advance (r : RingBuffer) : RingBuffer where
  entries :=
    Function.update r.entries (r.current + 1)
      (r.entries r.current)
  current := r.current + 1

@[simp] theorem contents_write
    (r : RingBuffer)
    (fconst : List Slot) :
    (r.write fconst).contents = fconst := by
  simp [contents, write]

@[simp] theorem contents_advance (r : RingBuffer) :
    r.advance.contents = r.contents := by
  simp [contents, advance]

end RingBuffer

------------------------------------------------------------
-- Inputs of the Generators
------------------------------------------------------------

open Shaders

structure FragmentSampler where
  enable : Bool
  fragmentCubemap : Bool
  dimension : BitVec 8
  deriving DecidableEq

structure VertexSampler where
  enable : Bool
  dimension : BitVec 8
  deriving DecidableEq

inductive VertexInputType where
  | s1 | f32 | f16 | u8 | s16 | x11y11z10n | u16 | u32
  deriving DecidableEq, Repr

structure VertexShaderInputFormat where
  type : VertexInputType
  rank : BitVec 8
  deriving DecidableEq

/-
  The byte code of a fragment program without its constants,
  its length and the number of its constants.
-/
structure FragmentCode where
  slots : List Slot
  size : Nat
  constCount : Nat
  deriving DecidableEq

/- The byte code that a fragment shader is generated from. -/
def fragmentCode (p : List Slot) : Option FragmentCode :=
  (getFragmentBytecodeInfo p).map (fun info =>
    let consts := (List.range info.length).filter info.constMap
    { slots := (cleared p consts).take info.length
      size := info.length
      constCount := consts.length })

/- The arguments of `GenerateFragmentShader`. -/
structure FragmentInputs where
  code : FragmentCode
  samplerSizes : Fin 16 → Nat
  isFlatColorShading : Bool
  isMrt : Bool
  deriving DecidableEq

/-
  The byte code that a vertex shader is generated from: the
  instructions up to the first that is marked as the last.
  Words are in the byte order of guest memory, and the mark is
  the last bit of an instruction.
-/
def vertexCode :
    List (BitVec 32) → Option (List (BitVec 32))
  | b0 :: b1 :: b2 :: b3 :: rest =>
      if b3.getLsbD 0 then some [b0, b1, b2, b3]
      else
        (vertexCode rest).map (fun code =>
          b0 :: b1 :: b2 :: b3 :: code)
  | _ => none

/- The arguments of `GenerateVertexShader`. -/
structure VertexInputs where
  code : Option (List (BitVec 32))
  inputs : Fin 16 → VertexShaderInputFormat
  samplerSizes : Fin 4 → Nat
  feedback : Bool
  deriving DecidableEq

structure VertexShaderKey (H : Type) where
  hash : H
  ranks : Fin 16 → BitVec 8
  deriving DecidableEq

------------------------------------------------------------
-- Context and Commands
------------------------------------------------------------

open Shaders

/- `vertexLoadOffset` is counted in words. -/
structure RsxContext (H : Type) where
  fragmentBytecode : List Slot
  fragmentShaderDirty : Bool
  isFlatShadeMode : Bool
  colorTarget : Fin 4 → Bool
  fragmentTextureSamplers : Fin 16 → FragmentSampler
  fragmentShaderCache :
    FragmentShaderKey H → Option FragmentInputs
  fragmentShader : Option FragmentInputs
  drawRingBuffer : RingBuffer
  vertexInstructions : List (BitVec 32)
  vertexLoadOffset : Nat
  vertexShaderDirty : Bool
  vertexInputs : Fin 16 → VertexShaderInputFormat
  vertexTextureSamplers : Fin 4 → VertexSampler
  vertexShaderCache : VertexShaderKey H → Option VertexInputs
  vertexShader : Option VertexInputs
  replay : Bool

/- A block of memory of `FragmentProgramSize`. -/
structure Bytecode where
  slots : List Slot
  full : slots.length = fragmentProgramSlots

/- `CELL_GCM_SURFACE_TARGET_NONE` and the others. -/
inductive SurfaceTarget where
  | none | target0 | target1 | mrt1 | mrt2 | mrt3
  deriving DecidableEq, Repr

inductive Command where
  | shaderProgram (p : Bytecode)
  | shadeMode (flat : Bool)
  | surfaceColorTarget (target : SurfaceTarget)
  | textureOffset
      (index : Fin 16)
      (dimension : BitVec 8)
      (cubemap : Bool)
  | textureControl0 (index : Fin 16) (enable : Bool)
  | transformProgramLoad
  | transformProgram (source : List (BitVec 32))
  | vertexDataArrayFormat
      (index : Fin 16)
      (size : BitVec 8)
      (type : VertexInputType)
  | vertexTextureOffset (index : Fin 4) (dimension : BitVec 8)
  | vertexTextureControl0 (index : Fin 4) (enable : Bool)
  | resetContext
  | draw

namespace RsxContext

variable {H : Type}

def samplerSizes (s : RsxContext H) : Fin 16 → Nat :=
  fun i =>
    let sampler := s.fragmentTextureSamplers i
    if sampler.enable then
      if sampler.fragmentCubemap then 6
      else sampler.dimension.toNat
    else 0

/- Whether there is more than one colour target. -/
def isMrt (s : RsxContext H) : Bool :=
  1 < ((List.finRange 4).filter s.colorTarget).length

def vertexSamplerSizes (s : RsxContext H) : Fin 4 → Nat :=
  fun i =>
    let sampler := s.vertexTextureSamplers i
    if sampler.enable then sampler.dimension.toNat else 2

def ranks (s : RsxContext H) : Fin 16 → BitVec 8 :=
  fun i => (s.vertexInputs i).rank

/- What a vertex shader would be generated from now. -/
def vertexGenerator (s : RsxContext H) : VertexInputs where
  code := vertexCode s.vertexInstructions
  inputs := s.vertexInputs
  samplerSizes := s.vertexSamplerSizes
  feedback := s.replay

/- The context once constants have been extracted. -/
def extracted
    (s : RsxContext H)
    (u : Unzipped) : RsxContext H :=
  { s with
    fragmentShaderDirty := false
    fragmentBytecode := u.slots
    drawRingBuffer := s.drawRingBuffer.write u.fconst }

/- What a fragment shader is generated from after extraction. -/
def fragmentGenerator
    (s : RsxContext H)
    (u : Unzipped)
    (key : FragmentShaderKey H) : FragmentInputs where
  code :=
    { slots := u.slots.take key.size
      size := key.size
      constCount := key.constCount }
  samplerSizes := s.samplerSizes
  isFlatColorShading := s.isFlatShadeMode
  isMrt := s.isMrt

variable [DecidableEq H] (xxh64 : List Slot → H)
variable (xxh64Words : List (BitVec 32) → H)

/-
  The first part of `updateShaders`.  The byte code that is
  left by the extraction is the one a shader is generated
  from.
-/
def updateFragmentShader
    (s : RsxContext H) : Option (RsxContext H) :=
  if s.fragmentShaderDirty then
    (unzip xxh64 s.fragmentBytecode s.drawRingBuffer.contents
      s.isMrt).map (fun (u, key) =>
        match s.fragmentShaderCache key with
        | some shader =>
            { s.extracted u with fragmentShader := some shader }
        | none =>
            let shader := s.fragmentGenerator u key
            { s.extracted u with
              fragmentShaderCache :=
                Function.update s.fragmentShaderCache key
                  (some shader)
              fragmentShader := some shader })
  else some s

/- The key of the vertex program that was uploaded. -/
def vertexKey (s : RsxContext H) : VertexShaderKey H where
  hash :=
    xxh64Words (s.vertexInstructions.take s.vertexLoadOffset)
  ranks := s.ranks

/-
  The second part of `updateShaders`.  A program without a
  last instruction is not generated: the decoder leaves the
  array.
-/
def updateVertexShader
    (s : RsxContext H) : Option (RsxContext H) :=
  if s.vertexShaderDirty then
    let s := { s with vertexShaderDirty := false }
    let key := s.vertexKey xxh64Words
    match s.vertexShaderCache key with
    | some shader =>
        some { s with vertexShader := some shader }
    | none =>
        if (vertexCode s.vertexInstructions).isSome then
          some
            { s with
              vertexShaderCache :=
                Function.update s.vertexShaderCache key
                  (some s.vertexGenerator)
              vertexShader := some s.vertexGenerator }
        else none
  else some s

def updateShaders
    (s : RsxContext H) : Option (RsxContext H) :=
  (s.updateFragmentShader xxh64).bind (fun s =>
    s.updateVertexShader xxh64Words)

/- The number of words in `vertexInstructions`. -/
def vertexProgramWords : Nat := 512 * 4

def colorTargets : SurfaceTarget → Fin 4 → Bool
  | .none => ![false, false, false, false]
  | target =>
      ![target != .target1, target != .target0,
        target == .mrt2 || target == .mrt3, target == .mrt3]

def step
    (s : RsxContext H) : Command → Option (RsxContext H)
  | .shaderProgram p =>
      some
        { s with
          fragmentBytecode := p.slots
          fragmentShaderDirty := true }
  | .shadeMode flat =>
      some
        { s with
          isFlatShadeMode := flat
          fragmentShaderDirty := true }
  | .surfaceColorTarget target =>
      some { s with colorTarget := colorTargets target }
  | .textureOffset index dimension cubemap =>
      some
        { s with
          fragmentTextureSamplers :=
            Function.update s.fragmentTextureSamplers index
              { enable := true
                fragmentCubemap := cubemap
                dimension :=
                  if dimension = 1 then 2 else dimension } }
  | .textureControl0 index enable =>
      some
        { s with
          fragmentTextureSamplers :=
            Function.update s.fragmentTextureSamplers index
              { s.fragmentTextureSamplers index with
                enable } }
  | .transformProgramLoad =>
      some { s with vertexLoadOffset := 0 }
  | .transformProgram source =>
      let stop := s.vertexLoadOffset + source.length
      if stop ≤ vertexProgramWords then
        some
          { s with
            vertexInstructions :=
              s.vertexInstructions.take s.vertexLoadOffset ++
                source ++ s.vertexInstructions.drop stop
            vertexShaderDirty := true
            vertexLoadOffset := stop }
      else none
  | .vertexDataArrayFormat index size type =>
      some
        { s with
          vertexInputs :=
            Function.update s.vertexInputs index
              ⟨type, size⟩ }
  | .vertexTextureOffset index dimension =>
      some
        { s with
          vertexTextureSamplers :=
            Function.update s.vertexTextureSamplers index
              { s.vertexTextureSamplers index with
                dimension } }
  | .vertexTextureControl0 index enable =>
      some
        { s with
          vertexTextureSamplers :=
            Function.update s.vertexTextureSamplers index
              { s.vertexTextureSamplers index with
                enable } }
  | .resetContext =>
      some
        { s with
          vertexInputs := fun i =>
            { s.vertexInputs i with rank := 0 }
          vertexTextureSamplers := fun i =>
            { s.vertexTextureSamplers i with enable := false }
          fragmentTextureSamplers := fun i =>
            { s.fragmentTextureSamplers i with
              enable := false } }
  | .draw =>
      (s.updateShaders xxh64 xxh64Words).map (fun s =>
        { s with drawRingBuffer := s.drawRingBuffer.advance })

def Step
    (s : RsxContext H)
    (command : Command)
    (t : RsxContext H) : Prop :=
  s.step xxh64 xxh64Words command = some t

/-
  The context after it is made: byte code of zeros that is not
  dirty, no shaders, and buffers of half a program.
-/
structure Initial (s : RsxContext H) : Prop where
  bytecode :
    s.fragmentBytecode =
      List.replicate fragmentProgramSlots Slot.zero
  clean : s.fragmentShaderDirty = false
  cache : s.fragmentShaderCache = fun _ => none
  shader : s.fragmentShader = none
  buffers :
    ∀ i,
      (s.drawRingBuffer.entries i).length =
        fragmentProgramSlots / 2
  vertexClean : s.vertexShaderDirty = false
  vertexCache : s.vertexShaderCache = fun _ => none
  vertexShader : s.vertexShader = none

end RsxContext

------------------------------------------------------------
-- What an Update Does
------------------------------------------------------------

open Shaders

namespace RsxContext

variable {H : Type} [DecidableEq H] {xxh64 : List Slot → H}
variable {xxh64Words : List (BitVec 32) → H}
variable {s t : RsxContext H}

/-
  A clean shader is kept; otherwise constants are extracted
  and the shader is found in the cache or put there.
-/
theorem updateFragmentShader_cases
    (hUpdate : s.updateFragmentShader xxh64 = some t) :
    (s.fragmentShaderDirty = false ∧ t = s) ∨
      ∃ u key,
        s.fragmentShaderDirty = true ∧
          unzip xxh64 s.fragmentBytecode
              s.drawRingBuffer.contents s.isMrt =
            some (u, key) ∧
          ((∃ shader,
              s.fragmentShaderCache key = some shader ∧
                t =
                  { s.extracted u with
                    fragmentShader := some shader }) ∨
            (s.fragmentShaderCache key = none ∧
              t =
                { s.extracted u with
                  fragmentShaderCache :=
                    Function.update s.fragmentShaderCache key
                      (some (s.fragmentGenerator u key))
                  fragmentShader :=
                    some (s.fragmentGenerator u key) })) := by
  rw [updateFragmentShader] at hUpdate
  cases hDirty : s.fragmentShaderDirty with
  | false =>
      simp only [hDirty, Bool.false_eq_true, if_false,
        Option.some.injEq] at hUpdate
      exact .inl ⟨rfl, hUpdate.symm⟩
  | true =>
      simp only [hDirty, if_true] at hUpdate
      rcases Option.map_eq_some_iff.mp hUpdate with
        ⟨⟨u, key⟩, hUnzip, hEnd⟩
      refine .inr ⟨u, key, rfl, hUnzip, ?_⟩
      simp only at hEnd
      split at hEnd
      case h_1 shader hFound =>
        exact .inl ⟨shader, hFound, hEnd.symm⟩
      case h_2 hNone => exact .inr ⟨hNone, hEnd.symm⟩

theorem updateVertexShader_cases
    (hUpdate : s.updateVertexShader xxh64Words = some t) :
    (s.vertexShaderDirty = false ∧ t = s) ∨
      (s.vertexShaderDirty = true ∧
        ((∃ shader,
            s.vertexShaderCache (s.vertexKey xxh64Words) =
                some shader ∧
              t =
                { s with
                  vertexShaderDirty := false
                  vertexShader := some shader }) ∨
          (s.vertexShaderCache (s.vertexKey xxh64Words) =
              none ∧
            t =
              { s with
                vertexShaderDirty := false
                vertexShaderCache :=
                  Function.update s.vertexShaderCache
                    (s.vertexKey xxh64Words)
                    (some s.vertexGenerator)
                vertexShader := some s.vertexGenerator }))) := by
  rw [updateVertexShader] at hUpdate
  cases hDirty : s.vertexShaderDirty with
  | false =>
      simp only [hDirty, Bool.false_eq_true, if_false,
        Option.some.injEq] at hUpdate
      exact .inl ⟨rfl, hUpdate.symm⟩
  | true =>
      simp only [hDirty, if_true] at hUpdate
      refine .inr ⟨rfl, ?_⟩
      split at hUpdate
      case h_1 shader hFound =>
        exact
          .inl ⟨shader, hFound, (Option.some.inj hUpdate).symm⟩
      case h_2 hNone =>
        split at hUpdate
        case isTrue =>
          exact .inr ⟨hNone, (Option.some.inj hUpdate).symm⟩
        case isFalse => cases hUpdate

/- An update works on the fragment part, then on the other. -/
theorem updateShaders_cases
    (hUpdate :
      s.updateShaders xxh64 xxh64Words = some t) :
    ∃ m,
      s.updateFragmentShader xxh64 = some m ∧
        m.updateVertexShader xxh64Words = some t :=
  Option.bind_eq_some_iff.mp hUpdate

end RsxContext

end Rsx

end Ps3emu
