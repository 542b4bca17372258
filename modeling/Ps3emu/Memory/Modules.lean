import Mathlib.Algebra.Group.Nat.Defs
import Mathlib.Data.List.Pairwise
import Mathlib.Data.List.Sort
import Ps3emu.Library.Arrangement
import Ps3emu.Library.Transition

/-
  The segments of the main program and of the modules that a
  process loads and unloads: `Process::loadPrx`, with the
  addresses at which `ELFLoader::map` puts segments, and
  `sys_prx_unload_module` and `sys_prx_get_module_list`, which
  go by the positions of segments in the list.

  Key definitions include:
    * `Elf.map`, `EmuProcess.loadPrx`
    * `EmuProcess.unloadModule`, `EmuProcess.getModuleList`
    * `Loaded.after`, `EmuProcess.Placed`, `EmuProcess.Answers`
    * `EmuProcess.Sound`

  Key theorems include:
    * `EmuProcess.keepsPlacement_of_sound`
-/

------------------------------------------------------------
-- Images
------------------------------------------------------------

namespace Ps3emu

/- An area of the configuration for a module of the system. -/
structure SysPrxInfo where
  name : String
  imageBase : Nat
  size : Nat
deriving DecidableEq

inductive SegmentType where
  | load
  | tls
  | other
deriving DecidableEq

structure ProgramHeader where
  type : SegmentType
  vaddr : Nat
  memsz : Nat
deriving DecidableEq

/- A file, under the last part of its path. -/
structure Elf where
  filename : String
  pheaders : List ProgramHeader
deriving DecidableEq

structure MappedSegment where
  va : Nat
  size : Nat
  index : Nat
deriving DecidableEq

def alignUp (value alignment : Nat) : Nat :=
  (value + alignment - 1) / alignment * alignment

namespace Elf

/-
  The address of a segment.  The second one of a module comes
  after the first one.
-/
def segmentVa
    (elf : Elf)
    (imageBase index : Nat)
    (ph : ProgramHeader) : Nat :=
  match elf.pheaders with
  | ph0 :: _ =>
      if imageBase ≠ 0 ∧ index = 1 then
        alignUp (imageBase + ph0.vaddr + ph0.memsz) 0x10000
      else imageBase + ph.vaddr
  | [] => imageBase + ph.vaddr

/- The loop over the program headers from `index` on. -/
def mapFrom
    (elf : Elf)
    (imageBase : Nat) :
    Nat → List ProgramHeader → Option (List MappedSegment)
  | _, [] => some []
  | index, ph :: rest =>
      if ph.type = .other ∨ ph.memsz = 0 then
        mapFrom elf imageBase (index + 1) rest
      else if imageBase ≠ 0 ∧ index = 1 ∧
          elf.pheaders.length ≠ 3 then none
      else
        (mapFrom elf imageBase (index + 1) rest).map
          (fun mapped =>
            if ph.type = .tls then mapped
            else
              ⟨elf.segmentVa imageBase index ph % 2 ^ 32,
                ph.memsz % 2 ^ 32, index⟩ :: mapped)

def map
    (elf : Elf)
    (imageBase : Nat) : Option (List MappedSegment) :=
  elf.mapFrom imageBase 0 elf.pheaders

end Elf

------------------------------------------------------------
-- Processes
------------------------------------------------------------

/- A file that has been loaded: the how-many-th, and which. -/
structure Prx where
  number : Nat
  elf : Elf
deriving DecidableEq

structure ModuleSegment where
  prx : Prx
  index : Nat
  va : Nat
  size : Nat
deriving DecidableEq

/- `_segments`, and the number of files in `_prxs`. -/
structure EmuProcess where
  segments : List ModuleSegment
  prxs : Nat
deriving DecidableEq

namespace ModuleSegment

def last (s : ModuleSegment) : Nat :=
  s.va + s.size

def ofMapped (prx : Prx) (m : MappedSegment) : ModuleSegment where
  prx := prx
  index := m.index
  va := m.va
  size := m.size

def Apart (a b : ModuleSegment) : Prop :=
  a.last ≤ b.va ∨ b.last ≤ a.va

/- The segment keeps out of a configured area. -/
def Avoids
    (s : ModuleSegment)
    (info : SysPrxInfo) : Prop :=
  s.last ≤ info.imageBase ∨
    info.imageBase + info.size ≤ s.va

instance (a b : ModuleSegment) : Decidable (a.Apart b) :=
  inferInstanceAs (Decidable (_ ∨ _))

instance (s : ModuleSegment) (info : SysPrxInfo) :
    Decidable (s.Avoids info) :=
  inferInstanceAs (Decidable (_ ∨ _))

end ModuleSegment

/-
  `push_back` and `inplace_merge`: the new segment comes after
  those with the same or a lower address.
-/
def insertSegment
    (segments : List ModuleSegment)
    (s : ModuleSegment) : List ModuleSegment :=
  segments.orderedInsert (fun a b => a.va < b.va) s

def getSysPrxInfo
    (infos : List SysPrxInfo)
    (filename : String) : Option SysPrxInfo :=
  infos.find? (fun info => info.name = filename)

namespace EmuProcess

variable (infos : List SysPrxInfo)

def mapSegments
    (s : EmuProcess)
    (elf : Elf)
    (imageBase : Nat) : Option EmuProcess :=
  (elf.map imageBase).map (fun mapped =>
    { segments :=
        (mapped.map (ModuleSegment.ofMapped ⟨s.prxs, elf⟩)).foldl
          insertSegment s.segments
      prxs := s.prxs + 1 })

/-
  The main program, which must end before the lowest of the
  configured areas.
-/
def init (elf : Elf) : Option EmuProcess :=
  (mapSegments ⟨[], 0⟩ elf 0).bind (fun s =>
    if infos = [] then some s
    else
      s.segments.getLast?.bind (fun back =>
        if ∀ info ∈ infos,
            (back.va + back.size) % 2 ^ 32 < info.imageBase
        then some s
        else none))

/- Where a module without an area of its own goes. -/
def freeBase (s : EmuProcess) : Option Nat :=
  s.segments.getLast?.map (fun lastSegment =>
    let available :=
      (lastSegment.va + lastSegment.size) % 2 ^ 32
    let available :=
      match infos.getLast? with
      | none => available
      | some lastInfo =>
          max available
            ((lastInfo.imageBase + lastInfo.size) % 2 ^ 32)
    alignUp available (2 ^ 10) % 2 ^ 32)

def loadPrx
    (s : EmuProcess)
    (elf : Elf) : Option (EmuProcess × Nat) :=
  if s.segments = [] then none
  else
    let imageBase :=
      match getSysPrxInfo infos elf.filename with
      | some info => some info.imageBase
      | none => s.freeBase infos
    imageBase.bind (fun imageBase =>
      (s.mapSegments elf imageBase).map (·, imageBase))

/- `Process::unloadSegment`. -/
def unloadSegment
    (segments : List ModuleSegment)
    (va : Nat) : Option (List ModuleSegment) :=
  if segments.any (fun s => s.va = va) then
    some (segments.eraseP (fun s => s.va = va))
  else none

/-
  The first segment at `id` goes, and the one that follows it
  in the list.
-/
def unloadModule
    (s : EmuProcess)
    (id : Nat) : Option EmuProcess :=
  match s.segments.dropWhile (fun seg => seg.va ≠ id) with
  | first :: second :: _ =>
      (unloadSegment s.segments first.va).bind
        (fun segments =>
          (unloadSegment segments second.va).map
            (fun segments => { s with segments := segments }))
  | _ => none

/-
  What the caller then reads: the first `out_count` words of
  its array `ids`.
-/
def getModuleList
    (s : EmuProcess)
    (ids : List Nat) : Option (List Nat) :=
  let outCount := s.segments.length / 2
  if ids.length < outCount ∨ outCount = 0 then none
  else
    ((List.range (outCount - 1)).mapM (fun i =>
      s.segments[(i + 1) * 2]?.map (·.va))).map (fun listed =>
        (listed ++ ids.drop (outCount - 1)).take outCount)

end EmuProcess

------------------------------------------------------------
-- Calls
------------------------------------------------------------

/- The calls, with what they return or store. -/
inductive ModuleEvent where
  | load (elf : Elf) (imageBase : Nat)
  | unload (id : Nat)
  | getModuleList (ids reported : List Nat)

def EmuProcess.step
    (infos : List SysPrxInfo)
    (s : EmuProcess) : ModuleEvent → EmuProcess → Prop
  | .load elf imageBase, t =>
      s.loadPrx infos elf = some (t, imageBase)
  | .unload id, t => s.unloadModule id = some t
  | .getModuleList ids reported, t =>
      t = s ∧ s.getModuleList ids = some reported

/- A file at the address at which it has been loaded. -/
structure Module where
  prx : Prx
  base : Nat
deriving DecidableEq

def Module.segments (m : Module) : List ModuleSegment :=
  ((m.prx.elf.map m.base).getD []).map
    (ModuleSegment.ofMapped m.prx)

/-
  The main program, the modules that have been loaded and not
  unloaded since, and how many files have been loaded.
-/
structure Loaded where
  main : Module
  others : List Module
  count : Nat

namespace Loaded

def modules (l : Loaded) : List Module :=
  l.main :: l.others

def start (elf : Elf) : Loaded where
  main := ⟨⟨0, elf⟩, 0⟩
  others := []
  count := 1

def step (l : Loaded) : ModuleEvent → Loaded
  | .load elf imageBase =>
      { l with
        others := l.others ++ [⟨⟨l.count, elf⟩, imageBase⟩]
        count := l.count + 1 }
  | .unload id =>
      { l with others := l.others.filter (·.base ≠ id) }
  | .getModuleList _ _ => l

def after (elf : Elf) (events : List ModuleEvent) : Loaded :=
  events.foldl step (start elf)

end Loaded

namespace EmuProcess

variable (infos : List SysPrxInfo)

/-
  The segments of the loaded modules, two by two, sorted and
  apart from each other and from the areas of other modules.
-/
structure Placed (l : Loaded) (s : EmuProcess) : Prop where
  sorted : s.segments.Pairwise (fun a b => a.va ≤ b.va)
  apart : s.segments.Pairwise ModuleSegment.Apart
  avoids :
    ∀ m ∈ l.modules, ∀ seg ∈ m.segments, ∀ info ∈ infos,
      info.name ≠ m.prx.elf.filename → seg.Avoids info
  adjacent :
    ∃ order : List Module, order.Perm l.modules ∧
      (∀ m ∈ order, m.segments.length = 2) ∧
      s.segments = order.flatMap Module.segments

/-
  Unloading removes the segments of one module, and the list
  has each of the modules once.
-/
def Answers
    (s : EmuProcess) : ModuleEvent → EmuProcess → Prop
  | .load _ _, _ => True
  | .unload id, t =>
      ∃ seg ∈ s.segments, seg.va = id ∧
        t.segments =
          s.segments.filter (fun other => other.prx ≠ seg.prx)
  | .getModuleList _ reported, _ =>
      ∀ seg ∈ s.segments,
        seg.prx.number ≠ 0 → seg.index = 0 →
          reported.count seg.va = 1

end EmuProcess

------------------------------------------------------------
-- Sound Calls
------------------------------------------------------------

/-
  The sizes of the two segments of a module as it is linked: at
  address zero, and with a third header that is not loaded.
-/
def Elf.sizes? (elf : Elf) : Option (Nat × Nat) :=
  match elf.pheaders with
  | [ph0, ph1, ph2] =>
      if ph0.type = .load ∧ ph0.vaddr = 0 ∧
          (0 < ph0.memsz ∧ ph0.memsz < 2 ^ 32) ∧
          ph1.type = .load ∧
          (0 < ph1.memsz ∧ ph1.memsz < 2 ^ 32) ∧
          (ph2.type ≠ .load ∨ ph2.memsz = 0) then
        some (ph0.memsz, ph1.memsz)
      else none
  | _ => none

/- The segments of a module of these sizes. -/
def Prx.first
    (prx : Prx)
    (base size0 : Nat) : ModuleSegment where
  prx := prx
  index := 0
  va := base
  size := size0

def Prx.second
    (prx : Prx)
    (base size0 size1 : Nat) : ModuleSegment where
  prx := prx
  index := 1
  va := alignUp (base + size0) 0x10000
  size := size1

/- The main program has two segments, in order. -/
def Elf.IsProgram (elf : Elf) : Prop :=
  ∃ m0 m1, elf.map 0 = some [m0, m1] ∧
    0 < m0.size ∧ 0 < m1.size ∧
    m0.va + m0.size ≤ m1.va ∧ m1.va + m1.size < 2 ^ 32

def SysPrxInfo.Apart (a b : SysPrxInfo) : Prop :=
  a.imageBase + a.size ≤ b.imageBase ∨
    b.imageBase + b.size ≤ a.imageBase

instance : Std.Symm SysPrxInfo.Apart where
  symm := fun _ _ hApart => hApart.symm

/- The areas of the configuration. -/
structure Configured (infos : List SysPrxInfo) : Prop where
  disjoint : infos.Pairwise SysPrxInfo.Apart
  bounded :
    ∀ info ∈ infos, info.imageBase + info.size ≤ 2 ^ 32

namespace EmuProcess

variable (infos : List SysPrxInfo)

/-
  The kilobyte boundary after the last segment and the area
  that is last in the configuration.
-/
def roomBase (s : EmuProcess) : Nat :=
  alignUp
    (max ((s.segments.getLast?.map (·.last)).getD 0)
      ((infos.getLast?.map
        (fun info => info.imageBase + info.size)).getD 0))
    (2 ^ 10)

/- Loads after which everything is in its place. -/
def SoundLoad
    (s : EmuProcess)
    (elf : Elf) : Prop :=
  ∃ size0 size1, elf.sizes? = some (size0, size1) ∧
    match getSysPrxInfo infos elf.filename with
    | some info =>
        -- it fits its area, is not loaded, and does not part
        -- the segments of a module
        (Prx.second ⟨s.prxs, elf⟩ info.imageBase size0
            size1).last ≤ info.imageBase + info.size ∧
          (∀ seg ∈ s.segments, seg.prx.number ≠ 0 →
            seg.prx.elf.filename ≠ elf.filename) ∧
          ∀ a ∈ s.segments, ∀ b ∈ s.segments,
            a.prx = b.prx →
              ¬ (a.va < info.imageBase ∧
                info.imageBase < b.va)
    | none =>
        -- the room that it takes is no module's area
        let first :=
          Prx.first ⟨s.prxs, elf⟩ (s.roomBase infos) size0
        let second :=
          Prx.second ⟨s.prxs, elf⟩ (s.roomBase infos) size0
            size1
        second.last ≤ 2 ^ 32 ∧
          ∀ info ∈ infos,
            first.Avoids info ∧ second.Avoids info

/-
  A module is unloaded by its own address, and the word after
  the addresses listed is not that of a module.
-/
def Sound (s : EmuProcess) : ModuleEvent → EmuProcess → Prop
  | .load elf _, _ => s.SoundLoad infos elf
  | .unload id, _ =>
      ∃ seg ∈ s.segments,
        seg.prx.number ≠ 0 ∧ seg.index = 0 ∧ seg.va = id
  | .getModuleList ids _, _ =>
      ∀ seg ∈ s.segments,
        seg.prx.number ≠ 0 → seg.index = 0 →
          ids[s.segments.length / 2 - 1]? ≠ some seg.va

/-
  In every state that the calls lead to the segments are in
  their place, and every call does what it should.
-/
def KeepsPlacement
    (elf : Elf)
    (start : EmuProcess)
    (events : List ModuleEvent) : Prop :=
  Transition.EveryState (step infos)
      (fun before s => Placed infos (Loaded.after elf before) s)
      start events ∧
    Transition.EveryStep (step infos) Answers start events

end EmuProcess

------------------------------------------------------------
-- Where Segments Go
------------------------------------------------------------

theorem le_alignUp
    (value : Nat)
    {alignment : Nat}
    (hPositive : 0 < alignment) :
    value ≤ alignUp value alignment := by
  have hDiv :=
    Nat.lt_div_mul_add hPositive (a := value + alignment - 1)
  unfold alignUp
  omega

/- The loop at a segment that is loaded. -/
theorem Elf.mapFrom_load
    {elf : Elf}
    {base index : Nat}
    {ph : ProgramHeader}
    {rest : List ProgramHeader}
    (hLoad : ph.type = .load)
    (hSize : 0 < ph.memsz)
    (hCount : elf.pheaders.length = 3) :
    elf.mapFrom base index (ph :: rest) =
      (elf.mapFrom base (index + 1) rest).map
        (⟨elf.segmentVa base index ph % 2 ^ 32,
          ph.memsz % 2 ^ 32, index⟩ :: ·) := by
  rw [mapFrom, if_neg, if_neg]
  · simp only [hLoad]
    rfl
  · simp only [hCount, ne_eq, not_true_eq_false, and_false,
      not_false_eq_true]
  · simp only [hLoad, reduceCtorEq, false_or]
    omega

theorem Elf.pos_of_sizes
    {elf : Elf}
    {size0 size1 : Nat}
    (hSizes : elf.sizes? = some (size0, size1)) :
    0 < size1 := by
  unfold sizes? at hSizes
  split at hSizes
  case h_2 => cases hSizes
  case h_1 ph0 ph1 ph2 hHeaders =>
    simp only [Option.ite_none_right_eq_some,
      Option.some.injEq, Prod.mk.injEq] at hSizes
    rcases hSizes with ⟨⟨-, -, -, -, hSize1, -⟩, -, rfl⟩
    exact hSize1.1

/- `map` puts a module's segments at its base and after it. -/
theorem Elf.map_of_sizes
    {elf : Elf}
    {base size0 size1 : Nat}
    (hSizes : elf.sizes? = some (size0, size1))
    (hBase : base ≠ 0)
    (hEnd :
      alignUp (base + size0) 0x10000 + size1 ≤ 2 ^ 32) :
    elf.map base =
        some
          [⟨base, size0, 0⟩,
            ⟨alignUp (base + size0) 0x10000, size1, 1⟩] ∧
      0 < size0 ∧ 0 < size1 := by
  unfold sizes? at hSizes
  split at hSizes
  case h_2 => cases hSizes
  case h_1 ph0 ph1 ph2 hHeaders =>
    simp only [Option.ite_none_right_eq_some,
      Option.some.injEq, Prod.mk.injEq] at hSizes
    rcases hSizes with
      ⟨⟨hLoad0, hVa0, hSize0, hLoad1, hSize1, hOther⟩, rfl,
        rfl⟩
    have hAlign :=
      @le_alignUp (base + ph0.memsz) 0x10000 (by omega)
    have hThird :
        elf.mapFrom base 2 [ph2] = some [] := by
      cases hType : ph2.type with
      | load =>
          have hEmpty : ph2.memsz = 0 := by
            simpa [hType] using hOther
          simp [mapFrom, hEmpty]
      | tls => simp [mapFrom, hType]
      | other => simp [mapFrom, hType]
    refine ⟨?_, hSize0.1, hSize1.1⟩
    have hVa :
        elf.segmentVa base 0 ph0 % 2 ^ 32 = base := by
      simp only [segmentVa, hHeaders, hVa0]
      rw [if_neg (by omega)]
      omega
    have hVa' :
        elf.segmentVa base 1 ph1 % 2 ^ 32 =
          alignUp (base + ph0.memsz) 0x10000 := by
      simp only [segmentVa, hHeaders, hVa0, Nat.add_zero]
      rw [if_pos ⟨hBase, trivial⟩]
      omega
    have hCount : elf.pheaders.length = 3 := by
      rw [hHeaders]
      rfl
    rw [map, hHeaders, mapFrom_load hLoad0 hSize0.1 hCount,
      mapFrom_load hLoad1 hSize1.1 hCount, hThird, hVa, hVa',
      Nat.mod_eq_of_lt hSize0.2, Nat.mod_eq_of_lt hSize1.2]
    rfl

------------------------------------------------------------
-- Pairs of Segments
------------------------------------------------------------

namespace Module

/- The two segments of a loaded module, or of the program. -/
structure HasPair
    (m : Module)
    (a b : ModuleSegment) : Prop where
  segments : m.segments = [a, b]
  prx0 : a.prx = m.prx
  prx1 : b.prx = m.prx
  size0 : 0 < a.size
  size1 : 0 < b.size
  apart : a.last ≤ b.va
  bounded : b.last ≤ 2 ^ 32
  linked :
    m.prx.number ≠ 0 →
      a.index = 0 ∧ b.index = 1 ∧ a.va = m.base

/- All of `m` lies below all of `n`. -/
def Below (m n : Module) : Prop :=
  ∀ a ∈ m.segments, ∀ b ∈ n.segments, a.last ≤ b.va

variable {m n : Module} {a b : ModuleSegment}

section

variable (hPair : m.HasPair a b)

include hPair

theorem HasPair.forall_mem
    {P : ModuleSegment → Prop}
    (h0 : P a)
    (h1 : P b) :
    ∀ seg ∈ m.segments, P seg := by
  rw [hPair.segments]
  exact
    List.forall_mem_cons.mpr
      ⟨h0, List.forall_mem_singleton.mpr h1⟩

theorem HasPair.mem0 :
    a ∈ m.segments := by
  simp [hPair.segments]

theorem HasPair.mem1 :
    b ∈ m.segments := by
  simp [hPair.segments]

/- A module lies below what its second segment lies below. -/
theorem HasPair.last_le
    {bound : Nat}
    (hLast : b.last ≤ bound) :
    ∀ seg ∈ m.segments, seg.last ≤ bound := by
  refine hPair.forall_mem ?_ hLast
  have hApart := hPair.apart
  unfold ModuleSegment.last at hLast hApart ⊢
  omega

theorem HasPair.le_va
    {bound : Nat}
    (hVa : bound ≤ a.va) :
    ∀ seg ∈ m.segments, bound ≤ seg.va := by
  refine hPair.forall_mem hVa ?_
  have hApart := hPair.apart
  unfold ModuleSegment.last at hApart
  omega

end

/- The segments of a module that is loaded at `base`. -/
theorem hasPair_of_sizes
    {prx : Prx}
    {base size0 size1 : Nat}
    (hSizes : prx.elf.sizes? = some (size0, size1))
    (hBase : base ≠ 0)
    (hEnd : (prx.second base size0 size1).last ≤ 2 ^ 32) :
    HasPair ⟨prx, base⟩ (prx.first base size0)
      (prx.second base size0 size1) := by
  rcases Elf.map_of_sizes hSizes hBase hEnd with
    ⟨hMap, hSize0, hSize1⟩
  exact
    { segments := by
        simp only [segments, hMap]
        rfl
      prx0 := rfl
      prx1 := rfl
      size0 := hSize0
      size1 := hSize1
      apart := le_alignUp (base + size0) (by omega)
      bounded := hEnd
      linked := fun _ => ⟨rfl, rfl, rfl⟩ }

end Module

/- Segments of pairs that are in order are in order. -/
theorem pairwise_flatMap_segments
    {order : List Module}
    (hPairs : ∀ m ∈ order, ∃ a b, m.HasPair a b)
    (hBelow : order.Pairwise Module.Below) :
    (order.flatMap Module.segments).Pairwise (fun a b =>
      0 < a.size ∧ 0 < b.size ∧ a.last ≤ b.va) := by
  have hSizes :
      ∀ m ∈ order, ∀ seg ∈ m.segments, 0 < seg.size := by
    intro m hm
    rcases hPairs m hm with ⟨a, b, hPair⟩
    exact hPair.forall_mem hPair.size0 hPair.size1
  refine List.pairwise_flatMap.mpr ⟨?_, ?_⟩
  · intro m hm
    rcases hPairs m hm with ⟨a, b, hPair⟩
    rw [hPair.segments]
    simp [hPair.size0, hPair.size1, hPair.apart]
  · refine hBelow.imp_of_mem ?_
    intro m n hm hn hBelow a ha b hb
    exact ⟨hSizes m hm a ha, hSizes n hn b hb, hBelow a ha b hb⟩

/- The two segments of a module go where the module goes. -/
theorem insertSegment_pair
    {before after : List Module}
    {m : Module}
    {a b : ModuleSegment}
    (hPair : m.HasPair a b)
    (hBefore : ∀ x ∈ before, x.Below m)
    (hAfter : ∀ x ∈ after, m.Below x) :
    insertSegment
        (insertSegment
          ((before ++ after).flatMap Module.segments) a) b =
      (before ++ m :: after).flatMap Module.segments := by
  have hSize0 := hPair.size0
  have hSize1 := hPair.size1
  have hApart := hPair.apart
  have hLow :
      ∀ c ∈ before.flatMap Module.segments, c.last ≤ a.va := by
    intro c hc
    rcases List.mem_flatMap.mp hc with ⟨x, hx, hMem⟩
    exact hBefore x hx c hMem a hPair.mem0
  have hHigh :
      ∀ c ∈ after.flatMap Module.segments, b.last ≤ c.va := by
    intro c hc
    rcases List.mem_flatMap.mp hc with ⟨x, hx, hMem⟩
    exact hAfter x hx b hPair.mem1 c hMem
  unfold ModuleSegment.last at hApart hLow hHigh
  have hFirst :
      insertSegment
          ((before ++ after).flatMap Module.segments) a =
        before.flatMap Module.segments ++
          a :: after.flatMap Module.segments := by
    rw [List.flatMap_append]
    refine Arrangement.orderedInsert_between _ ?_ ?_
    · intro c hc
      have hc' := hLow c hc
      omega
    · intro c hc
      have hc' := hHigh c hc
      omega
  have hSecond :
      insertSegment
          ((before.flatMap Module.segments ++ [a]) ++
            after.flatMap Module.segments) b =
        (before.flatMap Module.segments ++ [a]) ++
          b :: after.flatMap Module.segments := by
    refine Arrangement.orderedInsert_between _ ?_ ?_
    · intro c hc
      rcases List.mem_append.mp hc with hOld | hNew
      · have hc' := hLow c hOld
        omega
      · obtain rfl := List.mem_singleton.mp hNew
        omega
    · intro c hc
      have hc' := hHigh c hc
      omega
  rw [hFirst]
  simpa [hPair.segments] using hSecond

------------------------------------------------------------
-- Arrangements
------------------------------------------------------------

namespace EmuProcess

/- The loaded modules, in the order of their addresses. -/
structure Arranged
    (infos : List SysPrxInfo)
    (l : Loaded)
    (s : EmuProcess)
    (order : List Module) : Prop where
  perm : order.Perm l.modules
  segments : s.segments = order.flatMap Module.segments
  head : order.head? = some l.main
  pairs : ∀ m ∈ order, ∃ a b, m.HasPair a b
  below : order.Pairwise Module.Below
  numbers : (order.map (·.prx.number)).Nodup
  fresh : ∀ m ∈ order, m.prx.number < l.count
  main : l.main.prx.number = 0
  count : s.prxs = l.count
  avoids :
    ∀ m ∈ order, ∀ seg ∈ m.segments, ∀ info ∈ infos,
      info.name ≠ m.prx.elf.filename → seg.Avoids info
  low :
    ∀ info ∈ infos, ∀ seg ∈ l.main.segments,
      seg.last < info.imageBase

variable {infos : List SysPrxInfo} {l : Loaded} {s t : EmuProcess}
variable {order before after : List Module}
variable {m : Module} {a b : ModuleSegment}

namespace Arranged

variable (hArranged : Arranged infos l s order)

include hArranged

theorem mem_segments
    {seg : ModuleSegment} :
    seg ∈ s.segments ↔ ∃ m ∈ order, seg ∈ m.segments := by
  rw [hArranged.segments, List.mem_flatMap]

theorem pairwise :
    s.segments.Pairwise (fun a b =>
      0 < a.size ∧ 0 < b.size ∧ a.last ≤ b.va) := by
  rw [hArranged.segments]
  exact
    pairwise_flatMap_segments hArranged.pairs hArranged.below

/- A segment knows its module. -/
theorem prx_of_mem
    (hm : m ∈ order)
    {seg : ModuleSegment}
    (hSeg : seg ∈ m.segments) :
    seg.prx = m.prx := by
  rcases hArranged.pairs m hm with ⟨a, b, hPair⟩
  have hAll : ∀ seg ∈ m.segments, seg.prx = m.prx :=
    hPair.forall_mem hPair.prx0 hPair.prx1
  exact hAll seg hSeg

theorem eq_of_number
    {n : Module}
    (hm : m ∈ order)
    (hn : n ∈ order)
    (hNumber : m.prx.number = n.prx.number) :
    m = n :=
  List.inj_on_of_nodup_map hArranged.numbers hm hn hNumber

theorem main_mem :
    l.main ∈ order :=
  List.mem_of_head? hArranged.head

/- The program comes first, and has the number zero. -/
theorem eq_cons :
    ∃ rest, order = l.main :: rest ∧
      ∀ m ∈ rest, m.prx.number ≠ 0 := by
  have hHead := hArranged.head
  have hNumbers := hArranged.numbers
  cases order with
  | nil => cases hHead
  | cons first rest =>
      obtain rfl : first = l.main := Option.some.inj hHead
      rw [List.map_cons, List.nodup_cons] at hNumbers
      refine ⟨rest, rfl, ?_⟩
      intro m hm hZero
      refine hNumbers.1 (List.mem_map.mpr ⟨m, hm, ?_⟩)
      rw [hZero, hArranged.main]

theorem others_number
    (hm : m ∈ l.others) :
    m.prx.number ≠ 0 := by
  rcases hArranged.eq_cons with ⟨rest, hOrder, hNumbers⟩
  have hPerm := hArranged.perm
  rw [hOrder] at hPerm
  exact hNumbers m ((List.Perm.cons_inv hPerm).mem_iff.mpr hm)

theorem placed :
    Placed infos l s where
  sorted := by
    refine hArranged.pairwise.imp ?_
    rintro a b ⟨-, -, hLast⟩
    unfold ModuleSegment.last at hLast
    omega
  apart := hArranged.pairwise.imp (fun h => .inl h.2.2)
  avoids := fun m hm =>
    hArranged.avoids m (hArranged.perm.mem_iff.mpr hm)
  adjacent := by
    refine
      ⟨order, hArranged.perm, ?_, hArranged.segments⟩
    intro m hm
    rcases hArranged.pairs m hm with ⟨a, b, hPair⟩
    rw [hPair.segments]
    rfl

/- The module whose first segment is at `id`. -/
theorem module_of_sound
    {seg : ModuleSegment}
    (hSeg : seg ∈ s.segments)
    (hNumber : seg.prx.number ≠ 0)
    (hIndex : seg.index = 0) :
    ∃ m ∈ order, ∃ b, m.HasPair seg b ∧
      m.prx.number ≠ 0 ∧ m.base = seg.va := by
  rcases hArranged.mem_segments.mp hSeg with ⟨m, hm, hMem⟩
  rw [hArranged.prx_of_mem hm hMem] at hNumber
  rcases hArranged.pairs m hm with ⟨a, b, hPair⟩
  have hLinked := hPair.linked hNumber
  rw [hPair.segments, List.mem_pair] at hMem
  rcases hMem with rfl | rfl
  · exact ⟨m, hm, b, hPair, hNumber, hLinked.2.2.symm⟩
  · rw [hLinked.2.1] at hIndex
    cases hIndex

end Arranged

------------------------------------------------------------
-- Unloading
------------------------------------------------------------

theorem unloadSegment_between
    {c : ModuleSegment}
    {l₁ l₂ : List ModuleSegment}
    (hBefore : ∀ x ∈ l₁, x.va ≠ c.va) :
    unloadSegment (l₁ ++ c :: l₂) c.va = some (l₁ ++ l₂) := by
  have hErase :
      (l₁ ++ c :: l₂).eraseP (fun s => s.va = c.va) =
        l₁ ++ l₂ :=
    Arrangement.eraseP_between
      (fun x hx => by simp [hBefore x hx]) (by simp)
  simp [unloadSegment, hErase]

/- The pair at a module's address is what `unload` removes. -/
theorem unloadModule_pair
    {l₁ l₂ : List ModuleSegment}
    (hSegments : s.segments = l₁ ++ a :: b :: l₂)
    (hBefore : ∀ x ∈ l₁, x.va ≠ a.va ∧ x.va ≠ b.va) :
    s.unloadModule a.va =
      some { s with segments := l₁ ++ l₂ } := by
  have hFound :
      s.segments.dropWhile (fun seg => seg.va ≠ a.va) =
        a :: b :: l₂ := by
    rw [hSegments]
    exact
      Arrangement.dropWhile_group
        (fun x hx => by simp [(hBefore x hx).1]) (by simp)
  simp only [unloadModule, hFound]
  rw [hSegments,
    unloadSegment_between (fun x hx => (hBefore x hx).1),
    Option.bind_some,
    unloadSegment_between (fun x hx => (hBefore x hx).2)]
  rfl

namespace Arranged

section

variable (hArranged : Arranged infos l s (before ++ m :: after))

include hArranged

/- The module at an address, and those around it. -/
theorem split_at
    (hPair : m.HasPair a b) :
    s.segments =
        before.flatMap Module.segments ++
          a :: b :: after.flatMap Module.segments ∧
      (∀ c ∈ before.flatMap Module.segments,
        c.va < a.va ∧ c.va < b.va) ∧
      ∀ c ∈ after.flatMap Module.segments, a.va < c.va := by
  have hSegments :
      s.segments =
        before.flatMap Module.segments ++
          a :: b :: after.flatMap Module.segments := by
    rw [hArranged.segments, List.flatMap_append,
      List.flatMap_cons, hPair.segments]
    rfl
  have hPairwise := hArranged.pairwise
  rw [hSegments, List.pairwise_append, List.pairwise_cons]
    at hPairwise
  rcases hPairwise with ⟨-, ⟨hFirst, -⟩, hAcross⟩
  unfold ModuleSegment.last at hFirst hAcross
  refine ⟨hSegments, ?_, ?_⟩
  · intro c hc
    have hA := hAcross c hc a List.mem_cons_self
    have hB :=
      hAcross c hc b (List.mem_cons_of_mem _ List.mem_cons_self)
    omega
  · intro c hc
    have hA := hFirst c (List.mem_cons_of_mem _ hc)
    omega

/- Only the module itself is at its address. -/
theorem base_ne
    (hPair : m.HasPair a b)
    (hBase : m.base = a.va) :
    ∀ x ∈ before ++ after, x.prx.number ≠ 0 →
      x.base ≠ m.base := by
  rcases hArranged.split_at hPair with ⟨-, hBefore, hAfter⟩
  intro x hx hNumber hEq
  have hMem : x ∈ before ++ m :: after := by
    rcases List.mem_append.mp hx with hOld | hNew
    · exact List.mem_append_left _ hOld
    · exact
        List.mem_append_right _ (List.mem_cons_of_mem _ hNew)
  rcases hArranged.pairs x hMem with ⟨c, d, hOther⟩
  have hVa := (hOther.linked hNumber).2.2
  rcases List.mem_append.mp hx with hOld | hNew
  · have hLt :=
      (hBefore c
        (List.mem_flatMap.mpr ⟨x, hOld, hOther.mem0⟩)).1
    omega
  · have hLt :=
      hAfter c (List.mem_flatMap.mpr ⟨x, hNew, hOther.mem0⟩)
    omega

/- What is left is what has another number. -/
theorem filter_prx :
    s.segments.filter (fun seg => seg.prx ≠ m.prx) =
      (before ++ after).flatMap Module.segments := by
  have hNumbers := hArranged.numbers
  rw [List.map_append, List.map_cons, List.nodup_middle,
    List.nodup_cons, ← List.map_append] at hNumbers
  have hKept :
      ∀ x ∈ before ++ after,
        x.segments.filter (fun seg => seg.prx ≠ m.prx) =
          x.segments := by
    intro x hx
    have hMem : x ∈ before ++ m :: after := by
      rw [List.mem_append] at hx
      rw [List.mem_append, List.mem_cons]
      exact hx.imp_right .inr
    refine List.filter_eq_self.mpr ?_
    intro seg hSeg
    rw [hArranged.prx_of_mem hMem hSeg]
    refine decide_eq_true ?_
    intro hEq
    exact
      hNumbers.1
        (List.mem_map.mpr ⟨x, hx, congrArg Prx.number hEq⟩)
  have hGone :
      m.segments.filter (fun seg => seg.prx ≠ m.prx) = [] := by
    refine List.filter_eq_nil_iff.mpr ?_
    intro seg hSeg
    simp [hArranged.prx_of_mem
      (List.mem_append_right _ List.mem_cons_self) hSeg]
  rw [hArranged.segments, List.filter_flatMap,
    List.flatMap_append, List.flatMap_cons, hGone,
    List.nil_append, ← List.flatMap_append]
  exact List.flatMap_congr hKept

/- The loaded modules are those that are left. -/
theorem perm_unload
    (hPair : m.HasPair a b)
    (hNumber : m.prx.number ≠ 0)
    (hBase : m.base = a.va) :
    (before ++ after).Perm
      (l.step (.unload a.va)).modules := by
  let kept : Module → Bool :=
    fun x => x.prx.number = 0 ∨ x.base ≠ a.va
  have hLeft :
      (before ++ m :: after).filter kept = before ++ after := by
    have hEach : ∀ x ∈ before ++ after, kept x = true := by
      intro x hx
      by_cases hZero : x.prx.number = 0
      · simp [kept, hZero]
      · have hNe := hArranged.base_ne hPair hBase x hx hZero
        rw [hBase] at hNe
        simp [kept, hNe]
    rw [List.filter_append,
      List.filter_cons_of_neg (by simp [kept, hNumber, hBase]),
      ← List.filter_append, List.filter_eq_self.mpr hEach]
  have hRight :
      l.modules.filter kept =
        (l.step (.unload a.va)).modules := by
    have hSame :
        l.others.filter kept =
          l.others.filter (·.base ≠ a.va) := by
      refine List.filter_congr ?_
      intro x hx
      simp [kept, hArranged.others_number hx]
    rw [Loaded.modules,
      List.filter_cons_of_pos (by simp [kept, hArranged.main]),
      hSame]
    rfl
  rw [← hLeft, ← hRight]
  exact hArranged.perm.filter kept

theorem unload
    (hPair : m.HasPair a b)
    (hNumber : m.prx.number ≠ 0)
    (hBase : m.base = a.va) :
    Arranged infos (l.step (.unload a.va))
      { s with
        segments :=
          (before ++ after).flatMap Module.segments }
      (before ++ after) := by
  have hSub :
      (before ++ after).Sublist (before ++ m :: after) :=
    (List.sublist_cons_self m after).append_left before
  exact
    { perm := hArranged.perm_unload hPair hNumber hBase
      segments := rfl
      head := by
        have hHead := hArranged.head
        cases before with
        | nil =>
            obtain rfl : m = l.main := Option.some.inj hHead
            exact absurd hArranged.main hNumber
        | cons x before => exact hHead
      pairs := fun x hx => hArranged.pairs x (hSub.subset hx)
      below := hArranged.below.sublist hSub
      numbers := hArranged.numbers.sublist (hSub.map _)
      fresh := fun x hx => hArranged.fresh x (hSub.subset hx)
      main := hArranged.main
      count := hArranged.count
      avoids := fun x hx =>
        hArranged.avoids x (hSub.subset hx)
      low := hArranged.low }

end

/- Unloading by the address of a module. -/
theorem unload_step
    (hArranged : Arranged infos l s order)
    {id : Nat}
    (hSound : Sound infos s (.unload id) t)
    (hStep : s.unloadModule id = some t) :
    (∃ order', Arranged infos (l.step (.unload id)) t order') ∧
      Answers s (.unload id) t := by
  rcases hSound with ⟨seg, hSeg, hNumber, hIndex, rfl⟩
  rcases hArranged.module_of_sound hSeg hNumber hIndex with
    ⟨m, hm, b, hPair, hNumber', hBase⟩
  rcases List.append_of_mem hm with ⟨before, after, rfl⟩
  rcases hArranged.split_at hPair with
    ⟨hSegments, hBefore, -⟩
  have hUnload :=
    unloadModule_pair hSegments (fun x hx =>
      ⟨Nat.ne_of_lt (hBefore x hx).1,
        Nat.ne_of_lt (hBefore x hx).2⟩)
  rw [← List.flatMap_append, hStep, Option.some.injEq]
    at hUnload
  subst hUnload
  refine
    ⟨⟨_, hArranged.unload hPair hNumber' hBase⟩, seg, hSeg, rfl,
      ?_⟩
  rw [hPair.prx0]
  exact hArranged.filter_prx.symm

end Arranged

------------------------------------------------------------
-- Listing
------------------------------------------------------------

namespace Arranged

/- The addresses of all modules but the program's. -/
theorem listed
    {rest : List Module}
    (hArranged : Arranged infos l s (l.main :: rest)) :
    ∃ g : Module → Nat,
      (∀ m ∈ rest, ∃ a b, m.HasPair a b ∧ g m = a.va) ∧
        s.segments.length / 2 = rest.length + 1 ∧
        (List.range (s.segments.length / 2 - 1)).mapM (fun i =>
          s.segments[(i + 1) * 2]?.map (·.va)) =
            some (rest.map g) := by
  have hLengths :
      ∀ m ∈ l.main :: rest, m.segments.length = 2 := by
    intro m hm
    rcases hArranged.pairs m hm with ⟨a, b, hPair⟩
    rw [hPair.segments]
    rfl
  have hLength :
      s.segments.length / 2 = rest.length + 1 := by
    rw [hArranged.segments,
      Arrangement.length_flatMap _ hLengths, List.length_cons]
    omega
  refine
    ⟨fun m => (m.segments[0]?.map (·.va)).getD 0, ?_, hLength,
      ?_⟩
  · intro m hm
    rcases hArranged.pairs m (List.mem_cons_of_mem _ hm) with
      ⟨a, b, hPair⟩
    exact ⟨a, b, hPair, by simp [hPair.segments]⟩
  · have hEach :
        ∀ i ∈ List.range (s.segments.length / 2 - 1),
          s.segments[(i + 1) * 2]?.map (·.va) =
            some
              ((rest[i]?.map (fun m =>
                (m.segments[0]?.map (·.va)).getD 0)).getD 0) := by
      intro i hi
      have hi' : i < rest.length := by
        rw [List.mem_range, hLength] at hi
        omega
      have hIndex :=
        Arrangement.getElem?_flatMap Module.segments hLengths
          (i + 1) (show 0 < 2 by omega)
      rw [Nat.add_zero, List.getElem?_cons_succ,
        List.getElem?_eq_getElem hi', Option.bind_some]
        at hIndex
      rcases hArranged.pairs rest[i]
          (List.mem_cons_of_mem _ (List.getElem_mem hi')) with
        ⟨a, b, hPair⟩
      rw [hArranged.segments, hIndex,
        List.getElem?_eq_getElem hi', hPair.segments]
      simp [hPair.segments]
    rw [Arrangement.mapM_eq_some_map hEach, Option.some.injEq,
      hLength, Nat.add_sub_cancel]
    refine List.ext_getElem (by simp) ?_
    intro i hi hi'
    simp only [List.length_map] at hi'
    simp [hi']

theorem nodup_listed
    {rest : List Module}
    {g : Module → Nat}
    (hArranged : Arranged infos l s (l.main :: rest))
    (hFirst : ∀ m ∈ rest, ∃ a b, m.HasPair a b ∧ g m = a.va) :
    (rest.map g).Nodup := by
  have hBelow := (List.pairwise_cons.mp hArranged.below).2
  refine List.pairwise_map.mpr (hBelow.imp_of_mem ?_)
  intro m n hm hn hLow
  rcases hFirst m hm with ⟨a, b, hPair, hA⟩
  rcases hFirst n hn with ⟨c, d, hPair', hC⟩
  have hLast := hLow a hPair.mem0 c hPair'.mem0
  have hSize := hPair.size0
  unfold ModuleSegment.last at hLast
  omega

/- The list has each module once. -/
theorem getModuleList_step
    (hArranged : Arranged infos l s order)
    {ids reported : List Nat}
    (hSound : Sound infos s (.getModuleList ids reported) t)
    (hList : s.getModuleList ids = some reported) :
    Answers s (.getModuleList ids reported) t := by
  rcases hArranged.eq_cons with ⟨rest, rfl, -⟩
  rcases hArranged.listed with ⟨g, hFirst, hLength, hListed⟩
  simp only [getModuleList, hListed, Option.map_some] at hList
  split at hList
  · cases hList
  · have hReported :
        reported =
          rest.map g ++ (ids.drop rest.length).take 1 := by
      rw [← Option.some.inj hList, hLength,
        Nat.add_sub_cancel, List.take_append,
        List.length_map, Nat.add_sub_cancel_left,
        List.take_of_length_le (by simp)]
    intro seg hSeg hNumber hIndex
    have hOther := hSound seg hSeg hNumber hIndex
    rw [hLength, Nat.add_sub_cancel] at hOther
    have hAbsent :
        seg.va ∉ (ids.drop rest.length).take 1 := by
      intro hMem
      rw [List.take_one] at hMem
      cases hDrop : (ids.drop rest.length).head? with
      | none => simp [hDrop] at hMem
      | some v =>
          obtain rfl : seg.va = v := by simpa [hDrop] using hMem
          rw [List.head?_drop] at hDrop
          exact hOther hDrop
    rcases hArranged.module_of_sound hSeg hNumber hIndex with
      ⟨m, hm, b, hPair, hNumber', -⟩
    have hRest : m ∈ rest := by
      rcases List.mem_cons.mp hm with rfl | hRest
      · exact absurd hArranged.main hNumber'
      · exact hRest
    have hVa : g m = seg.va := by
      rcases hFirst m hRest with ⟨c, d, hPair', hC⟩
      have hSame := hPair'.segments.symm.trans hPair.segments
      rw [hC, (List.cons.inj hSame).1]
    have hMem : seg.va ∈ rest.map g :=
      hVa ▸ List.mem_map_of_mem hRest
    rw [hReported, List.count_append,
      List.count_eq_one_of_mem
        (hArranged.nodup_listed hFirst) hMem,
      List.count_eq_zero_of_not_mem hAbsent]

end Arranged

------------------------------------------------------------
-- Loading
------------------------------------------------------------

theorem mapSegments_pair
    {elf : Elf}
    {base : Nat}
    (hPair : Module.HasPair ⟨⟨s.prxs, elf⟩, base⟩ a b) :
    s.mapSegments elf base =
      some
        { segments :=
            insertSegment (insertSegment s.segments a) b
          prxs := s.prxs + 1 } := by
  have hSegments := hPair.segments
  unfold Module.segments at hSegments
  cases hMap : elf.map base with
  | none => simp [hMap] at hSegments
  | some mapped =>
      rw [hMap, Option.getD_some] at hSegments
      rw [mapSegments, hMap, Option.map_some, hSegments]
      rfl

namespace Arranged

variable {elf : Elf} {base size0 size1 : Nat}

/- A module that goes between others. -/
theorem insert
    (hArranged : Arranged infos l s (before ++ after))
    (hPair : Module.HasPair ⟨⟨s.prxs, elf⟩, base⟩ a b)
    (hBefore :
      ∀ x ∈ before, x.Below ⟨⟨s.prxs, elf⟩, base⟩)
    (hAfter :
      ∀ x ∈ after, Module.Below ⟨⟨s.prxs, elf⟩, base⟩ x)
    (hMain : l.main ∈ before)
    (hAvoids :
      ∀ info ∈ infos, info.name ≠ elf.filename →
        a.Avoids info ∧ b.Avoids info)
    (hMap : s.mapSegments elf base = some t) :
    ∃ order',
      Arranged infos (l.step (.load elf base)) t order' := by
  rw [mapSegments_pair hPair, hArranged.segments,
    insertSegment_pair hPair hBefore hAfter] at hMap
  obtain rfl := Option.some.inj hMap
  have hPerm :
      (before ++ ⟨⟨s.prxs, elf⟩, base⟩ :: after).Perm
        (⟨⟨s.prxs, elf⟩, base⟩ :: (before ++ after)) :=
    List.perm_middle
  have hEach :
      ∀ P : Module → Prop,
        P ⟨⟨s.prxs, elf⟩, base⟩ →
          (∀ x ∈ before ++ after, P x) →
            ∀ x ∈ before ++ ⟨⟨s.prxs, elf⟩, base⟩ :: after,
              P x := by
    intro P hNew hOld x hx
    rcases List.mem_cons.mp (hPerm.mem_iff.mp hx) with
      rfl | hx
    · exact hNew
    · exact hOld x hx
  have hBelow := List.pairwise_append.mp hArranged.below
  refine ⟨before ++ ⟨⟨s.prxs, elf⟩, base⟩ :: after, ?_⟩
  exact
    { perm := by
        refine hPerm.trans ((hArranged.perm.cons _).trans ?_)
        rw [hArranged.count]
        exact
          (List.perm_append_singleton _ l.modules).symm
      segments := rfl
      head := by
        have hHead := hArranged.head
        cases before with
        | nil => cases hMain
        | cons x before => exact hHead
      pairs := hEach _ ⟨a, b, hPair⟩ hArranged.pairs
      below := by
        refine
          List.pairwise_append.mpr
            ⟨hBelow.1,
              List.pairwise_cons.mpr ⟨hAfter, hBelow.2.1⟩, ?_⟩
        intro x hx y hy
        rcases List.mem_cons.mp hy with rfl | hy
        · exact hBefore x hx
        · exact hBelow.2.2 x hx y hy
      numbers := by
        rw [(hPerm.map _).nodup_iff, List.map_cons,
          List.nodup_cons]
        refine ⟨?_, hArranged.numbers⟩
        intro hMem
        rcases List.mem_map.mp hMem with ⟨x, hx, hEq⟩
        have hLt := hArranged.fresh x hx
        have hCount := hArranged.count
        change x.prx.number = s.prxs at hEq
        omega
      fresh := by
        have hCount := hArranged.count
        refine
          hEach _ (show s.prxs < l.count + 1 by omega) ?_
        intro x hx
        exact Nat.lt_succ_of_lt (hArranged.fresh x hx)
      main := hArranged.main
      count := congrArg (· + 1) hArranged.count
      avoids := by
        refine hEach _ ?_ hArranged.avoids
        exact
          hPair.forall_mem
            (fun info hInfo hName =>
              (hAvoids info hInfo hName).1)
            (fun info hInfo hName =>
              (hAvoids info hInfo hName).2)
      low := hArranged.low }

variable (hArranged : Arranged infos l s order)

include hArranged

/- Where the memory in use ends. -/
theorem last_le_getLast :
    ∃ back,
      s.segments.getLast? = some back ∧
        back.last ≤ 2 ^ 32 ∧ 0 < back.last ∧
        ∀ seg ∈ s.segments, seg.last ≤ back.last := by
  have hPairwise := hArranged.pairwise
  rcases hArranged.pairs l.main hArranged.main_mem with
    ⟨a, b, hMain⟩
  have hMem : b ∈ s.segments :=
    hArranged.mem_segments.mpr
      ⟨l.main, hArranged.main_mem, hMain.mem1⟩
  rcases List.eq_nil_or_concat s.segments with
    hNil | ⟨init, back, hBack⟩
  · rw [hNil] at hMem
    cases hMem
  · rw [List.concat_eq_append] at hBack
    have hIn : back ∈ s.segments := by simp [hBack]
    rcases hArranged.mem_segments.mp hIn with ⟨m, hm, hSeg⟩
    rcases hArranged.pairs m hm with ⟨c, d, hPair⟩
    have hTop := hPair.last_le hPair.bounded back hSeg
    have hMost : ∀ seg ∈ s.segments, seg.last ≤ back.last := by
      rw [hBack, List.pairwise_append] at hPairwise
      intro seg hSeg
      rw [hBack, List.mem_append, List.mem_singleton] at hSeg
      rcases hSeg with hOld | rfl
      · have hLow :=
          (hPairwise.2.2 seg hOld back
            (List.mem_singleton_self back)).2.2
        unfold ModuleSegment.last at hLow ⊢
        omega
      · exact Nat.le_refl _
    have hPositive : 0 < b.last := by
      have hSize := hMain.size1
      unfold ModuleSegment.last
      omega
    exact
      ⟨back, by simp [hBack], hTop,
        Nat.lt_of_lt_of_le hPositive (hMost b hMem), hMost⟩

/- Each module lies below the area of another or above it. -/
theorem below_or_above
    {info : SysPrxInfo}
    (hMem : info ∈ infos)
    (hName : info.name = elf.filename)
    (hSize : 0 < info.size)
    (hAbsent :
      ∀ seg ∈ s.segments, seg.prx.number ≠ 0 →
        seg.prx.elf.filename ≠ elf.filename)
    (hWhole :
      ∀ a ∈ s.segments, ∀ b ∈ s.segments, a.prx = b.prx →
        ¬ (a.va < info.imageBase ∧ info.imageBase < b.va)) :
    ∀ x ∈ order,
      (∀ seg ∈ x.segments, seg.last ≤ info.imageBase) ∨
        ∀ seg ∈ x.segments,
          info.imageBase + info.size ≤ seg.va := by
  intro x hx
  by_cases hZero : x.prx.number = 0
  · have hEq : x = l.main :=
      hArranged.eq_of_number hx hArranged.main_mem
        (hZero.trans hArranged.main.symm)
    rw [hEq]
    exact
      .inl (fun seg hSeg =>
        Nat.le_of_lt (hArranged.low info hMem seg hSeg))
  · rcases hArranged.pairs x hx with ⟨a, b, hOther⟩
    have hIn :
        ∀ seg ∈ x.segments, seg ∈ s.segments :=
      fun seg hSeg =>
        hArranged.mem_segments.mpr ⟨x, hx, hSeg⟩
    have hNe : info.name ≠ x.prx.elf.filename := by
      rw [hName, ← hOther.prx0]
      refine (hAbsent a (hIn a hOther.mem0) ?_).symm
      rw [hOther.prx0]
      exact hZero
    have hA := hArranged.avoids x hx a hOther.mem0 info hMem hNe
    have hB := hArranged.avoids x hx b hOther.mem1 info hMem hNe
    have hSplit :=
      hWhole a (hIn a hOther.mem0) b (hIn b hOther.mem1)
        (hOther.prx0.trans hOther.prx1.symm)
    have hFirst := hOther.size0
    unfold ModuleSegment.Avoids at hA hB
    unfold ModuleSegment.last at hA hB
    rcases hB with hB | hB
    · exact .inl (hOther.last_le hB)
    · refine .inr (hOther.le_va ?_)
      rcases hA with hA | hA
      · omega
      · exact hA

/- A module in its area, among the others. -/
theorem load_system
    (hConfigured : Configured infos)
    {info : SysPrxInfo}
    (hInfo : getSysPrxInfo infos elf.filename = some info)
    (hSizes : elf.sizes? = some (size0, size1))
    (hFits :
      (Prx.second ⟨s.prxs, elf⟩ info.imageBase size0
        size1).last ≤ info.imageBase + info.size)
    (hAbsent :
      ∀ seg ∈ s.segments, seg.prx.number ≠ 0 →
        seg.prx.elf.filename ≠ elf.filename)
    (hWhole :
      ∀ a ∈ s.segments, ∀ b ∈ s.segments, a.prx = b.prx →
        ¬ (a.va < info.imageBase ∧ info.imageBase < b.va))
    (hMap : s.mapSegments elf info.imageBase = some t) :
    ∃ order',
      Arranged infos (l.step (.load elf info.imageBase)) t
        order' := by
  have hMem : info ∈ infos := List.mem_of_find?_eq_some hInfo
  have hName : info.name = elf.filename := by
    simpa using List.find?_some hInfo
  rcases hArranged.pairs l.main hArranged.main_mem with
    ⟨c, d, hMain⟩
  have hLow := hArranged.low info hMem c hMain.mem0
  have hPair :=
    @Module.hasPair_of_sizes ⟨s.prxs, elf⟩ _ _ _ hSizes
      (Nat.ne_of_gt (Nat.zero_lt_of_lt hLow))
      (Nat.le_trans hFits (hConfigured.bounded info hMem))
  have hSize : 0 < info.size := by
    have hFirst := hPair.apart
    have hPositive := hPair.size0
    unfold ModuleSegment.last at hFits hFirst
    simp only [Prx.first, Prx.second]
      at hFits hFirst hPositive
    omega
  have hEach :=
    hArranged.below_or_above hMem hName hSize hAbsent hWhole
  rcases Arrangement.exists_split _ _ hEach
      (hArranged.below.imp_of_mem (by
        intro x y hx hy hBelow hUpper seg hSeg
        rcases hArranged.pairs y hy with ⟨a, b, hOther⟩
        have hLast := hBelow seg hSeg a hOther.mem0
        have hTop := hUpper a hOther.mem0
        unfold ModuleSegment.last at hTop
        omega)) with
    ⟨before, after, rfl, hBefore, hAfter⟩
  refine
    hArranged.insert hPair ?_ ?_ ?_ ?_ hMap
  · intro x hx a ha b hb
    exact
      Nat.le_trans (hBefore x hx a ha)
        (hPair.le_va (Nat.le_refl _) b hb)
  · intro x hx a ha b hb
    exact
      Nat.le_trans (hPair.last_le hFits a ha)
        (hAfter x hx b hb)
  · rcases List.mem_append.mp hArranged.main_mem with
      hOld | hNew
    · exact hOld
    · have hHigh := hAfter l.main hNew c hMain.mem0
      unfold ModuleSegment.last at hLow
      omega
  · -- the areas of the configuration are disjoint
    intro other hOther hNe
    have hDifferent : info ≠ other := by
      rintro rfl
      exact hNe hName
    have hDisjoint :=
      hConfigured.disjoint.forall hMem hOther hDifferent
    have hFirst := hPair.apart
    unfold SysPrxInfo.Apart at hDisjoint
    unfold ModuleSegment.Avoids ModuleSegment.last
    unfold ModuleSegment.last at hFits hFirst
    simp only [Prx.first, Prx.second] at hFits hFirst ⊢
    omega

/- The room for a module without an area. -/
theorem freeBase_eq
    (hRoom : s.roomBase infos < 2 ^ 32) :
    s.freeBase infos = some (s.roomBase infos) := by
  rcases hArranged.last_le_getLast with
    ⟨back, hBack, -, -, -⟩
  have hAbove :=
    @le_alignUp
      (max ((s.segments.getLast?.map (·.last)).getD 0)
        ((infos.getLast?.map
          (fun info => info.imageBase + info.size)).getD 0))
      (2 ^ 10) (by omega)
  change _ ≤ s.roomBase infos at hAbove
  unfold roomBase at hRoom
  unfold freeBase roomBase at *
  simp only [hBack, Option.map_some, Option.getD_some]
    at hAbove hRoom ⊢
  unfold ModuleSegment.last at hAbove hRoom ⊢
  cases hLast : infos.getLast? with
  | none =>
      simp only [hLast, Option.map_none, Option.getD_none,
        Nat.max_zero] at hAbove hRoom ⊢
      have hEnd :
          (back.va + back.size) % 2 ^ 32 =
            back.va + back.size :=
        Nat.mod_eq_of_lt (by omega)
      rw [hEnd, Nat.mod_eq_of_lt hRoom]
  | some info =>
      simp only [hLast, Option.map_some, Option.getD_some]
        at hAbove hRoom ⊢
      have hEnd :
          (back.va + back.size) % 2 ^ 32 =
            back.va + back.size :=
        Nat.mod_eq_of_lt (by omega)
      have hArea :
          (info.imageBase + info.size) % 2 ^ 32 =
            info.imageBase + info.size :=
        Nat.mod_eq_of_lt (by omega)
      rw [hEnd, hArea, Nat.mod_eq_of_lt hRoom]

/- A module after all others. -/
theorem load_other
    (hSizes : elf.sizes? = some (size0, size1))
    (hEnd :
      (Prx.second ⟨s.prxs, elf⟩ (s.roomBase infos) size0
        size1).last ≤ 2 ^ 32)
    (hAvoids :
      ∀ info ∈ infos,
        (Prx.first ⟨s.prxs, elf⟩ (s.roomBase infos)
            size0).Avoids info ∧
          (Prx.second ⟨s.prxs, elf⟩ (s.roomBase infos) size0
            size1).Avoids info)
    (hMap : s.mapSegments elf (s.roomBase infos) = some t) :
    ∃ order',
      Arranged infos
        (l.step (.load elf (s.roomBase infos))) t order' := by
  rcases hArranged.last_le_getLast with
    ⟨back, hBack, -, hPositive, hMost⟩
  have hAbove : back.last ≤ s.roomBase infos := by
    refine Nat.le_trans ?_ (le_alignUp _ (by omega))
    simp only [hBack, Option.map_some, Option.getD_some]
    exact Nat.le_max_left _ _
  have hPair :=
    @Module.hasPair_of_sizes ⟨s.prxs, elf⟩ _ _ _ hSizes
      (Nat.ne_of_gt (Nat.lt_of_lt_of_le hPositive hAbove)) hEnd
  have hBefore :
      ∀ x ∈ order,
        x.Below ⟨⟨s.prxs, elf⟩, s.roomBase infos⟩ := by
    intro x hx a ha b hb
    have hLast :=
      hMost a (hArranged.mem_segments.mpr ⟨x, hx, ha⟩)
    have hVa := hPair.le_va (Nat.le_refl _) b hb
    exact Nat.le_trans hLast (Nat.le_trans hAbove hVa)
  have hArranged' : Arranged infos l s (order ++ []) := by
    rw [List.append_nil]
    exact hArranged
  exact
    hArranged'.insert hPair hBefore (List.forall_mem_nil _)
      hArranged.main_mem (fun info hInfo _ => hAvoids info hInfo)
      hMap

theorem load_step
    (hConfigured : Configured infos)
    (hSound : s.SoundLoad infos elf)
    (hStep : s.loadPrx infos elf = some (t, base)) :
    ∃ order',
      Arranged infos (l.step (.load elf base)) t order' := by
  rcases hSound with ⟨size0, size1, hSizes, hSound⟩
  simp only [loadPrx, Option.ite_none_left_eq_some,
    Option.bind_eq_some_iff, Option.map_eq_some_iff,
    Prod.mk.injEq] at hStep
  rcases hStep with ⟨-, base, hBase, u, hMap, rfl, rfl⟩
  cases hInfo : getSysPrxInfo infos elf.filename with
  | some info =>
      rw [hInfo] at hBase hSound
      obtain rfl := Option.some.inj hBase
      rcases hSound with ⟨hFits, hAbsent, hWhole⟩
      exact
        hArranged.load_system hConfigured hInfo hSizes hFits
          hAbsent hWhole hMap
  | none =>
      rw [hInfo] at hBase hSound
      rcases hSound with ⟨hEnd, hAvoids⟩
      have hRoom : s.roomBase infos < 2 ^ 32 := by
        have hAlign :=
          @le_alignUp (s.roomBase infos + size0) 0x10000
            (by omega)
        have hSize1 : 0 < size1 :=
          Elf.pos_of_sizes hSizes
        unfold ModuleSegment.last at hEnd
        simp only [Prx.second] at hEnd
        omega
      change s.freeBase infos = some base at hBase
      rw [hArranged.freeBase_eq hRoom] at hBase
      obtain rfl := Option.some.inj hBase
      exact hArranged.load_other hSizes hEnd hAvoids hMap

/- Each sound call keeps the modules arranged. -/
theorem step
    (hConfigured : Configured infos)
    {e : ModuleEvent}
    (hSound : Sound infos s e t)
    (hStep : EmuProcess.step infos s e t) :
    (∃ order', Arranged infos (l.step e) t order') ∧
      Answers s e t := by
  cases e with
  | load elf base =>
      exact
        ⟨hArranged.load_step hConfigured hSound hStep, trivial⟩
  | unload id => exact hArranged.unload_step hSound hStep
  | getModuleList ids reported =>
      rcases hStep with ⟨rfl, hList⟩
      exact
        ⟨⟨order, hArranged⟩,
          hArranged.getModuleList_step hSound hList⟩

end Arranged

/- The main program on its own. -/
theorem arranged_init
    {elf : Elf}
    (hInit : init infos elf = some s)
    (hProgram : elf.IsProgram) :
    Arranged infos (Loaded.start elf) s [⟨⟨0, elf⟩, 0⟩] := by
  rcases hProgram with
    ⟨m0, m1, hMap, hSize0, hSize1, hApart, hBounded⟩
  let a := ModuleSegment.ofMapped ⟨0, elf⟩ m0
  let b := ModuleSegment.ofMapped ⟨0, elf⟩ m1
  have hPair : Module.HasPair ⟨⟨0, elf⟩, 0⟩ a b :=
    { segments := by
        simp only [Module.segments, hMap]
        rfl
      prx0 := rfl
      prx1 := rfl
      size0 := hSize0
      size1 := hSize1
      apart := hApart
      bounded := Nat.le_of_lt hBounded
      linked := fun hNumber => absurd rfl hNumber }
  have hInsert : insertSegment [a] b = [a, b] := by
    refine
      @Arrangement.orderedInsert_between _ _ _ b [a] [] ?_
        (List.forall_mem_nil _)
    refine List.forall_mem_singleton.mpr ?_
    change ¬ m1.va < m0.va
    omega
  have hMapped :
      mapSegments ⟨[], 0⟩ elf 0 = some ⟨[a, b], 1⟩ := by
    rw [@mapSegments_pair ⟨[], 0⟩ a b elf 0 hPair, ← hInsert]
    rfl
  have hStart :
      s = ⟨[a, b], 1⟩ ∧
        ∀ info ∈ infos, b.last < info.imageBase := by
    rw [init, hMapped, Option.bind_some] at hInit
    split at hInit
    case isTrue hNone =>
      subst hNone
      exact
        ⟨(Option.some.inj hInit).symm, List.forall_mem_nil _⟩
    case isFalse =>
      have hBack :
          (EmuProcess.mk [a, b] 1).segments.getLast? = some b :=
        rfl
      have hLast : (b.va + b.size) % 2 ^ 32 = b.last :=
        Nat.mod_eq_of_lt hBounded
      rw [hBack, Option.bind_some,
        Option.ite_none_right_eq_some, hLast] at hInit
      exact ⟨(Option.some.inj hInit.2).symm, hInit.1⟩
  rcases hStart with ⟨rfl, hLow⟩
  have hBelow : a.last ≤ b.last :=
    Nat.le_trans hPair.apart (Nat.le_add_right _ _)
  exact
    { perm := List.Perm.refl _
      segments := by simp [hPair.segments]
      head := rfl
      pairs := List.forall_mem_singleton.mpr ⟨a, b, hPair⟩
      below := List.pairwise_singleton _ _
      numbers := List.nodup_singleton _
      fresh := List.forall_mem_singleton.mpr Nat.one_pos
      main := rfl
      count := rfl
      avoids :=
        List.forall_mem_singleton.mpr
          (hPair.forall_mem
            (fun info hInfo _ =>
              .inl
                (Nat.le_trans hBelow
                  (Nat.le_of_lt (hLow info hInfo))))
            (fun info hInfo _ =>
              .inl (Nat.le_of_lt (hLow info hInfo))))
      low := fun info hInfo =>
        hPair.forall_mem
          (Nat.lt_of_le_of_lt hBelow (hLow info hInfo))
          (hLow info hInfo) }

/-
  Every run of sound calls keeps the segments in their place,
  and each of its calls does what it should.
-/
theorem keepsPlacement_of_sound
    (infos : List SysPrxInfo)
    (elf : Elf)
    (start : EmuProcess)
    (events : List ModuleEvent)
    (hConfigured : Configured infos)
    (hProgram : elf.IsProgram)
    (hInit : init infos elf = some start)
    (hSound :
      Transition.EveryStep (step infos) (Sound infos) start
        events) :
    KeepsPlacement infos elf start events := by
  have hArranged :
      Transition.EveryState (step infos)
        (fun before s =>
          ∃ order,
            Arranged infos (Loaded.after elf before) s order)
        start events := by
    refine
      Transition.EveryStep.everyState ?_ hSound
        ⟨_, arranged_init hInit hProgram⟩
    rintro before s e t ⟨order, hArranged⟩ hSound hStep
    rw [Loaded.after, List.foldl_append]
    exact (hArranged.step hConfigured hSound hStep).1
  constructor
  · intro before after s hEvents hRun
    rcases hArranged before after s hEvents hRun with
      ⟨order, hOrder⟩
    exact hOrder.placed
  · intro before e after s t hEvents hRun hStep
    rcases hArranged before (e :: after) s hEvents hRun with
      ⟨order, hOrder⟩
    exact
      (hOrder.step hConfigured
        (hSound before e after s t hEvents hRun hStep)
        hStep).2

------------------------------------------------------------
-- Examples of Runs
------------------------------------------------------------

/- The main program, and a module of two small segments. -/
def sampleProgram : Elf where
  filename := "EBOOT.elf"
  pheaders :=
    [⟨.load, 0x10000, 0x1000⟩, ⟨.load, 0x20000, 0x1000⟩]

def sampleModule (filename : String) : Elf where
  filename := filename
  pheaders :=
    [⟨.load, 0, 0x1000⟩, ⟨.load, 0x1000, 0x1000⟩,
      ⟨.other, 0, 0⟩]

/- After the start: the two segments of the program. -/
def sampleStart : EmuProcess where
  segments :=
    [⟨⟨0, sampleProgram⟩, 0, 0x10000, 0x1000⟩,
      ⟨⟨0, sampleProgram⟩, 1, 0x20000, 0x1000⟩]
  prxs := 1

theorem sampleProgram_isProgram : sampleProgram.IsProgram :=
  ⟨⟨0x10000, 0x1000, 0⟩, ⟨0x20000, 0x1000, 1⟩, by rfl,
    by decide, by decide, by decide, by decide⟩

/- Two areas that are not listed by their addresses. -/
def misordered : List SysPrxInfo :=
  [⟨"liba.sprx.elf", 0x2100000, 0x40000⟩,
    ⟨"libb.sprx.elf", 0x2000000, 0x100000⟩]

/-
  A module that is none of the system's gets the addresses
  after the area listed last, where the other area is.
-/
theorem misordered_overlap :
    Configured misordered ∧
      sampleProgram.IsProgram ∧
      init misordered sampleProgram = some sampleStart ∧
      (sampleModule "game.elf").sizes? = some (0x1000, 0x1000) ∧
      ¬ KeepsPlacement misordered sampleProgram sampleStart
        [.load (sampleModule "game.elf") 0x2100000] := by
  refine
    ⟨⟨by simp [misordered, SysPrxInfo.Apart],
        by simp [misordered]⟩,
      sampleProgram_isProgram, by decide, by decide, ?_⟩
  intro hKeeps
  have hStep :
      step misordered sampleStart
        (.load (sampleModule "game.elf") 0x2100000)
        ⟨sampleStart.segments ++
          [⟨⟨1, sampleModule "game.elf"⟩, 0, 0x2100000, 0x1000⟩,
            ⟨⟨1, sampleModule "game.elf"⟩, 1, 0x2110000,
              0x1000⟩], 2⟩ := by
    change loadPrx _ _ _ = _
    decide
  have hPlaced :=
    hKeeps.1 [_] [] _ rfl (.snoc .nil hStep)
  have hAvoids :=
    hPlaced.avoids ⟨⟨1, sampleModule "game.elf"⟩, 0x2100000⟩
      (by decide)
      ⟨⟨1, sampleModule "game.elf"⟩, 0, 0x2100000, 0x1000⟩
      (by decide)
      ⟨"liba.sprx.elf", 0x2100000, 0x40000⟩ (by decide)
      (by decide)
  revert hAvoids
  decide

/- One area, and the pair of segments of a module. -/
def sampleInfos : List SysPrxInfo :=
  [⟨"liba.sprx.elf", 0x2000000, 0x40000⟩]

def samplePair
    (number : Nat)
    (filename : String)
    (base : Nat) : List ModuleSegment :=
  [⟨⟨number, sampleModule filename⟩, 0, base, 0x1000⟩,
    ⟨⟨number, sampleModule filename⟩, 1, base + 0x10000,
      0x1000⟩]

def sampleEvents : List ModuleEvent :=
  [.load (sampleModule "game.elf") 0x2040000,
    .load (sampleModule "liba.sprx.elf") 0x2000000,
    .unload 0x2000000,
    .getModuleList [0, 0] [0x2040000, 0]]

/- Both kinds of modules are loaded, and one is unloaded. -/
theorem keepsPlacement_of_sound_sample :
    KeepsPlacement sampleInfos sampleProgram sampleStart
        sampleEvents ∧
      Transition.Run (step sampleInfos) sampleStart sampleEvents
        ⟨sampleStart.segments ++
          samplePair 1 "game.elf" 0x2040000, 3⟩ := by
  let s₁ : EmuProcess :=
    ⟨sampleStart.segments ++ samplePair 1 "game.elf" 0x2040000,
      2⟩
  let s₂ : EmuProcess :=
    ⟨sampleStart.segments ++
      (samplePair 2 "liba.sprx.elf" 0x2000000 ++
        samplePair 1 "game.elf" 0x2040000), 3⟩
  let s₃ : EmuProcess := ⟨s₁.segments, 3⟩
  have hGame :
      loadPrx sampleInfos sampleStart (sampleModule "game.elf") =
        some (s₁, 0x2040000) := by
    decide
  have hLib :
      loadPrx sampleInfos s₁ (sampleModule "liba.sprx.elf") =
        some (s₂, 0x2000000) := by
    decide
  have hUnload : unloadModule s₂ 0x2000000 = some s₃ := by
    decide
  have hList :
      getModuleList s₃ [0, 0] = some [0x2040000, 0] := by
    decide
  have hSound :
      Transition.EveryStep (step sampleInfos)
        (Sound sampleInfos) sampleStart sampleEvents := by
    refine .cons (fun t hStep => ⟨?_, ?_⟩)
    · refine ⟨0x1000, 0x1000, by decide, ?_⟩
      have hNone :
          getSysPrxInfo sampleInfos "game.elf" = none := by
        decide
      simp only [sampleModule, hNone]
      decide
    change loadPrx _ _ _ = some (t, _) at hStep
    rw [hGame] at hStep
    cases hStep
    refine .cons (fun t hStep => ⟨?_, ?_⟩)
    · refine ⟨0x1000, 0x1000, by decide, ?_⟩
      have hSome :
          getSysPrxInfo sampleInfos "liba.sprx.elf" =
            some ⟨"liba.sprx.elf", 0x2000000, 0x40000⟩ := by
        decide
      simp only [sampleModule, hSome]
      decide
    change loadPrx _ _ _ = some (t, _) at hStep
    rw [hLib] at hStep
    cases hStep
    refine .cons (fun t hStep => ⟨?_, ?_⟩)
    · change ∃ seg ∈ s₂.segments, _
      decide
    change unloadModule _ _ = some t at hStep
    rw [hUnload] at hStep
    cases hStep
    refine .cons (fun t _ => ⟨?_, .nil t⟩)
    change ∀ seg ∈ s₃.segments, _
    decide
  refine
    ⟨keepsPlacement_of_sound sampleInfos sampleProgram
        sampleStart sampleEvents
        ⟨by simp [sampleInfos], by simp [sampleInfos]⟩
        sampleProgram_isProgram (by decide) hSound, ?_⟩
  exact
    .cons hGame (.cons hLib (.cons hUnload
      (.cons ⟨rfl, hList⟩ .nil)))

end EmuProcess

end Ps3emu
