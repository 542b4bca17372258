import Ps3emu.Library.Transition
import Ps3emu.Memory.MainMemory

/-
  Any number of agents running the memory operations at the
  same time.  An agent is a PPU or SPU thread with at most
  one reservation granule.  A step is what an agent does
  between taking and releasing line locks, a page mark, or a
  read of its own granule outside the locks; the program
  counter says where in an operation an agent stands.

  Key definitions include:
    * `Agents.Pc`, `Agents.Action`, `Agents.Event`
    * `Agents.State`, `Agents.step`, `Agents.Step`
    * `Agents.Effect`
    * `Agents.Writes`, `Agents.WritesLine`

  Key theorems include:
    * `Agents.effect_of_step`
    * `Agents.pages_step`, `Agents.pc_other`
    * `Agents.byte_step`
    * `Agents.load_step`
-/

------------------------------------------------------------
-- States and Steps
------------------------------------------------------------

namespace Ps3emu

namespace Agents

/- An agent is named as the granule it may own. -/
abbrev AgentId := GranuleId

/- The arguments of a `loadReserve`. -/
structure Request where
  len : ReserveLen
  va : Ps3Uintptr
  notify : Option Nat
  arg1 : Nat
  arg2 : Nat
deriving DecidableEq

/-
  `unreserve` and `reserve` stand before the two critical
  sections of `loadReserve`, `copy` inside the loop of
  `writeMemory`, `mark` between the critical section and the
  page mark of a store, and `clear` before the critical
  section of the granule's destructor.
-/
inductive Pc where
  | idle
  | unreserve (line : Nat) (req : Request)
  | reserve (req : Request)
  | copy (va last : Ps3Uintptr) (src : List Byte)
  | mark (va : Ps3Uintptr)
  | clear (line : Nat)
deriving DecidableEq

inductive Action where
  | create
  | destroy
  | clear
  | loadReserve (req : Request)
  | unreserve
  | reserve
  | store
      (len : AccessLen)
      (va : Ps3Uintptr)
      (value : Word len.bytes)
  | writeMemory (va : Ps3Uintptr) (buf : List Byte)
  | copyChunk
  | mark
  | writeCond
      (len : ReserveLen)
      (unconditional : Bool)
      (va : Ps3Uintptr)
      (buf : List Byte)
deriving DecidableEq

/- What an action hands back to the agent. -/
inductive Output where
  | none
  | loaded (buf : List Byte)
  | stored (ok : Bool)
deriving DecidableEq

structure Event where
  agent : AgentId
  action : Action
  output : Output
deriving DecidableEq

structure State where
  mm : MainMemory
  alive : AgentId → Bool
  pc : AgentId → Pc

namespace State

/- `g_state.granule` of an agent. -/
def granule (s : State) (a : AgentId) : Option GranuleId :=
  if s.alive a then some a else none

/- The line an agent holds a reservation on. -/
def lineOf (s : State) (a : AgentId) : Option Nat :=
  s.mm.rmap.lineOf a

/- Move one agent and replace the memory. -/
def move
    (s : State)
    (a : AgentId)
    (mm : MainMemory)
    (pc : Pc) : State :=
  { s with mm, pc := Function.update s.pc a pc }

/- End the life of an agent's granule. -/
def release (s : State) (a : AgentId) : State :=
  { s with alive := Function.update s.alive a false }

end State

/- A granule starts out without a reservation. -/
def createStep (s : State) (a : AgentId) : Option State :=
  if s.alive a then none
  else
    let rmap :=
      { s.mm.rmap with
        granules :=
          Function.update s.mm.rmap.granules a {} }
    some
      { s with
        mm := { s.mm with rmap }
        alive := Function.update s.alive a true }

/- `auto local = line; if (local)` of the destructor. -/
def destroyStep (s : State) (a : AgentId) : Option State :=
  if s.alive a then
    match s.lineOf a with
    | some line => some (s.move a s.mm (.clear line))
    | none => some (s.release a)
  else none

/-
  `if (granuleLine)` of `loadReserve`, after its assertions.
-/
def loadReserveStep
    (s : State)
    (a : AgentId)
    (req : Request) : Option State :=
  if s.alive a && MainMemory.reserveAligned req.len req.va then
    match s.lineOf a with
    | some line =>
        some (s.move a s.mm (.unreserve line req))
    | none => some (s.move a s.mm (.reserve req))
  else none

def storeStep
    (s : State)
    (a : AgentId)
    (len : AccessLen)
    (va : Ps3Uintptr)
    (value : Word len.bytes) : Option State :=
  if isSpecialVa va then some s
  else
    (s.mm.storeLocked len va value (s.granule a)).map
      (fun mm => s.move a mm (.mark va))

/-
  A range that wraps around the address space is not a range
  of memory, and the copy of its first chunk would run past
  every host block.
-/
def writeMemoryStep
    (s : State)
    (a : AgentId)
    (va : Ps3Uintptr)
    (buf : List Byte) : Option State :=
  if va.toNat + buf.length < 2 ^ 32 then
    if isSpecialVa va then some s
    else
      let len := BitVec.ofNat 32 buf.length
      let mm := s.mm.mark va len
      if buf.isEmpty then some (s.move a mm .idle)
      else some (s.move a mm (.copy va (va + len) buf))
  else none

def copyChunkStep
    (s : State)
    (a : AgentId)
    (va last : Ps3Uintptr)
    (src : List Byte) : Option State :=
  let next := MainMemory.chunkEnd va last
  (s.mm.writeChunk va last src (s.granule a)).map (fun mm =>
    s.move a mm
      (if next = last then .idle
        else .copy next last (src.drop (next - va).toNat)))

def writeCondStep
    (s : State)
    (a : AgentId)
    (len : ReserveLen)
    (unconditional : Bool)
    (va : Ps3Uintptr)
    (buf : List Byte) : Option (State × Bool) :=
  if buf.length = len.bytes then
    (s.mm.writeCondLocked len unconditional (s.granule a) va
      buf).map (fun (mm, stored) =>
        (s.move a mm (if stored then .mark va else .idle),
          stored))
  else none

/- One step of one agent, with what it hands back. -/
def step
    (s : State)
    (a : AgentId) : Action → Option (State × Output)
  | .create =>
      if s.pc a = .idle then
        (createStep s a).map (·, .none)
      else none
  | .destroy =>
      if s.pc a = .idle then
        (destroyStep s a).map (·, .none)
      else none
  | .clear =>
      match s.pc a with
      | .clear line =>
          let mm :=
            { s.mm with rmap := s.mm.rmap.clear line }
          some ((s.move a mm .idle).release a, .none)
      | _ => none
  | .loadReserve req =>
      if s.pc a = .idle then
        (loadReserveStep s a req).map (·, .none)
      else none
  | .unreserve =>
      match s.pc a with
      | .unreserve _ req =>
          some
            (s.move a (s.mm.unreserveLocked a)
              (.reserve req), .none)
      | _ => none
  | .reserve =>
      match s.pc a with
      | .reserve req =>
          (s.mm.reserveLocked req.len a req.va req.notify
            req.arg1 req.arg2).map (fun (mm, buf) =>
              (s.move a mm .idle, .loaded buf))
      | _ => none
  | .store len va value =>
      if s.pc a = .idle then
        (storeStep s a len va value).map (·, .none)
      else none
  | .writeMemory va buf =>
      if s.pc a = .idle then
        (writeMemoryStep s a va buf).map (·, .none)
      else none
  | .copyChunk =>
      match s.pc a with
      | .copy va last src =>
          (copyChunkStep s a va last src).map (·, .none)
      | _ => none
  | .mark =>
      match s.pc a with
      | .mark va =>
          some (s.move a (s.mm.markFor va) .idle, .none)
      | _ => none
  | .writeCond len unconditional va buf =>
      if s.pc a = .idle then
        (writeCondStep s a len unconditional va buf).map
          (fun (t, ok) => (t, .stored ok))
      else none

def Step (s : State) (e : Event) (t : State) : Prop :=
  step s e.agent e.action = some (t, e.output)

/- Run a schedule of actions, if every one is enabled. -/
def exec
    (s : State) :
    List (AgentId × Action) → Option (List Event × State)
  | [] => some ([], s)
  | (a, action) :: rest =>
      (step s a action).bind (fun (t, output) =>
        (exec t rest).map (fun (events, finish) =>
          (⟨a, action, output⟩ :: events, finish)))

variable {s t : State}

theorem run_of_exec
    {schedule : List (AgentId × Action)}
    {events : List Event}
    (hExec : exec s schedule = some (events, t)) :
    Transition.Run Step s events t := by
  induction schedule generalizing s events with
  | nil =>
      obtain ⟨rfl, rfl⟩ :=
        Prod.mk.inj (Option.some.inj hExec)
      exact .nil
  | cons head rest ih =>
      rcases head with ⟨a, action⟩
      rcases Option.bind_eq_some_iff.mp hExec with
        ⟨⟨u, output⟩, hFirst, hRest⟩
      rcases Option.map_eq_some_iff.mp hRest with
        ⟨⟨more, finish⟩, hMore, hEq⟩
      obtain ⟨rfl, rfl⟩ := Prod.mk.inj hEq
      exact .cons hFirst (ih hMore)

/- Nobody holds a granule or is inside an operation. -/
structure Initial (s : State) : Prop where
  rmap : s.mm.rmap = ReservationMap.empty
  alive : ∀ a, s.alive a = false
  pc : ∀ a, s.pc a = .idle

------------------------------------------------------------
-- Inversion
------------------------------------------------------------

/- The memory after the critical section of a store. -/
def stored
    (m : MainMemory)
    (ptr : HostPointer)
    (bytes : List Byte)
    (lines : Nat × Option Nat)
    (granule : Option GranuleId) : MainMemory :=
  { m.write ptr bytes with
    rmap := m.rmap.destroyExcept lines.1 lines.2 granule }

/- The memory after a `writeCond` that stored. -/
def condStored
    (m : MainMemory)
    (ptr : HostPointer)
    (bytes : List Byte)
    (line : Nat) : MainMemory :=
  { m.write ptr bytes with
    rmap := m.rmap.destroySingleLine line }

/-
  Everything a step can do, one constructor for each outcome
  of an action, with the guards that led to it.
-/
inductive Effect (s : State) (a : AgentId) :
    Action → Output → State → Prop where
  | create
      (hPc : s.pc a = .idle)
      (hAlive : s.alive a = false) :
      Effect s a .create .none
        { s with
          mm :=
            { s.mm with
              rmap :=
                { s.mm.rmap with
                  granules :=
                    Function.update s.mm.rmap.granules a
                      {} } }
          alive := Function.update s.alive a true }
  | destroyHeld
      {line : Nat}
      (hPc : s.pc a = .idle)
      (hAlive : s.alive a = true)
      (hLine : s.lineOf a = some line) :
      Effect s a .destroy .none
        (s.move a s.mm (.clear line))
  | destroyFree
      (hPc : s.pc a = .idle)
      (hAlive : s.alive a = true)
      (hLine : s.lineOf a = none) :
      Effect s a .destroy .none (s.release a)
  | clear
      {line : Nat}
      (hPc : s.pc a = .clear line) :
      Effect s a .clear .none
        ((s.move a
          { s.mm with rmap := s.mm.rmap.clear line }
          .idle).release a)
  | loadReserveHeld
      {req : Request}
      {line : Nat}
      (hPc : s.pc a = .idle)
      (hAlive : s.alive a = true)
      (hLine : s.lineOf a = some line) :
      Effect s a (.loadReserve req) .none
        (s.move a s.mm (.unreserve line req))
  | loadReserveFree
      {req : Request}
      (hPc : s.pc a = .idle)
      (hAlive : s.alive a = true)
      (hLine : s.lineOf a = none) :
      Effect s a (.loadReserve req) .none
        (s.move a s.mm (.reserve req))
  | unreserve
      {line : Nat}
      {req : Request}
      (hPc : s.pc a = .unreserve line req) :
      Effect s a .unreserve .none
        (s.move a (s.mm.unreserveLocked a) (.reserve req))
  | reserve
      {req : Request}
      {ptr : HostPointer}
      (hPc : s.pc a = .reserve req)
      (hNext : (lockedLines req.len.bytes req.va).2 = none)
      (hPtr : s.mm.getMemoryPointer req.va = some ptr) :
      Effect s a .reserve
        (.loaded (s.mm.host.read ptr req.len.bytes))
        (s.move a
          { s.mm with
            rmap :=
              s.mm.rmap.reserve a (lineIndex req.va)
                req.notify req.arg1 req.arg2 }
          .idle)
  | special
      {action : Action}
      (hPc : s.pc a = .idle)
      (hAction :
        (∃ len va value,
            action = .store len va value ∧
              isSpecialVa va = true) ∨
          ∃ va buf,
            action = .writeMemory va buf ∧
              isSpecialVa va = true) :
      Effect s a action .none s
  | store
      {len : AccessLen}
      {va : Ps3Uintptr}
      {value : Word len.bytes}
      {ptr : HostPointer}
      (hPc : s.pc a = .idle)
      (hPtr : s.mm.getMemoryPointer va = some ptr) :
      Effect s a (.store len va value) .none
        (s.move a
          (stored s.mm ptr (Bytes.bigEndian value)
            (lockedLines len.bytes va) (s.granule a))
          (.mark va))
  | writeMemory
      {va : Ps3Uintptr}
      {buf : List Byte}
      (hPc : s.pc a = .idle)
      (hVa : va.toNat < 0xe0000000)
      (hWrap : va.toNat + buf.length < 2 ^ 32) :
      Effect s a (.writeMemory va buf) .none
        (s.move a
          (s.mm.mark va (BitVec.ofNat 32 buf.length))
          (if buf.isEmpty then .idle
            else
              .copy va (va + BitVec.ofNat 32 buf.length)
                buf))
  | copyChunk
      {va last : Ps3Uintptr}
      {src : List Byte}
      {ptr : HostPointer}
      (hPc : s.pc a = .copy va last src)
      (hPtr : s.mm.getMemoryPointer va = some ptr) :
      Effect s a .copyChunk .none
        (s.move a
          (stored s.mm ptr
            (src.take
              (MainMemory.chunkEnd va last - va).toNat)
            (lineIndex va, none) (s.granule a))
          (if MainMemory.chunkEnd va last = last then .idle
            else
              .copy (MainMemory.chunkEnd va last) last
                (src.drop
                  (MainMemory.chunkEnd va last -
                    va).toNat)))
  | mark
      {va : Ps3Uintptr}
      (hPc : s.pc a = .mark va) :
      Effect s a .mark .none
        (s.move a (s.mm.markFor va) .idle)
  | condStored
      {len : ReserveLen}
      {unconditional : Bool}
      {va : Ps3Uintptr}
      {buf : List Byte}
      {ptr : HostPointer}
      (hPc : s.pc a = .idle)
      (hLength : buf.length = len.bytes)
      (hNext : (lockedLines len.bytes va).2 = none)
      (hHeld :
        unconditional = false →
          s.mm.rmap.contains (lineIndex va) a = true)
      (hPtr : s.mm.getMemoryPointer va = some ptr) :
      Effect s a (.writeCond len unconditional va buf)
        (.stored true)
        (s.move a
          (condStored s.mm ptr buf (lineIndex va))
          (.mark va))
  | condFailed
      {len : ReserveLen}
      {unconditional : Bool}
      {va : Ps3Uintptr}
      {buf : List Byte}
      (hPc : s.pc a = .idle) :
      Effect s a (.writeCond len unconditional va buf)
        (.stored false) (s.move a s.mm .idle)

variable {a : AgentId} {va : Ps3Uintptr}

theorem effect_of_store
    {len : AccessLen}
    {value : Word len.bytes}
    (hPc : s.pc a = .idle)
    (hStep : storeStep s a len va value = some t) :
    Effect s a (.store len va value) .none t := by
  unfold storeStep at hStep
  split at hStep
  · rename_i hSpecial
    obtain rfl := Option.some.inj hStep
    exact .special hPc
      (.inl ⟨len, va, value, rfl, hSpecial⟩)
  · simp only [MainMemory.storeLocked, Option.map_map,
      Option.map_eq_some_iff] at hStep
    rcases hStep with ⟨ptr, hPtr, rfl⟩
    have hEffect :=
      @Effect.store s a len va value ptr hPc hPtr
    rw [← Bytes.littleEndian_reverseWord] at hEffect
    exact hEffect

theorem effect_of_writeMemory
    {buf : List Byte}
    (hPc : s.pc a = .idle)
    (hStep : writeMemoryStep s a va buf = some t) :
    Effect s a (.writeMemory va buf) .none t := by
  unfold writeMemoryStep at hStep
  split at hStep
  case isFalse => cases hStep
  case isTrue hWrap =>
    split at hStep
    case isTrue hSpecial =>
      obtain rfl := Option.some.inj hStep
      exact .special hPc (.inr ⟨va, buf, rfl, hSpecial⟩)
    case isFalse hSpecial =>
      have hVa : va.toNat < 0xe0000000 :=
        (isSpecialVa_eq_false_iff va).mp
          (Bool.eq_false_iff.mpr hSpecial)
      have hEffect := Effect.writeMemory hPc hVa hWrap
      cases hEmpty : buf.isEmpty <;>
        simp only [hEmpty, Bool.false_eq_true, if_true,
          if_false, Option.some.injEq] at hStep hEffect
      · exact hStep ▸ hEffect
      · exact hStep ▸ hEffect

theorem effect_of_writeCond
    {len : ReserveLen}
    {unconditional ok : Bool}
    {buf : List Byte}
    (hPc : s.pc a = .idle)
    (hStep :
      writeCondStep s a len unconditional va buf =
        some (t, ok)) :
    Effect s a (.writeCond len unconditional va buf)
      (.stored ok) t := by
  unfold writeCondStep at hStep
  split at hStep
  case isFalse => cases hStep
  case isTrue hLength =>
    rcases Option.map_eq_some_iff.mp hStep with
      ⟨⟨mm, stored⟩, hLocked, hEq⟩
    obtain ⟨rfl, rfl⟩ := Prod.mk.inj hEq
    simp only [MainMemory.writeCondLocked] at hLocked
    split at hLocked
    case isTrue => cases hLocked
    case isFalse hNext =>
      have hNone : (lockedLines len.bytes va).2 = none := by
        simpa using hNext
      split at hLocked
      case isTrue => cases hLocked
      case isFalse hGranule =>
        split at hLocked
        case isTrue hHeld =>
          rcases Option.map_eq_some_iff.mp hLocked with
            ⟨ptr, hPtr, hResult⟩
          obtain ⟨rfl, rfl⟩ := Prod.mk.inj hResult
          have hTake : buf.take len.bytes = buf := by
            rw [← hLength, List.take_length]
          have hContains :
              unconditional = false →
                s.mm.rmap.contains (lineIndex va) a =
                  true := by
            rintro rfl
            cases hAlive : s.alive a
            · simp [State.granule, hAlive] at hGranule
            · simpa [State.granule, hAlive, lockedLines]
                using hHeld
          have hEffect :=
            Effect.condStored hPc hLength hNone hContains
              hPtr
          rw [hTake]
          exact hEffect
        case isFalse =>
          obtain ⟨rfl, rfl⟩ :=
            Prod.mk.inj (Option.some.inj hLocked)
          exact .condFailed hPc

theorem effect_of_reserve
    {req : Request}
    {output : Output}
    (hPc : s.pc a = .reserve req)
    (hStep :
      (s.mm.reserveLocked req.len a req.va req.notify
        req.arg1 req.arg2).map (fun (mm, buf) =>
          (s.move a mm .idle, Output.loaded buf)) =
        some (t, output)) :
    Effect s a .reserve output t := by
  rcases Option.map_eq_some_iff.mp hStep with
    ⟨⟨mm, buf⟩, hLocked, hEq⟩
  obtain ⟨rfl, rfl⟩ := Prod.mk.inj hEq
  simp only [MainMemory.reserveLocked] at hLocked
  split at hLocked
  case isTrue => cases hLocked
  case isFalse hNext =>
    rcases Option.map_eq_some_iff.mp hLocked with
      ⟨ptr, hPtr, hResult⟩
    obtain ⟨rfl, rfl⟩ := Prod.mk.inj hResult
    exact .reserve hPc (by simpa using hNext) hPtr

/- Every step is one of the listed outcomes. -/
theorem effect_of_step
    {action : Action}
    {output : Output}
    (hStep : step s a action = some (t, output)) :
    Effect s a action output t := by
  cases action with
  | create =>
      simp only [step, createStep] at hStep
      split at hStep
      case isFalse => cases hStep
      case isTrue hPc =>
        split at hStep
        case isTrue => cases hStep
        case isFalse hAlive =>
          obtain ⟨rfl, rfl⟩ :=
            Prod.mk.inj (Option.some.inj hStep)
          exact .create hPc (Bool.eq_false_iff.mpr hAlive)
  | destroy =>
      simp only [step, destroyStep] at hStep
      split at hStep
      case isFalse => cases hStep
      case isTrue hPc =>
        split at hStep
        case isFalse => cases hStep
        case isTrue hAlive =>
          cases hLine : s.lineOf a <;>
            simp only [hLine, Option.map_some,
              Option.some.injEq, Prod.mk.injEq] at hStep
          · exact hStep.1 ▸ hStep.2 ▸
              .destroyFree hPc hAlive hLine
          · exact hStep.1 ▸ hStep.2 ▸
              .destroyHeld hPc hAlive hLine
  | clear =>
      simp only [step] at hStep
      split at hStep
      case h_1 line hPc =>
        obtain ⟨rfl, rfl⟩ :=
          Prod.mk.inj (Option.some.inj hStep)
        exact .clear hPc
      case h_2 => cases hStep
  | loadReserve req =>
      simp only [step, loadReserveStep] at hStep
      split at hStep
      case isFalse => cases hStep
      case isTrue hPc =>
        split at hStep
        case isFalse => cases hStep
        case isTrue hGuard =>
          have hAlive : s.alive a = true :=
            (Bool.and_eq_true_iff.mp hGuard).1
          cases hLine : s.lineOf a <;>
            simp only [hLine, Option.map_some,
              Option.some.injEq, Prod.mk.injEq] at hStep
          · exact hStep.1 ▸ hStep.2 ▸
              .loadReserveFree hPc hAlive hLine
          · exact hStep.1 ▸ hStep.2 ▸
              .loadReserveHeld hPc hAlive hLine
  | unreserve =>
      simp only [step] at hStep
      split at hStep
      case h_1 line req hPc =>
        obtain ⟨rfl, rfl⟩ :=
          Prod.mk.inj (Option.some.inj hStep)
        exact .unreserve hPc
      case h_2 => cases hStep
  | reserve =>
      simp only [step] at hStep
      split at hStep
      case h_1 req hPc => exact effect_of_reserve hPc hStep
      case h_2 => cases hStep
  | store len va value =>
      simp only [step] at hStep
      split at hStep
      case isFalse => cases hStep
      case isTrue hPc =>
        rcases Option.map_eq_some_iff.mp hStep with
          ⟨u, hStore, hEq⟩
        obtain ⟨rfl, rfl⟩ := Prod.mk.inj hEq
        exact effect_of_store hPc hStore
  | writeMemory va buf =>
      simp only [step] at hStep
      split at hStep
      case isFalse => cases hStep
      case isTrue hPc =>
        rcases Option.map_eq_some_iff.mp hStep with
          ⟨u, hWrite, hEq⟩
        obtain ⟨rfl, rfl⟩ := Prod.mk.inj hEq
        exact effect_of_writeMemory hPc hWrite
  | copyChunk =>
      simp only [step] at hStep
      split at hStep
      case h_2 => cases hStep
      case h_1 va last src hPc =>
        simp only [copyChunkStep, MainMemory.writeChunk,
          lockedLines_line, Option.map_map,
          Option.map_eq_some_iff] at hStep
        rcases hStep with ⟨ptr, hPtr, hEq⟩
        obtain ⟨rfl, rfl⟩ := Prod.mk.inj hEq
        exact .copyChunk hPc hPtr
  | mark =>
      simp only [step] at hStep
      split at hStep
      case h_1 va hPc =>
        obtain ⟨rfl, rfl⟩ :=
          Prod.mk.inj (Option.some.inj hStep)
        exact .mark hPc
      case h_2 => cases hStep
  | writeCond len unconditional va buf =>
      simp only [step] at hStep
      split at hStep
      case isFalse => cases hStep
      case isTrue hPc =>
        rcases Option.map_eq_some_iff.mp hStep with
          ⟨⟨u, ok⟩, hCond, hEq⟩
        obtain ⟨rfl, rfl⟩ := Prod.mk.inj hEq
        exact effect_of_writeCond hPc hCond

------------------------------------------------------------
-- Written Bytes
------------------------------------------------------------

/- The range of addresses a step copies data into. -/
def writtenRange
    (s : State)
    (e : Event) : Option (Ps3Uintptr × Nat) :=
  match e.action with
  | .store len va _ =>
      if isSpecialVa va then none else some (va, len.bytes)
  | .copyChunk =>
      match s.pc e.agent with
      | .copy va last _ =>
          some (va, (MainMemory.chunkEnd va last - va).toNat)
      | _ => none
  | .writeCond len _ va _ =>
      if e.output = .stored true then some (va, len.bytes)
      else none
  | _ => none

def Writes (s : State) (e : Event) (a : Ps3Uintptr) : Prop :=
  ∃ va n,
    writtenRange s e = some (va, n) ∧ distance va a < n

/- A step writes a line when it writes a byte of it. -/
def WritesLine (s : State) (e : Event) (line : Nat) : Prop :=
  ∃ a, Writes s e a ∧ lineIndex a = line

variable {e : Event}

variable (hStep : Step s e t)

include hStep

/- No step allocates or frees a page. -/
theorem pages_step :
    t.mm.pages = s.mm.pages := by
  rcases e with ⟨agent, action, output⟩
  have hEffect : Effect s agent action output t :=
    effect_of_step hStep
  cases hEffect <;> rfl

/- A step moves the agent that takes it and no other. -/
theorem pc_other
    (g : AgentId)
    (hOther : g ≠ e.agent) :
    t.pc g = s.pc g := by
  rcases e with ⟨agent, action, output⟩
  have hEffect : Effect s agent action output t :=
    effect_of_step hStep
  have hNe : g ≠ agent := hOther
  cases hEffect <;>
    simp [State.move, State.release, hNe]

/-
  The host memory after a step: as it was, or with the
  bytes of the written range copied through its pointer.
-/
theorem host_step :
    t.mm.host = s.mm.host ∨
      ∃ va ptr bytes,
        s.mm.getMemoryPointer va = some ptr ∧
          t.mm.host = s.mm.host.write ptr bytes ∧
          ∀ a, distance va a < bytes.length →
            Writes s e a := by
  rcases e with ⟨agent, action, output⟩
  have hEffect : Effect s agent action output t :=
    effect_of_step hStep
  cases hEffect with
  | @store len va value ptr hPc hPtr =>
      have hVa := s.mm.toNat_lt_of_pointer hPtr
      have hOrdinary := (isSpecialVa_eq_false_iff va).mpr hVa
      refine .inr ⟨va, ptr, _, hPtr, rfl, ?_⟩
      intro a hNear
      refine ⟨va, len.bytes, ?_, ?_⟩
      · simp [writtenRange, hOrdinary]
      · simpa using hNear
  | @copyChunk va last src ptr hPc hPtr =>
      refine .inr ⟨va, ptr, _, hPtr, rfl, ?_⟩
      intro a hNear
      refine
        ⟨va, (MainMemory.chunkEnd va last - va).toNat,
          ?_, ?_⟩
      · simp only [writtenRange, hPc]
      · rw [List.length_take] at hNear
        exact Nat.lt_of_lt_of_le hNear (Nat.min_le_left _ _)
  | @condStored len unconditional va buf ptr hPc hLength
      hNext hHeld hPtr =>
      refine .inr ⟨va, ptr, _, hPtr, rfl, ?_⟩
      intro a hNear
      refine ⟨va, len.bytes, ?_, ?_⟩
      · simp [writtenRange]
      · rwa [← hLength]
  | _ => exact .inl rfl

/- A step changes no byte that it does not write. -/
theorem byte_step
    (a : Ps3Uintptr)
    (hFar : ¬ Writes s e a) :
    t.mm.byte a = s.mm.byte a := by
  have hPages := pages_step hStep
  rcases host_step hStep with
    hHost | ⟨va, ptr, bytes, hPtr, hHost, hWritten⟩
  · exact MainMemory.byte_congr hPages hHost a
  · have hCopy :
        (s.mm.write ptr bytes).byte a = s.mm.byte a := by
      apply s.mm.byte_write_of_far bytes hPtr
      intro hNear
      exact hFar (hWritten a hNear)
    rw [← hCopy]
    exact
      @MainMemory.byte_congr (s.mm.write ptr bytes) t.mm
        hPages hHost a

/- A step changes no word whose bytes it does not write. -/
theorem load_step
    (len : AccessLen)
    (va : Ps3Uintptr)
    (hOrdinary : va.toNat < 0xe0000000)
    (hFar :
      ∀ a, distance va a < len.bytes → ¬ Writes s e a) :
    t.mm.load len va = s.mm.load len va := by
  have hLe := len.bytes_le
  have hPages := pages_step hStep
  have hPointer :
      t.mm.getMemoryPointer va = s.mm.getMemoryPointer va := by
    simp only [MainMemory.getMemoryPointer, hPages]
  rw [MainMemory.load_eq _ len va hOrdinary,
    MainMemory.load_eq _ len va hOrdinary, hPointer]
  cases hq : s.mm.getMemoryPointer va with
  | none => rfl
  | some q =>
      rcases host_step hStep with
        hHost | ⟨w, ptr, bytes, hPtr, hHost, hWritten⟩
      · rw [hHost]
      · have hRead :=
          s.mm.read_write_of_far bytes len.bytes hPtr hq
            (by omega) (fun a hIn hNear =>
              hFar a hIn (hWritten a hNear))
        simp only [Option.map_some, hHost, hRead]

end Agents

end Ps3emu
