import Ps3emu.Library.Transition
import Ps3emu.Spu.Channels

/-
  The atomic commands of the memory flow controller of an
  SPU, and the channel that reports their status.

  Key definitions include:
    * `Mfc`, `Mfc.command`
    * `Mfc.readAtomicStat`
    * `expected`

  Key theorems include:
    * `rdAtomicStat_of_run`
    * `reflected_iff`
-/

------------------------------------------------------------
-- Commands
------------------------------------------------------------

namespace Ps3emu

/-
  What the main memory does for the commands, on reservation
  granules of 128 bytes.  A failed assertion has no result.
-/
structure AtomicMemory (M : Type) where
  loadReserve : BitVec 32 → M → Option (List Byte × M)
  writeCond :
    Bool → BitVec 32 → List Byte → M → Option (Bool × M)

/- A controller, its memory and the local storage. -/
structure Mfc (M : Type) where
  memory : M
  ls : FlatMemory 18
  channels : SPUChannels := {}
  rdAtomicStat : BitVec 32 := 0

inductive AtomicOpcode where
  | getllar
  | putllc
  | putlluc
deriving DecidableEq

def AtomicOpcode.ofWord
    (word : BitVec 16) : Option AtomicOpcode :=
  if word = 0x00d0#16 then some .getllar
  else if word = 0x00b4#16 then some .putllc
  else if word = 0x00b0#16 then some .putlluc
  else none

/- An atomic command that is done. -/
inductive Completed where
  | getllar
  | putllc (stored : Bool)
  | putlluc
deriving DecidableEq

/- The parameters of a command. -/
inductive MfcParam where
  | lsa
  | eah
  | eal
  | size
  | tagId
deriving DecidableEq

/- The arithmetic wraps, as that of the host does. -/
def subset (sub sublen a alen : BitVec 32) : Bool :=
  decide (a ≤ sub) && decide (sub + sublen ≤ a + alen)

namespace Mfc

variable {M : Type}

def setParam
    (param : MfcParam)
    (data : BitVec 32)
    (s : Mfc M) : Mfc M :=
  let c := s.channels
  { s with
    channels :=
      match param with
      | .lsa => { c with mfcLsa := data }
      | .eah => { c with mfcEah := data }
      | .eal => { c with mfcEal := data }
      | .size => { c with mfcSize := data }
      | .tagId => { c with mfcTagId := data } }

/-
  The atomic part of `SPUChannels::command`.  The tag and
  class identifiers above the opcode have to be zero.
-/
def command
    (mm : AtomicMemory M)
    (word : BitVec 32)
    (s : Mfc M) : Option (Mfc M × Completed) := do
  guard (word >>> 16 = 0#32)
  guard (s.channels.mfcEah = 0#32)
  let eal := s.channels.mfcEal
  let lsaVa := s.channels.mfcLsa &&& lslr
  let size := s.channels.mfcSize
  guard (subset lsaVa size 0#32
    (BitVec.ofNat 32 localStorageSize))
  let lsa := lsaVa.setWidth 18
  let opcode ← AtomicOpcode.ofWord (word.setWidth 16)
  match opcode with
  | .getllar =>
      guard (size ≤ 0x80#32)
      let (buf, memory) ←
        mm.loadReserve (eal &&& 0xffffff80#32) s.memory
      some
        ({ s with
            memory
            ls := s.ls.set lsa (buf.take size.toNat)
            rdAtomicStat := s.rdAtomicStat ||| 0b100#32 },
          .getllar)
  | .putllc =>
      guard (size ≤ 0x80#32)
      let (stored, memory) ←
        mm.writeCond false (eal &&& 0xffffff80#32)
          (s.ls.get lsa 128) s.memory
      some
        ({ s with
            memory
            rdAtomicStat :=
              s.rdAtomicStat |||
                (BitVec.ofBool (!stored)).setWidth 32 },
          .putllc stored)
  | .putlluc =>
      let (_, memory) ←
        mm.writeCond true eal (s.ls.get lsa 128) s.memory
      some
        ({ s with
            memory
            rdAtomicStat := s.rdAtomicStat ||| 0b010#32 },
          .putlluc)

/- Reading the channel clears it. -/
def readAtomicStat (s : Mfc M) : Mfc M × BitVec 32 :=
  ({ s with rdAtomicStat := 0 }, s.rdAtomicStat)

end Mfc

------------------------------------------------------------
-- Runs and Architecture
------------------------------------------------------------

/- What is seen of a step. -/
inductive MfcEvent where
  | completed (command : Completed)
  | read (value : BitVec 32)
  | other
deriving DecidableEq

/-
  The steps of a controller.  Between them the program and
  other processors change the local storage and the memory.
-/
inductive MfcStep
    {M : Type}
    (mm : AtomicMemory M) :
    Mfc M → MfcEvent → Mfc M → Prop where
  | command
      {s t : Mfc M}
      {word : BitVec 32}
      {c : Completed}
      (hCommand : s.command mm word = some (t, c)) :
      MfcStep mm s (.completed c) t
  | read (s : Mfc M) :
      MfcStep mm s (.read s.readAtomicStat.2)
        s.readAtomicStat.1
  | setParam
      (s : Mfc M)
      (param : MfcParam)
      (data : BitVec 32) :
      MfcStep mm s .other (s.setParam param data)
  | interfere
      (s : Mfc M)
      (memory : M)
      (ls : FlatMemory 18) :
      MfcStep mm s .other { s with memory, ls }

/- The status of a command: done, done, or that it failed. -/
def Completed.status : Completed → BitVec 32
  | .getllar => 0b100#32
  | .putlluc => 0b010#32
  | .putllc stored => if stored then 0#32 else 1#32

/- The commands since the status was last read. -/
def unread : List MfcEvent → List Completed :=
  List.foldl
    (fun commands event =>
      match event with
      | .completed c => commands ++ [c]
      | .read _ => []
      | .other => commands)
    []

/- The status of the most recent command of those. -/
def expected (events : List MfcEvent) : BitVec 32 :=
  match (unread events).getLast? with
  | some c => c.status
  | none => 0#32

/- Every read returns what is expected. -/
def Reflected (events : List MfcEvent) : Prop :=
  ∀ before value after,
    events = before ++ .read value :: after →
      value = expected before

/-
  At every read, no unread command has another status than
  the last one, unless its status is zero.
-/
def Separate (events : List MfcEvent) : Prop :=
  ∀ before value after,
    events = before ++ .read value :: after →
      ∀ c ∈ unread before,
        c.status = 0#32 ∨ c.status = expected before

------------------------------------------------------------
-- Accumulated Status
------------------------------------------------------------

/- The status bits of some commands. -/
def statusBits : List Completed → BitVec 32
  | [] => 0#32
  | c :: rest => c.status ||| statusBits rest

theorem statusBits_append
    (commands : List Completed)
    (c : Completed) :
    statusBits (commands ++ [c]) =
      statusBits commands ||| c.status := by
  induction commands with
  | nil =>
      exact (BitVec.or_zero).trans (BitVec.zero_or).symm
  | cons d rest hRest =>
      rw [List.cons_append, statusBits, hRest, statusBits,
        BitVec.or_assoc]

theorem or_eq_of_or_or_eq
    {w : Nat}
    {a b x : BitVec w}
    (hBoth : (a ||| b) ||| x = x) :
    a ||| x = x := by
  calc
    a ||| x = a ||| ((a ||| b) ||| x) := by rw [hBoth]
    _ = (a ||| b) ||| x := by
        rw [← BitVec.or_assoc, ← BitVec.or_assoc,
          BitVec.or_self]
    _ = x := hBoth

/- Bits that are all in a value leave it as it is. -/
theorem or_or_eq_iff
    {w : Nat}
    (a b x : BitVec w) :
    (a ||| b) ||| x = x ↔ a ||| x = x ∧ b ||| x = x := by
  constructor
  · intro hBoth
    refine ⟨or_eq_of_or_or_eq hBoth, ?_⟩
    rw [BitVec.or_comm a b] at hBoth
    exact or_eq_of_or_or_eq hBoth
  · rintro ⟨hA, hB⟩
    rw [BitVec.or_assoc, hB, hA]

theorem statusBits_or_eq_iff
    (commands : List Completed)
    (x : BitVec 32) :
    statusBits commands ||| x = x ↔
      ∀ c ∈ commands, c.status ||| x = x := by
  induction commands with
  | nil => simp [statusBits]
  | cons c rest hRest =>
      rw [statusBits, or_or_eq_iff, hRest,
        List.forall_mem_cons]

/- A status is one bit or none. -/
theorem status_or_eq_iff (c d : Completed) :
    c.status ||| d.status = d.status ↔
      c.status = 0#32 ∨ c.status = d.status := by
  cases c with
  | getllar =>
      cases d with
      | putllc stored => cases stored <;> decide
      | getllar | putlluc => decide
  | putlluc =>
      cases d with
      | putllc stored => cases stored <;> decide
      | getllar | putlluc => decide
  | putllc stored =>
      cases d with
      | putllc stored' =>
          cases stored <;> cases stored' <;> decide
      | getllar | putlluc => cases stored <;> decide

/- All bits together are those of the last command. -/
theorem statusBits_eq_iff
    (commands : List Completed)
    (d : Completed) :
    statusBits (commands ++ [d]) = d.status ↔
      ∀ c ∈ commands ++ [d],
        c.status = 0#32 ∨ c.status = d.status := by
  rw [statusBits_append, statusBits_or_eq_iff]
  constructor
  · intro hAll c hC
    rcases List.mem_append.mp hC with hOld | hNew
    · exact (status_or_eq_iff c d).mp (hAll c hOld)
    · rw [List.mem_singleton.mp hNew]
      exact .inr rfl
  · intro hAll c hC
    exact (status_or_eq_iff c d).mpr
      (hAll c (List.mem_append_left _ hC))

/- The bits of unread commands, against what is expected. -/
theorem statusBits_unread_iff (events : List MfcEvent) :
    statusBits (unread events) = expected events ↔
      ∀ c ∈ unread events,
        c.status = 0#32 ∨ c.status = expected events := by
  unfold expected
  rcases List.eq_nil_or_concat (unread events) with
    hNil | ⟨commands, d, hLast⟩
  · rw [hNil]
    exact iff_of_true rfl nofun
  · rw [hLast, List.concat_eq_append, List.getLast?_concat]
    exact statusBits_eq_iff commands d

------------------------------------------------------------
-- Runs
------------------------------------------------------------

section Run

open Transition

variable {M : Type} {mm : AtomicMemory M}

/- A command adds its status. -/
theorem Mfc.command_rdAtomicStat
    {word : BitVec 32}
    {s t : Mfc M}
    {c : Completed}
    (hCommand : s.command mm word = some (t, c)) :
    t.rdAtomicStat = s.rdAtomicStat ||| c.status := by
  unfold Mfc.command at hCommand
  simp only [Option.bind_eq_bind, Option.bind_eq_some_iff]
    at hCommand
  rcases hCommand with
    ⟨-, -, -, -, -, -, opcode, -, hBody⟩
  cases opcode with
  | getllar =>
      simp only [Option.bind_eq_some_iff] at hBody
      rcases hBody with ⟨-, -, ⟨buf, memory⟩, -, hDone⟩
      cases hDone
      rfl
  | putllc =>
      simp only [Option.bind_eq_some_iff] at hBody
      rcases hBody with ⟨-, -, ⟨stored, memory⟩, -, hDone⟩
      cases hDone
      cases stored <;> rfl
  | putlluc =>
      simp only [Option.bind_eq_some_iff] at hBody
      rcases hBody with ⟨⟨stored, memory⟩, -, hDone⟩
      cases hDone
      rfl

/- The channel holds the status of the unread commands. -/
theorem rdAtomicStat_of_run
    {start finish : Mfc M}
    {events : List MfcEvent}
    (hRun : Run (MfcStep mm) start events finish)
    (hStart : start.rdAtomicStat = 0) :
    finish.rdAtomicStat = statusBits (unread events) := by
  induction hRun with
  | nil => exact hStart
  | snoc _ hLast ih =>
      unfold unread at ih ⊢
      rw [List.foldl_append]
      cases hLast with
      | command hCommand =>
          rw [Mfc.command_rdAtomicStat hCommand, ih]
          exact (statusBits_append _ _).symm
      | read => rfl
      | setParam => exact ih
      | interfere => exact ih

/-
  What is read is expected, exactly if every read has
  nothing left over from an earlier command.
-/
theorem reflected_iff
    (mm : AtomicMemory M)
    (memory : M)
    (ls : FlatMemory 18)
    (events : List MfcEvent)
    (finish : Mfc M)
    (hRun : Run (MfcStep mm) { memory, ls } events finish) :
    Reflected events ↔ Separate events := by
  -- Every value that is read is the status of all unread.
  have hRead :
      ∀ before value after,
        events = before ++ .read value :: after →
          value = statusBits (unread before) := by
    intro before value after hEvents
    rw [hEvents] at hRun
    rcases hRun.step_of_mem with ⟨s, t, hBefore, hStep⟩
    cases hStep
    exact rdAtomicStat_of_run hBefore rfl
  constructor
  · intro hReflected before value after hEvents
    rw [← statusBits_unread_iff,
      ← hRead before value after hEvents]
    exact hReflected before value after hEvents
  · intro hSeparate before value after hEvents
    rw [hRead before value after hEvents,
      statusBits_unread_iff]
    exact hSeparate before value after hEvents

end Run

/- A memory that only has a reservation to keep. -/
def oneReservation : AtomicMemory Bool where
  loadReserve _ _ := some (List.replicate 128 0, true)
  writeCond uncond _ _ reserved :=
    some (uncond || reserved, false)

/- A reservation whose status is read. -/
theorem reflected_iff_getllar :
    Reflected
        [.other, .completed .getllar,
          .read 0b100#32] ↔
      Separate
        [.other, .completed .getllar,
          .read 0b100#32] :=
  reflected_iff oneReservation false (fun _ => 0) _ _
    (.snoc
      (.snoc (.snoc .nil (.setParam _ .size 0x80#32))
        (@MfcStep.command _ _ _ _ 0xd0#32 _ rfl))
      (.read _))

/-
  A command that fails and one that succeeds, with nothing
  read between them: the second one looks failed.
-/
theorem putllc_not_reflected :
    ¬ ∀ (mm : AtomicMemory Bool)
        (memory : Bool)
        (ls : FlatMemory 18)
        (events : List MfcEvent)
        (finish : Mfc Bool),
        Transition.Run (MfcStep mm) { memory, ls } events
            finish →
          Reflected events := by
  intro hAll
  have hReflected :=
    hAll oneReservation false (fun _ => 0)
      [.completed (.putllc false), .completed .getllar,
        .completed (.putllc true), .read 0b101#32]
      _
      (.snoc
        (.snoc
          (.snoc
            (.snoc .nil
              (@MfcStep.command _ _ _ _ 0xb4#32 _ rfl))
            (@MfcStep.command _ _ _ _ 0xd0#32 _ rfl))
          (@MfcStep.command _ _ _ _ 0xb4#32 _ rfl))
        (.read _))
  have hRead :=
    hReflected
      [.completed (.putllc false), .completed .getllar,
        .completed (.putllc true)]
      0b101#32 [] rfl
  revert hRead
  decide

end Ps3emu
