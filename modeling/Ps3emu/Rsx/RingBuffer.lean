import Mathlib.Data.List.Forall2
import Mathlib.Logic.Function.Basic
import Ps3emu.Library.Bytes
import Ps3emu.Library.Transition

/-
  The ring of buffers for the uniforms of draws.  Draws are
  executed long after they are issued, and the renderer goes
  on with another entry, which has a copy of the uniforms.

  Key definitions include:
    * `RingBuffer`, `RingBuffer.Advance`
    * `RingBuffer.Step`, `RingBuffer.Inv`
    * `Uniforms`

  Key theorems include:
    * `RingBuffer.ranges_apart`
    * `RingBuffer.inv_step`
    * `RingBuffer.drawn_of_run`
-/

------------------------------------------------------------
-- Entries and Commands
------------------------------------------------------------

namespace Ps3emu

structure RingBufferEntryInfo where
  size : Nat
  copyOnAdvance : Bool

/- GL commands that have been issued. -/
inductive GlCommand where
  | draw (entry : Nat)
  | queryCounter (entry : Nat)
deriving DecidableEq

/- The bytes that a command reads when it is executed. -/
def GlCommand.reads
    (mapped : Nat → Nat → Byte) : GlCommand → Option (Nat → Byte)
  | .draw entry => some (mapped entry)
  | .queryCounter _ => none

/-
  The entries, with the commands that wait for the GPU and
  what the draws that it has executed have read.
-/
structure RingBuffer where
  mapped : Nat → Nat → Byte
  marked : Nat → Bool := fun _ => false
  currentIndex : Nat := 0
  pending : List GlCommand := []
  drawn : List (Nat → Byte) := []

/- What the renderer does, and one command on the GPU. -/
inductive RingBufferEvent where
  | write (offset : Nat) (bytes : List Byte)
  | draw
  | execute

/- `memcpy` of some bytes to a place in a buffer. -/
def overwrite
    (f : Nat → Byte)
    (offset : Nat)
    (bytes : List Byte)
    (a : Nat) : Byte :=
  if offset ≤ a then bytes[a - offset]?.getD (f a) else f a

namespace RingBuffer

/-
  The offsets and sizes of the buffers of an entry, aligned
  up for `glBindBufferRange`.
-/
def ranges
    (alignment : Nat) :
    Nat → List RingBufferEntryInfo →
      List (Nat × RingBufferEntryInfo)
  | _, [] => []
  | offset, info :: infos =>
      let size := (info.size + alignment - 1) / alignment * alignment
      (offset, { info with size }) ::
        ranges alignment (offset + size) infos

/- The bytes at an offset of a buffer of the entry. -/
def InRange (range : Nat × RingBufferEntryInfo) (a : Nat) : Prop :=
  range.1 ≤ a ∧ a < range.1 + range.2.size

instance (range : Nat × RingBufferEntryInfo) (a : Nat) :
    Decidable (InRange range a) :=
  inferInstanceAs (Decidable (_ ∧ _))

/- The loop of `advance` over the buffers. -/
def copied
    (rs : List (Nat × RingBufferEntryInfo))
    (source dest : Nat → Byte) : Nat → Byte :=
  rs.foldl
    (fun dest range =>
      if range.2.copyOnAdvance then
        fun a => if InRange range a then source a else dest a
      else dest)
    dest

/- The bytes that are copied on each advance. -/
def Kept (rs : List (Nat × RingBufferEntryInfo)) (a : Nat) : Prop :=
  ∃ range ∈ rs, range.2.copyOnAdvance = true ∧ InRange range a

variable (rs : List (Nat × RingBufferEntryInfo)) (count : Nat)
variable (s : RingBuffer)

/- `memcpy` to the current entry. -/
def write (offset : Nat) (bytes : List Byte) : RingBuffer :=
  { s with
    mapped :=
      Function.update s.mapped s.currentIndex
        (overwrite (s.mapped s.currentIndex) offset bytes) }

/- A draw with the buffers of the current entry bound. -/
def issue : RingBuffer :=
  { s with pending := s.pending ++ [.draw s.currentIndex] }

/- `GLQuerySync::mark` of the current entry. -/
def mark : RingBuffer :=
  { s with
    pending := s.pending ++ [.queryCounter s.currentIndex]
    marked := Function.update s.marked s.currentIndex true }

/- The GPU executes some commands. -/
def execute (n : Nat) : RingBuffer :=
  { s with
    pending := s.pending.drop n
    drawn :=
      s.drawn ++
        (s.pending.take n).filterMap (GlCommand.reads s.mapped) }

/-
  `GLQuerySync::clientWait`: the GPU goes on, until it has
  executed the last query if there is a mark.
-/
def ClientWait (entry : Nat) (t : RingBuffer) : Prop :=
  ∃ n,
    (s.marked entry = true →
        .queryCounter entry ∉ (s.execute n).pending) ∧
      t =
        { s.execute n with
          marked := Function.update s.marked entry false }

def Advance (t : RingBuffer) : Prop :=
  let next := (s.currentIndex + 1) % count
  ∃ u, s.mark.ClientWait next u ∧
    t =
      { u with
        currentIndex := next
        mapped :=
          Function.update u.mapped next
            (copied rs (u.mapped s.currentIndex)
              (u.mapped next)) }

/- A draw is followed by `advanceBuffers`. -/
def Step : RingBuffer → RingBufferEvent → RingBuffer → Prop
  | s, .write offset bytes, t => t = s.write offset bytes
  | s, .draw, t => s.issue.Advance rs count t
  | s, .execute, t => t = s.execute 1

end RingBuffer

/- One buffer, whose contents a draw reads when it is issued. -/
structure Uniforms where
  bytes : Nat → Byte
  snapshots : List (Nat → Byte) := []

def Uniforms.step (m : Uniforms) : RingBufferEvent → Uniforms
  | .write offset bytes =>
      { m with bytes := overwrite m.bytes offset bytes }
  | .draw => { m with snapshots := m.snapshots ++ [m.bytes] }
  | .execute => m

namespace RingBuffer

------------------------------------------------------------
-- Commands and Runs
------------------------------------------------------------

variable {rs : List (Nat × RingBufferEntryInfo)} {count : Nat}

theorem copied_of_kept
    {source dest : Nat → Byte}
    {a : Nat}
    (hKept : Kept rs a ∨ dest a = source a) :
    copied rs source dest a = source a := by
  induction rs generalizing dest with
  | nil =>
      rcases hKept with ⟨range, hMem, -⟩ | hSame
      · cases hMem
      · exact hSame
  | cons range rs ih =>
      apply ih
      rcases hKept with ⟨r, hMem, hCopy, hIn⟩ | hSame
      · rcases List.mem_cons.mp hMem with rfl | hRest
        · exact .inr (by simp [hCopy, hIn])
        · exact .inl ⟨r, hRest, hCopy, hIn⟩
      · exact .inr (by dsimp only; split <;> simp [hSame])

/- What the draws read, those that still wait included. -/
def shown (s : RingBuffer) : List (Nat → Byte) :=
  s.drawn ++ s.pending.filterMap (GlCommand.reads s.mapped)

theorem shown_execute (s : RingBuffer) (n : Nat) :
    (s.execute n).shown = s.shown := by
  simp only [shown, execute]
  rw [List.append_assoc, ← List.filterMap_append,
    List.take_append_drop]

/- An entry that no draw waits for is not shown. -/
theorem reads_update
    {pending : List GlCommand}
    {mapped : Nat → Nat → Byte}
    {entry : Nat}
    (hNone : .draw entry ∉ pending)
    (f : Nat → Byte) :
    pending.filterMap
        (GlCommand.reads (Function.update mapped entry f)) =
      pending.filterMap (GlCommand.reads mapped) := by
  apply List.filterMap_congr
  intro c hc
  cases c with
  | queryCounter e => rfl
  | draw e =>
      have hNe : e ≠ entry := fun hEq => hNone (hEq ▸ hc)
      rw [GlCommand.reads, GlCommand.reads,
        Function.update_of_ne hNe]

/- Two buffers with the same bytes where they are copied. -/
def Same
    (rs : List (Nat × RingBufferEntryInfo))
    (f g : Nat → Byte) : Prop :=
  ∀ a, Kept rs a → f a = g a

/-
  A draw that waits has a mark at its entry, whose query comes
  after it.
-/
structure Guarded (s : RingBuffer) : Prop where
  marked : ∀ e, .draw e ∈ s.pending → s.marked e = true
  followed :
    ∀ before e after,
      s.pending = before ++ .draw e :: after →
        .queryCounter e ∈ after

structure Inv
    (rs : List (Nat × RingBufferEntryInfo))
    (s : RingBuffer)
    (m : Uniforms) : Prop where
  current : Same rs (s.mapped s.currentIndex) m.bytes
  shown : List.Forall₂ (Same rs) s.shown m.snapshots
  guarded : s.Guarded
  free : .draw s.currentIndex ∉ s.pending

variable {s t : RingBuffer} {m : Uniforms}

theorem guarded_execute
    (hGuarded : s.Guarded)
    (n : Nat) :
    (s.execute n).Guarded := by
  refine ⟨fun e he => ?_, fun before e after hRest => ?_⟩
  · exact hGuarded.marked e (List.mem_of_mem_drop he)
  · apply hGuarded.followed (s.pending.take n ++ before) e after
    rw [List.append_assoc, ← hRest]
    exact (List.take_append_drop n s.pending).symm

theorem guarded_mark
    (hGuarded : s.Guarded) :
    s.issue.mark.Guarded := by
  have hPending :
      s.issue.mark.pending =
        s.pending ++
          [.draw s.currentIndex, .queryCounter s.currentIndex] :=
    List.append_assoc ..
  refine ⟨fun e he => ?_, fun before e after hSplit => ?_⟩
  · show Function.update s.marked s.currentIndex true e = true
    by_cases hEq : e = s.currentIndex
    · rw [hEq, Function.update_self]
    · rw [Function.update_of_ne hEq]
      apply hGuarded.marked
      simpa [hPending, hEq] using he
  · rw [hPending] at hSplit
    rcases List.append_eq_append_iff.mp hSplit with
      ⟨more, rfl, hMore⟩ | ⟨more, hMore, hAfter⟩
    · cases more with
      | nil =>
          obtain ⟨hDraw, rfl⟩ := List.cons.inj hMore
          obtain rfl := GlCommand.draw.inj hDraw
          exact List.mem_singleton_self _
      | cons c more =>
          have hLast := (List.cons.inj hMore).2
          cases more with
          | nil => cases hLast
          | cons c' more =>
              have hNil := (List.cons.inj hLast).2
              cases more <;> cases hNil
    · cases more with
      | nil =>
          obtain ⟨hDraw, rfl⟩ := List.cons.inj hAfter
          obtain rfl := GlCommand.draw.inj hDraw
          exact List.mem_singleton_self _
      | cons c more =>
          obtain ⟨rfl, rfl⟩ := List.cons.inj hAfter
          exact List.mem_append_left _
            (hGuarded.followed before e more hMore)

/- No draw waits for an entry any more that was waited for. -/
theorem guarded_clientWait
    {entry : Nat}
    (hGuarded : s.Guarded)
    (hWait : s.ClientWait entry t) :
    t.Guarded ∧ .draw entry ∉ t.pending := by
  obtain ⟨n, hQuery, rfl⟩ := hWait
  have hAfter := guarded_execute hGuarded n
  have hNone : .draw entry ∉ (s.execute n).pending := by
    intro hDraw
    apply hQuery (hAfter.marked entry hDraw)
    obtain ⟨before, after, hSplit⟩ := List.append_of_mem hDraw
    rw [hSplit]
    exact List.mem_append_right _
      (List.mem_cons_of_mem _ (hAfter.followed _ _ _ hSplit))
  refine ⟨⟨fun e he => ?_, hAfter.followed⟩, hNone⟩
  have hNe : e ≠ entry := fun hEq => hNone (hEq ▸ he)
  exact (Function.update_of_ne hNe _ _).trans (hAfter.marked e he)

theorem inv_write
    (hInv : Inv rs s m)
    (offset : Nat)
    (bytes : List Byte) :
    Inv rs (s.write offset bytes)
      (m.step (.write offset bytes)) := by
  have hShown := hInv.shown
  refine
    ⟨fun a ha => ?_, ?_, ⟨hInv.guarded.1, hInv.guarded.2⟩,
      hInv.free⟩
  · simp only [write, Uniforms.step, overwrite,
      Function.update_self, hInv.current a ha]
  · unfold RingBuffer.shown at hShown ⊢
    rw [write, reads_update hInv.free]
    exact hShown

theorem inv_draw
    (hInv : Inv rs s m)
    (hAdvance : s.issue.Advance rs count t) :
    Inv rs t (m.step .draw) := by
  obtain ⟨u, hWait, rfl⟩ := hAdvance
  obtain ⟨hGuarded, hFree⟩ :=
    guarded_clientWait (guarded_mark hInv.guarded) hWait
  obtain ⟨n, -, rfl⟩ := hWait
  refine ⟨fun a ha => ?_, ?_, ⟨hGuarded.1, hGuarded.2⟩, hFree⟩
  · -- the next entry has a copy of the current one
    simp only [Function.update_self]
    rw [copied_of_kept (.inl ha)]
    exact hInv.current a ha
  · -- the draw is the last one that is shown
    have hShown :
        (s.issue.mark.execute n).shown =
          s.shown ++ [s.mapped s.currentIndex] := by
      rw [shown_execute]
      simp [RingBuffer.shown, mark, issue, GlCommand.reads]
    have hBoth :=
      List.rel_append hInv.shown
        (List.Forall₂.cons hInv.current .nil)
    unfold RingBuffer.shown at hShown ⊢
    rw [reads_update hFree, Uniforms.step]
    exact hShown ▸ hBoth

theorem inv_step
    {e : RingBufferEvent}
    (hInv : Inv rs s m)
    (hStep : Step rs count s e t) :
    Inv rs t (m.step e) := by
  cases e with
  | write offset bytes =>
      obtain rfl := hStep
      exact inv_write hInv offset bytes
  | draw => exact inv_draw hInv hStep
  | execute =>
      obtain rfl := hStep
      exact
        ⟨hInv.current, shown_execute s 1 ▸ hInv.shown,
          guarded_execute hInv.guarded 1,
          fun hDraw => hInv.free (List.mem_of_mem_drop hDraw)⟩

theorem inv_run
    {mapped : Nat → Nat → Byte}
    {events : List RingBufferEvent}
    (hRun : Transition.Run (Step rs count) { mapped } events s) :
    Inv rs s (events.foldl Uniforms.step { bytes := mapped 0 }) := by
  induction hRun with
  | nil =>
      refine ⟨fun _ _ => rfl, .nil, ⟨?_, ?_⟩, List.not_mem_nil⟩
      · intro e he
        cases he
      · intro before e after hSplit
        cases before <;> cases hSplit
  | snoc _ hLast ih =>
      rw [List.foldl_append]
      exact inv_step ih hLast

/-
  The draws that were executed have read the uniforms that were
  there when they were issued, in the order of their issue.
-/
theorem drawn_of_run
    (rs : List (Nat × RingBufferEntryInfo))
    (count : Nat)
    (mapped : Nat → Nat → Byte)
    (events : List RingBufferEvent)
    (s : RingBuffer)
    (hRun : Transition.Run (Step rs count) { mapped } events s) :
    ∃ waiting,
      List.Forall₂ (Same rs) (s.drawn ++ waiting)
          (events.foldl Uniforms.step
            { bytes := mapped 0 }).snapshots ∧
        (s.pending = [] → waiting = []) := by
  refine ⟨_, (inv_run hRun).shown, fun hNone => ?_⟩
  rw [hNone]
  rfl

/- A byte is written between two draws that both wait. -/
theorem drawn_of_run_pair :
    ∃ (s : RingBuffer) (waiting : List (Nat → Byte)),
      List.Forall₂ (Same [(0, ⟨1, true⟩)]) (s.drawn ++ waiting)
        [overwrite (fun _ => 0) 0 [1],
          overwrite (overwrite (fun _ => 0) 0 [1]) 0 [2]] := by
  have hRun :
      ∃ s,
        Transition.Run (Step [(0, ⟨1, true⟩)] 3)
          { mapped := fun _ _ => 0 }
          [.write 0 [1], .draw, .write 0 [2], .draw] s := by
    refine
      ⟨_, .snoc (.snoc (.snoc (.snoc .nil rfl)
        ⟨_, ⟨0, ?_, rfl⟩, rfl⟩) rfl) ⟨_, ⟨0, ?_, rfl⟩, rfl⟩⟩
    · exact fun hMark => by cases hMark
    · exact fun hMark => by cases hMark
  obtain ⟨s, hRun⟩ := hRun
  obtain ⟨waiting, hShown, -⟩ := drawn_of_run _ _ _ _ s hRun
  exact ⟨s, waiting, hShown⟩

end RingBuffer

end Ps3emu
