import Ps3emu.Spu.Channels
import Ps3emu.Sync.ConcurrentBoundedQueue

/-
  The mailboxes of an SPU, which the SPU reaches through its
  channels and the PPU through memory-mapped registers.

  Key definitions include:
    * `Mailboxes`, `Mailboxes.Step`
    * `Mailboxes.slots`
    * `MailCall.target`, `MailCall.answer`

  Key theorems include:
    * `Mailboxes.items_of_run`
    * `Mailboxes.answer_of_step`
    * `Mailboxes.sample_of_run`
    * `Mailboxes.mailboxes_of_run`
-/

------------------------------------------------------------
-- Mailboxes
------------------------------------------------------------

namespace Ps3emu

open Transition

inductive Mailbox where
  | outbound
  | outboundInterrupt
  | inbound
deriving DecidableEq

namespace Mailbox

def capacity : Mailbox → Nat
  | outbound => 1
  | outboundInterrupt => 1
  | inbound => 4

/- The register of the mailbox. -/
def tag : Mailbox → TagClassId
  | outbound => .spuOutMBox
  | outboundInterrupt => .spuOutIntrMbox
  | inbound => .spuInMBox

end Mailbox

------------------------------------------------------------
-- Calls and Steps
------------------------------------------------------------

def SPU_WrOutMbox : Nat := 28
def SPU_RdInMbox : Nat := 29
def SPU_WrOutIntrMbox : Nat := 30

/- The calls of `SPUChannels` that use one mailbox. -/
inductive MailCall where
  | readCount (ch : Nat)
  | write (ch : Nat) (data : BitVec 32)
  | read (ch : Nat)
  | mmioWrite (offset : Nat) (data : BitVec 64)
  | mmioRead (offset : Nat)
  | mmioReadCount (offset : Nat)
  | silentlyWriteInterruptMbox (value : BitVec 32)
deriving DecidableEq

namespace MailCall

/-
  The mailbox of a call, and what the call does with it.  A
  write to the interrupt mailbox throws; the value is written
  silently by the thread that catches the exception.
-/
def target :
    MailCall → Option (Mailbox × BoundedQueue.Op (BitVec 32))
  | readCount ch =>
      if ch = SPU_WrOutMbox then some (.outbound, .size)
      else if ch = SPU_RdInMbox then some (.inbound, .size)
      else if ch = SPU_WrOutIntrMbox then
        some (.outboundInterrupt, .size)
      else none
  | write ch data =>
      if ch = SPU_WrOutMbox then
        some (.outbound, .enqueue data)
      else none
  | read ch =>
      if ch = SPU_RdInMbox then some (.inbound, .dequeue)
      else none
  | mmioWrite offset data =>
      match TagClassId.ofOffset offset with
      | some .spuInMBox =>
          some (.inbound, .enqueue (data.setWidth 32))
      | _ => none
  | mmioRead offset =>
      match TagClassId.ofOffset offset with
      | some .spuOutMBox => some (.outbound, .dequeue)
      | some .spuOutIntrMbox =>
          some (.outboundInterrupt, .dequeue)
      | _ => none
  | mmioReadCount offset =>
      match TagClassId.ofOffset offset with
      | some .spuOutMBox => some (.outbound, .size)
      | some .spuOutIntrMbox =>
          some (.outboundInterrupt, .size)
      | some .spuInMBox => some (.inbound, .size)
      | _ => none
  | silentlyWriteInterruptMbox value =>
      some (.outboundInterrupt, .enqueue value)

/- What a call makes of the answer of its queue. -/
def answer :
    MailCall → BoundedQueue.Value (BitVec 32) → BitVec 32
  | readCount ch, .counted size =>
      if ch = SPU_RdInMbox then BitVec.ofNat 32 size
      else 1 - BitVec.ofNat 32 size
  | mmioReadCount offset, .counted size =>
      if TagClassId.ofOffset offset = some .spuInMBox then
        4 - BitVec.ofNat 32 size
      else BitVec.ofNat 32 size
  | _, .taken value => value
  | _, _ => 0

end MailCall

/- The register `SPU_MBox_Status`. -/
def mboxStatus (intr free out : BitVec 32) : BitVec 32 :=
  intr <<< 16 ||| free <<< 8 ||| out

/-
  Each mailbox has its own lock.  A read of the status calls
  `mmio_readCount` for each mailbox, in an order that is not
  specified; `samples` has the counts it has so far.
-/
structure Mailboxes (T : Type) where
  box : Mailbox → BoundedQueue.State T (BitVec 32) :=
    fun _ => Monitor.start []
  samples : T → Mailbox → Option (BitVec 32) :=
    fun _ _ => none

namespace Mailboxes

inductive Event (T : Type) where
  | access
      (thread : T)
      (call : MailCall)
      (move : Monitor.Move)
      (value : Option (BitVec 32))
  | sample (thread : T) (box : Mailbox) (count : BitVec 32)
  | status (thread : T) (word : BitVec 32)
deriving DecidableEq

variable {T : Type}

/- The thread is in no call that uses a mailbox. -/
def Free (s : Mailboxes T) (thread : T) : Prop :=
  ∀ box, (s.box box).phase thread = .outside

variable [DecidableEq T]

def put
    (s : Mailboxes T)
    (box : Mailbox)
    (t : BoundedQueue.State T (BitVec 32)) : Mailboxes T :=
  { s with box := Function.update s.box box t }

def take
    (s : Mailboxes T)
    (thread : T)
    (box : Mailbox)
    (count : BitVec 32) : Mailboxes T :=
  { s with
    samples :=
      Function.update s.samples thread
        (Function.update (s.samples thread) box (some count)) }

def finish (s : Mailboxes T) (thread : T) : Mailboxes T :=
  { s with
    samples :=
      Function.update s.samples thread (fun _ => none) }

inductive Step
    (s : Mailboxes T) : Event T → Mailboxes T → Prop where
  | access
      {thread : T}
      {call : MailCall}
      {move : Monitor.Move}
      {box : Mailbox}
      {op : BoundedQueue.Op (BitVec 32)}
      {value : Option (BoundedQueue.Value (BitVec 32))}
      {t : BoundedQueue.State T (BitVec 32)} :
      call.target = some (box, op) →
      (move = .call →
        s.Free thread ∧ ∀ b, s.samples thread b = none) →
      (BoundedQueue.queue T (BitVec 32) box.capacity).Step
        (s.box box) ⟨thread, op, move, value⟩ t →
      Step s (.access thread call move (value.map call.answer))
        (s.put box t)
  | sample
      {thread : T}
      {box : Mailbox}
      {value : BoundedQueue.Value (BitVec 32)}
      {t : BoundedQueue.State T (BitVec 32)} :
      s.Free thread →
      s.samples thread box = none →
      (BoundedQueue.queue T (BitVec 32) box.capacity).Step
        (s.box box) ⟨thread, .size, .call, some value⟩ t →
      Step s
        (.sample thread box
          (MailCall.answer (.mmioReadCount box.tag.offset)
            value))
        ((s.put box t).take thread box
          (MailCall.answer (.mmioReadCount box.tag.offset)
            value))
  | status {thread : T} {intr free out : BitVec 32} :
      s.samples thread .outboundInterrupt = some intr →
      s.samples thread .inbound = some free →
      s.samples thread .outbound = some out →
      Step s (.status thread (mboxStatus intr free out))
        (s.finish thread)

inductive Side where
  | spu
  | ppu
deriving DecidableEq

/- The side that reads a mailbox; the other one writes it. -/
def reader : Mailbox → Side
  | .outbound => .ppu
  | .outboundInterrupt => .ppu
  | .inbound => .spu

def items (s : Mailboxes T) (box : Mailbox) :
    List (BitVec 32) :=
  (s.box box).shared

/- The used slots for the reader, the free ones for the other. -/
def count (side : Side) (box : Mailbox) (size : Nat) : Nat :=
  if reader box = side then size else box.capacity - size

def slots (s : Mailboxes T) (side : Side) (box : Mailbox) :
    Nat :=
  count side box (s.items box).length

/- The value that an event puts into a mailbox. -/
def accepted (box : Mailbox) : Event T → List (BitVec 32)
  | .access _ call _ (some _) =>
      match call.target with
      | some (b, .enqueue value) =>
          if b = box then [value] else []
      | _ => []
  | _ => []

/- The value that an event takes out of it. -/
def delivered (box : Mailbox) : Event T → List (BitVec 32)
  | .access _ call _ (some value) =>
      match call.target with
      | some (b, .dequeue) => if b = box then [value] else []
      | _ => []
  | _ => []

/- The field of a mailbox in the status register. -/
def field (word : BitVec 32) : Mailbox → BitVec 32
  | .outboundInterrupt => word >>> 16 &&& 0xff
  | .inbound => word >>> 8 &&& 0xff
  | .outbound => word &&& 0xff

omit [DecidableEq T] in
theorem items_put_self
    (s : Mailboxes T)
    (box : Mailbox)
    (t : BoundedQueue.State T (BitVec 32)) :
    (s.put box t).items box = t.shared := by
  unfold items put
  dsimp only
  rw [Function.update_self]

omit [DecidableEq T] in
theorem items_put_of_ne
    (s : Mailboxes T)
    {box other : Mailbox}
    (hOther : other ≠ box)
    (t : BoundedQueue.State T (BitVec 32)) :
    (s.put box t).items other = s.items other := by
  unfold items put
  dsimp only
  rw [Function.update_of_ne hOther]

------------------------------------------------------------
-- Contents
------------------------------------------------------------

omit [DecidableEq T] in
variable {thread : T} {op : BoundedQueue.Op (BitVec 32)}
variable {move : Monitor.Move}
variable {call : MailCall}

/- The values of an access are those of its queue. -/
theorem accepted_access
    (box : Mailbox)
    {b : Mailbox}
    {value : Option (BoundedQueue.Value (BitVec 32))}
    (hTarget : call.target = some (b, op)) :
    accepted box
        (.access thread call move (value.map call.answer)) =
      if b = box then
        BoundedQueue.accepted
          (⟨thread, op, move, value⟩ :
            BoundedQueue.Event T (BitVec 32))
      else [] := by
  cases value with
  | none =>
      cases op with
      | _ => exact (ite_self []).symm
  | some v =>
      unfold accepted
      rw [Option.map_some]
      dsimp only
      rw [hTarget]
      cases op with
      | enqueue value => rfl
      | dequeue => exact (ite_self []).symm
      | size => exact (ite_self []).symm

theorem delivered_access
    (box : Mailbox)
    {b : Mailbox}
    {value : Option (BoundedQueue.Value (BitVec 32))}
    {capacity : Nat}
    {s t : BoundedQueue.State T (BitVec 32)}
    (hTarget : call.target = some (b, op))
    (hStep :
      (BoundedQueue.queue T (BitVec 32) capacity).Step s
        ⟨thread, op, move, value⟩ t) :
    delivered box
        (.access thread call move (value.map call.answer)) =
      if b = box then
        BoundedQueue.delivered
          (⟨thread, op, move, value⟩ :
            BoundedQueue.Event T (BitVec 32))
      else [] := by
  cases value with
  | none => exact (ite_self []).symm
  | some v =>
      have hAnswers := BoundedQueue.answers_of_step hStep
      unfold delivered
      rw [Option.map_some]
      dsimp only
      rw [hTarget]
      cases op with
      | enqueue value =>
          cases v with
          | queued => exact (ite_self []).symm
          | taken value => cases hAnswers
          | counted size => cases hAnswers
      | dequeue =>
          cases v with
          | queued => cases hAnswers
          | taken value =>
              cases call with
              | _ => rfl
          | counted size => cases hAnswers
      | size =>
          cases v with
          | queued => cases hAnswers
          | taken value => cases hAnswers
          | counted size => exact (ite_self []).symm

variable {e : Event T}

/- An event moves values through each mailbox in order. -/
theorem items_of_step
    {s t : Mailboxes T}
    (hStep : Step s e t)
    (box : Mailbox) :
    s.items box ++ accepted box e =
      delivered box e ++ t.items box := by
  cases hStep with
  | @access thread call move b op value t hTarget _ hSection =>
      rw [accepted_access box hTarget,
        delivered_access box hTarget hSection]
      by_cases hBox : b = box
      · rw [if_pos hBox, if_pos hBox, ← hBox, items_put_self]
        exact BoundedQueue.items_of_step hSection
      · rw [if_neg hBox, if_neg hBox,
          items_put_of_ne _ (Ne.symm hBox)]
        exact List.append_nil _
  | @sample thread b value t _ _ hSection =>
      have hSize := (BoundedQueue.size_of_step hSection).2
      by_cases hBox : b = box
      · rw [← hBox]
        change s.items b ++ [] = (s.put b t).items b
        rw [items_put_self, hSize, List.append_nil]
        rfl
      · change s.items box ++ [] = (s.put b t).items box
        rw [items_put_of_ne _ (Ne.symm hBox), List.append_nil]
  | status => exact List.append_nil _

/- No mailbox holds more than its capacity. -/
theorem length_of_step
    {s t : Mailboxes T}
    (hLe : ∀ box, (s.items box).length ≤ box.capacity)
    (hStep : Step s e t)
    (box : Mailbox) :
    (t.items box).length ≤ box.capacity := by
  have hPut :
      ∀ b u q,
        (BoundedQueue.queue T (BitVec 32)
          (Mailbox.capacity b)).Step (s.box b) u q →
          ((s.put b q).items box).length ≤ box.capacity := by
    intro b u q hSection
    by_cases hBox : b = box
    · rw [← hBox, items_put_self]
      exact BoundedQueue.keeps_length.step (hLe b) hSection
    · rw [items_put_of_ne _ (Ne.symm hBox)]
      exact hLe box
  cases hStep with
  | access _ _ hSection => exact hPut _ _ _ hSection
  | sample _ _ hSection => exact hPut _ _ _ hSection
  | status => exact hLe box

variable {events : List (Event T)} {t : Mailboxes T}

theorem length_of_run
    (hRun : Run Step {} events t)
    (box : Mailbox) :
    (t.items box).length ≤ box.capacity :=
  hRun.invariant
    (fun s => ∀ box, (s.items box).length ≤ box.capacity)
    (fun _ _ _ hLe hStep => length_of_step hLe hStep)
    (fun _ => Nat.zero_le _) box

------------------------------------------------------------
-- Counts
------------------------------------------------------------

theorem toNat_size
    {size : Nat}
    (hLe : size ≤ 4) :
    (BitVec.ofNat 32 size).toNat = size := by
  rw [BitVec.toNat_ofNat]
  omega

theorem toNat_free
    {capacity size : Nat}
    (hLe : size ≤ capacity)
    (hSmall : capacity ≤ 4) :
    (BitVec.ofNat 32 capacity - BitVec.ofNat 32 size).toNat =
      capacity - size := by
  rw [BitVec.toNat_sub, toNat_size (hLe.trans hSmall),
    toNat_size hSmall]
  omega

variable {box : Mailbox}

/- The channel interface counts for the SPU. -/
theorem answer_readCount
    {ch size : Nat}
    (hTarget :
      (MailCall.readCount ch).target = some (box, op))
    (hLe : size ≤ box.capacity) :
    (MailCall.answer (.readCount ch) (.counted size)).toNat =
      count .spu box size := by
  unfold MailCall.target at hTarget
  dsimp only at hTarget
  unfold MailCall.answer
  dsimp only
  split at hTarget
  case isTrue hOut =>
    cases hTarget
    rw [hOut, if_neg (by decide)]
    exact toNat_free hLe (by decide)
  case isFalse =>
    split at hTarget
    case isTrue hIn =>
      cases hTarget
      rw [if_pos hIn]
      exact toNat_size hLe
    case isFalse hIn =>
      split at hTarget
      case isTrue =>
        cases hTarget
        rw [if_neg hIn]
        exact toNat_free hLe (by decide)
      case isFalse => cases hTarget

/- The memory-mapped registers count for the PPU. -/
theorem answer_mmioReadCount
    {offset size : Nat}
    (hTarget :
      (MailCall.mmioReadCount offset).target = some (box, op))
    (hLe : size ≤ box.capacity) :
    (MailCall.answer (.mmioReadCount offset)
        (.counted size)).toNat =
      count .ppu box size := by
  unfold MailCall.target at hTarget
  dsimp only at hTarget
  unfold MailCall.answer
  dsimp only
  split at hTarget
  case h_1 hTag =>
    cases hTarget
    rw [hTag, if_neg (by decide)]
    exact toNat_size (hLe.trans (by decide))
  case h_2 hTag =>
    cases hTarget
    rw [hTag, if_neg (by decide)]
    exact toNat_size (hLe.trans (by decide))
  case h_3 hTag =>
    cases hTarget
    rw [if_pos hTag]
    exact toNat_free hLe (by decide)
  case h_4 => cases hTarget

theorem target_tag (box : Mailbox) :
    (MailCall.mmioReadCount box.tag.offset).target =
      some (box, .size) := by
  unfold MailCall.target
  dsimp only
  rw [TagClassId.ofOffset_offset]
  cases box with
  | _ => rfl

variable {value : BitVec 32}

/- A call that counts answers with the size of its mailbox. -/
theorem answer_of_access
    {s t : Mailboxes T}
    (hTarget : call.target = some (box, .size))
    (hStep : Step s (.access thread call move (some value)) t) :
    value = call.answer (.counted (s.items box).length) := by
  generalize hEvent :
    Event.access thread call move (some value) = e at hStep
  cases hStep with
  | @access thread' call' move' b op result u hOwn _ hSection =>
      injection hEvent with hThread hCall hMove hValue
      rw [← hCall, hTarget] at hOwn
      cases hOwn
      rw [(BoundedQueue.size_of_step hSection).1] at hValue
      rw [hCall]
      exact Option.some.inj hValue
  | sample => cases hEvent
  | status => cases hEvent

theorem count_of_sample
    {s t : Mailboxes T}
    (hLe : ∀ box, (s.items box).length ≤ box.capacity)
    (hStep : Step s (.sample thread box value) t) :
    value.toNat = s.slots .ppu box := by
  generalize hEvent : Event.sample thread box value = e at hStep
  cases hStep with
  | access => cases hEvent
  | @sample thread' b result u _ _ hSection =>
      injection hEvent with hThread hBox hValue
      rw [Option.some.inj (BoundedQueue.size_of_step hSection).1]
        at hValue
      rw [hValue, hBox]
      exact answer_mmioReadCount (target_tag b) (hLe b)
  | status => cases hEvent

------------------------------------------------------------
-- Status
------------------------------------------------------------

theorem fields_of_small :
    ∀ intr free out : Fin 5,
      let word :=
        mboxStatus (BitVec.ofNat 32 intr) (BitVec.ofNat 32 free)
          (BitVec.ofNat 32 out)
      field word .outboundInterrupt = BitVec.ofNat 32 intr ∧
        field word .inbound = BitVec.ofNat 32 free ∧
        field word .outbound = BitVec.ofNat 32 out := by
  decide

omit [DecidableEq T] in
theorem slots_le
    {s : Mailboxes T}
    (hLe : ∀ box, (s.items box).length ≤ box.capacity)
    (side : Side)
    (box : Mailbox) :
    s.slots side box < 5 := by
  have hCapacity : box.capacity ≤ 4 := by
    cases box with
    | _ => decide
  have hItems := hLe box
  unfold slots count
  split
  case isTrue => omega
  case isFalse => omega

/- What a sample of a thread has found, and when. -/
def Sampled
    (events : List (Event T))
    (thread : T)
    (box : Mailbox)
    (value : BitVec 32) : Prop :=
  ∃ before after s,
    events = before ++ .sample thread box value :: after ∧
      (∀ word, .status thread word ∉ after) ∧
      Run Step {} before s ∧ value.toNat = s.slots .ppu box

/- A sample is kept until the read of the status returns. -/
theorem samples_of_step
    {s t : Mailboxes T}
    (hStep : Step s e t)
    (hSample : t.samples thread box = some value) :
    e = .sample thread box value ∨
      (s.samples thread box = some value ∧
        ∀ word, e ≠ .status thread word) := by
  cases hStep with
  | access => exact .inr ⟨hSample, fun _ hEvent => by cases hEvent⟩
  | @sample other b result u hFree hNew hSection =>
      unfold take at hSample
      dsimp only at hSample
      by_cases hThread : thread = other
      · rw [hThread, Function.update_self] at hSample
        by_cases hBox : box = b
        · rw [hBox, Function.update_self] at hSample
          left
          rw [hThread, hBox, Option.some.inj hSample]
        · rw [Function.update_of_ne hBox] at hSample
          rw [hThread]
          exact .inr ⟨hSample, fun _ hEvent => by cases hEvent⟩
      · rw [Function.update_of_ne hThread] at hSample
        exact .inr ⟨hSample, fun _ hEvent => by cases hEvent⟩
  | @status other intr free out hIntr hFree hOut =>
      unfold finish at hSample
      dsimp only at hSample
      by_cases hThread : thread = other
      · rw [hThread, Function.update_self] at hSample
        cases hSample
      · rw [Function.update_of_ne hThread] at hSample
        refine .inr ⟨hSample, ?_⟩
        intro word hEvent
        injection hEvent with hSame
        exact hThread hSame.symm

theorem sampled_of_run
    (hRun : Run Step {} events t)
    (hSample : t.samples thread box = some value) :
    Sampled events thread box value := by
  have hSince :=
    hRun.since (fun _ => True)
      (fun s => s.samples thread box = some value)
      (P := fun _ e _ => e = .sample thread box value)
      (Q := fun _ e _ => ∀ word, e ≠ .status thread word)
      (fun _ _ _ _ _ => trivial)
      (fun _ _ _ _ hStep hNew => samples_of_step hStep hNew)
      trivial (fun hStart => by cases hStart) hSample
  rcases hSince with
    ⟨before, s, e, u, after, hEvents, hBefore, hStep, rfl,
      hAfter⟩
  refine ⟨before, after, s, hEvents, ?_, hBefore, ?_⟩
  · intro word hMem
    exact
      hAfter.established
        (fun (e : Event T) (_ : Mailboxes T) =>
          ∀ word, e ≠ .status thread word)
        (fun _ _ _ hBoth => hBoth.2)
        (fun _ _ _ _ _ hOld => hOld) _ hMem word rfl
  · exact count_of_sample (length_of_run hBefore) hStep

theorem Sampled.small
    (hSampled : Sampled events thread box value) :
    ∃ n : Fin 5, value = BitVec.ofNat 32 n := by
  rcases hSampled with ⟨before, after, s, -, -, hBefore, hCount⟩
  have hLt := slots_le (length_of_run hBefore) .ppu box
  rw [← hCount] at hLt
  exact ⟨⟨value.toNat, hLt⟩, BitVec.eq_of_toNat_eq (by simp)⟩

/- The fields of the status are what the samples have found. -/
theorem status_of_step
    {s t : Mailboxes T}
    {word : BitVec 32}
    (hRun : Run Step {} events s)
    (hStep : Step s (.status thread word) t)
    (box : Mailbox) :
    Sampled events thread box (field word box) := by
  generalize hEvent : Event.status thread word = e at hStep
  cases hStep with
  | access => cases hEvent
  | sample => cases hEvent
  | @status other intr free out hIntr hFree hOut =>
      injection hEvent with hThread hWord
      rw [← hThread] at hIntr hFree hOut
      have hFirst := sampled_of_run hRun hIntr
      have hSecond := sampled_of_run hRun hFree
      have hThird := sampled_of_run hRun hOut
      rcases hFirst.small with ⟨a, hA⟩
      rcases hSecond.small with ⟨b, hB⟩
      rcases hThird.small with ⟨c, hC⟩
      have hFields := fields_of_small a b c
      dsimp only at hFields
      rw [← hA, ← hB, ← hC, ← hWord] at hFields
      cases box with
      | outboundInterrupt =>
          rw [hFields.1]
          exact hFirst
      | inbound =>
          rw [hFields.2.1]
          exact hSecond
      | outbound =>
          rw [hFields.2.2]
          exact hThird

------------------------------------------------------------
-- Runs
------------------------------------------------------------

/-
  Each mailbox is a queue that stays within its capacity, and
  both interfaces report its used or free slots; the fields
  of the status do so each for the moment of its sample.
-/
theorem mailboxes_of_run
    (events : List (Event T))
    (t : Mailboxes T)
    (hRun : Run Step {} events t) :
    (∀ box,
      (t.items box).length ≤ box.capacity ∧
        events.flatMap (accepted box) =
          events.flatMap (delivered box) ++ t.items box) ∧
      (∀ before thread ch box move value after,
        (MailCall.readCount ch).target = some (box, .size) →
          events =
              before ++
                .access thread (.readCount ch) move
                  (some value) :: after →
            ∃ s, Run Step {} before s ∧
              value.toNat = s.slots .spu box) ∧
      (∀ before thread offset box move value after,
        (MailCall.mmioReadCount offset).target =
            some (box, .size) →
          events =
              before ++
                .access thread (.mmioReadCount offset) move
                  (some value) :: after →
            ∃ s, Run Step {} before s ∧
              value.toNat = s.slots .ppu box) ∧
      ∀ before thread word after,
        events = before ++ .status thread word :: after →
          ∀ box, Sampled before thread box (field word box) := by
  refine ⟨?_, ?_, ?_, ?_⟩
  · intro box
    exact
      ⟨length_of_run hRun box,
        hRun.conserved (fun s => s.items box) (accepted box)
          (delivered box)
          (fun _ _ _ hStep => items_of_step hStep box)⟩
  · intro before thread ch box move value after hTarget hEvents
    rw [hEvents] at hRun
    rcases hRun.step_of_mem with ⟨s, u, hBefore, hStep⟩
    refine ⟨s, hBefore, ?_⟩
    rw [answer_of_access hTarget hStep]
    exact answer_readCount hTarget (length_of_run hBefore box)
  · intro before thread offset box move value after hTarget
      hEvents
    rw [hEvents] at hRun
    rcases hRun.step_of_mem with ⟨s, u, hBefore, hStep⟩
    refine ⟨s, hBefore, ?_⟩
    rw [answer_of_access hTarget hStep]
    exact
      answer_mmioReadCount hTarget (length_of_run hBefore box)
  · intro before thread word after hEvents box
    rw [hEvents] at hRun
    rcases hRun.step_of_mem with ⟨s, u, hBefore, hStep⟩
    exact status_of_step hBefore hStep box

/- The SPU sends a word, and the PPU reads it. -/
theorem mailboxes_of_run_send :
    ∃ t : Mailboxes Nat,
      (t.items .outbound).length ≤ Mailbox.outbound.capacity ∧
        List.flatMap (accepted .outbound)
            [Event.access 1 (.write 28 17) .call (some 0),
              .access 2 (.mmioRead 0x4004) .call (some 17)] =
          List.flatMap (delivered .outbound)
              [Event.access 1 (.write 28 17) .call (some 0),
                .access 2 (.mmioRead 0x4004) .call (some 17)] ++
            t.items .outbound :=
  ⟨_,
    (mailboxes_of_run _ _
      (.snoc
        (.snoc .nil
          (@Step.access Nat _ {} 1 (.write 28 17) .call
            .outbound (.enqueue 17) (some .queued) _ rfl
            (fun _ => ⟨fun _ => rfl, fun _ => rfl⟩)
            (by exact rfl)))
        (@Step.access Nat _ _ 2 (.mmioRead 0x4004) .call
          .outbound .dequeue (some (.taken 17)) _ rfl
          (fun _ => ⟨fun b => by cases b <;> rfl, fun _ => rfl⟩)
          (by exact rfl)))).1 .outbound⟩

end Mailboxes

end Ps3emu
