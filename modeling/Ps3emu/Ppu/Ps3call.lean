import Ps3emu.Library.Transition
import Ps3emu.Ppu.Thread

/-
  Calls from native functions into the guest: `ps3call`, the
  stub through which the guest comes back, and `wrap`, which
  runs a native function in a coroutine of its own.

  Key definitions include:
    * `NativeThread`, `NativeThread.step`
    * `GuestCalls`, `GuestCalls.step`
    * `GuestCalls.Proper`, `NativeThread.Matches`

  Key theorems include:
    * `GuestCalls.proper_step`
    * `NativeThread.matches_step`
    * `NativeThread.nests_of_calls`
-/

------------------------------------------------------------
-- Threads
------------------------------------------------------------

namespace Ps3emu

namespace Ppu

structure Fdescr where
  va : BitVec 32
  tocBase : BitVec 32

/-
  The entries of `ncallTable`: their number, the one of
  `ps3call_then`, and the functions whose last argument is a
  continuation.
-/
structure NCallTable where
  size : Nat
  thenIndex : Nat
  containsContinuationArgument : Nat → Bool
  thenIndex_lt : thenIndex < size

/-
  The index of the `ncall` that a word of the memory encodes,
  if it does, and the blocks of the internal memory in use.
-/
structure CallMemory where
  code : BitVec 32 → Option Nat
  allocated : BitVec 32 → Bool

structure Ps3callInfo where
  ret : BitVec 64
  lr : BitVec 64
deriving DecidableEq

/-
  A thread with the stacks `_ps3calls` and, of the suspended
  coroutines, `_pscallContinuation`.  A coroutine is known by
  the number of those started before it.
-/
structure NativeThread extends PPUThread CallMemory where
  emureg0 : BitVec 64
  ps3calls : List Ps3callInfo
  pscallContinuation : List Nat
  coroutines : Nat

/-
  What a native function does until it gives up control.  It
  returns, or calls the guest, for which it gets a stub from
  `internalAlloc`, or nothing if that memory is used up.
-/
inductive NativeAct where
  | finish (result : BitVec 64)
  | ps3call
      (descriptor : Fdescr)
      (args : List (BitVec 64))
      (stub : Option (BitVec 32))

def NativeAct.callsGuest : NativeAct → Bool
  | .finish _ => false
  | .ps3call _ _ _ => true

/-
  How the guest comes to native code, with the registers and
  the memory as it leaves them: by an `ncall` at `cia`, or by
  a `blr` to one.  A native function that the guest has been
  told to run comes back like `blr`, since `ncall` puts the
  link register in `NIP`.
-/
inductive GuestEvent where
  | ncall
      (cia : BitVec 32)
      (regs : Registers CallMemory)
      (act : NativeAct)
  | blr (regs : Registers CallMemory) (act : NativeAct)

/-
  A coroutine goes on in `ps3call`: its `NIP` and `LR`, the
  result of its call, and the stub that is given back.
-/
structure Resumption where
  coroutine : Nat
  nip : BitVec 32
  lr : BitVec 64
  result : BitVec 64
  freed : BitVec 32
deriving DecidableEq

------------------------------------------------------------
-- Memory
------------------------------------------------------------

namespace CallMemory

/- The words of a new block are zero. -/
def internalAlloc
    (m : CallMemory)
    (va : BitVec 32) : CallMemory where
  code := Function.update m.code va none
  allocated := Function.update m.allocated va true

def encodeNCall
    (m : CallMemory)
    (va : BitVec 32)
    (index : Nat) : CallMemory :=
  if va = 0#32 then m
  else { m with code := Function.update m.code va (some index) }

def dealloc
    (m : CallMemory)
    (va : BitVec 32) : CallMemory :=
  { m with allocated := Function.update m.allocated va false }

/- A block that is not in use must not be given back. -/
def free
    (m : CallMemory)
    (va : BitVec 32) : Option CallMemory :=
  if m.allocated va then some (m.dealloc va) else none

end CallMemory

------------------------------------------------------------
-- Native Code
------------------------------------------------------------

namespace NativeThread

variable (table : NCallTable)

def setGPR
    (t : NativeThread)
    (i : Nat)
    (value : BitVec 64) : NativeThread :=
  { t with regs := t.regs.setGPR (BitVec.ofNat 5 i) value }

/- The loop over the arguments of `ps3call`. -/
def setArgs
    (t : NativeThread) : Nat → List (BitVec 64) → NativeThread
  | _, [] => t
  | i, arg :: args => setArgs (t.setGPR (i + 3) arg) (i + 1) args

/- Without a block `internalAlloc` makes the stub at null. -/
def ps3callImpl
    (t : NativeThread)
    (va : BitVec 32)
    (stub : Option (BitVec 32)) : Option NativeThread :=
  stub.map (fun stubVa =>
    { t with
      ps3calls :=
        ⟨t.nip.setWidth 64, t.regs.lr⟩ :: t.ps3calls
      nip := va
      regs :=
        { t.regs with
          lr := stubVa.setWidth 64
          rest :=
            (t.regs.rest.internalAlloc stubVa).encodeNCall
              stubVa table.thenIndex } })

/- `ps3call` up to the point where the coroutine yields. -/
def ps3call
    (t : NativeThread)
    (descriptor : Fdescr)
    (args : List (BitVec 64))
    (stub : Option (BitVec 32)) : Option NativeThread :=
  ((t.setArgs 0 args).setGPR 2
    (descriptor.tocBase.setWidth 64)).ps3callImpl table
      descriptor.va stub

/-
  The coroutine of a native function runs until it exits or
  yields; whether it has yielded is returned.
-/
def runCoroutine
    (act : NativeAct)
    (t : NativeThread) : Option (NativeThread × Bool) :=
  match act with
  | .finish result => some (t.setGPR 3 result, false)
  | .ps3call descriptor args stub =>
      (t.ps3call table descriptor args stub).map (·, true)

/- A function without a continuation cannot call the guest. -/
def wrap
    (takesContinuation : Bool)
    (act : NativeAct)
    (t : NativeThread) : Option NativeThread :=
  if takesContinuation then
    (runCoroutine table act
      { t with coroutines := t.coroutines + 1 }).bind
        (fun (u, source) =>
          if source then
            if u.ps3calls.isEmpty then none
            else
              some
                { u with
                  pscallContinuation :=
                    t.coroutines :: u.pscallContinuation }
          else some u)
  else
    match act with
    | .finish result => some (t.setGPR 3 result)
    | .ps3call _ _ _ => none

def ps3callThen
    (act : NativeAct)
    (t : NativeThread) : Option (NativeThread × Resumption) :=
  match t.ps3calls, t.pscallContinuation with
  | top :: calls, cont :: rest =>
      let stubVa := t.nip
      let t :=
        { t with
          ps3calls := calls
          nip := top.ret.setWidth 32
          regs := { t.regs with lr := top.lr } }
      (runCoroutine table act t).bind (fun (u, source) =>
        (u.regs.rest.free stubVa).map (fun memory =>
          let u :=
            { u with
              pscallContinuation :=
                if source then cont :: rest else rest
              regs := { u.regs with rest := memory } }
          (u.setGPR 3 (u.regs.gpr 3),
            ⟨cont, t.nip, t.regs.lr, t.regs.gpr 3, stubVa⟩)))
  | _, _ => none

def ncall
    (index : Nat)
    (act : NativeAct)
    (t : NativeThread) :
    Option (NativeThread × Option Resumption) :=
  if index < table.size then
    let t :=
      { t with
        emureg0 := t.nip.setWidth 64
        nip := t.regs.lr.setWidth 32 }
    if index = table.thenIndex then
      (ps3callThen table act t).map
        (fun (u, resumption) => (u, some resumption))
    else
      (wrap table (table.containsContinuationArgument index)
        act t).map (·, none)
  else none

/- The loop of the interpreter comes to an `ncall` at `cia`. -/
def fetch
    (cia : BitVec 32)
    (regs : Registers CallMemory)
    (act : NativeAct)
    (t : NativeThread) :
    Option (NativeThread × Option Resumption) :=
  (regs.rest.code cia).bind (fun index =>
    ncall table index act { t with nip := cia + 4, regs := regs })

def step
    (t : NativeThread) :
    GuestEvent → Option (NativeThread × Option Resumption)
  | .ncall cia regs act => fetch table cia regs act t
  | .blr regs act =>
      fetch table (regs.lr.setWidth 32 &&& ~~~3#32) regs act t

end NativeThread

------------------------------------------------------------
-- Nested Calls
------------------------------------------------------------

/-
  A guest function that a native function is waiting for: the
  coroutine of the caller, its `NIP` and `LR` at the call, and
  the stub that the guest function was told to return to.
-/
structure GuestFrame where
  coroutine : Nat
  nip : BitVec 32
  lr : BitVec 64
  stub : BitVec 32
deriving DecidableEq

/- What the call has pushed to `_ps3calls`. -/
def GuestFrame.info (f : GuestFrame) : Ps3callInfo where
  ret := f.nip.setWidth 64
  lr := f.lr

/-
  The calls that are open, the innermost first, and what the
  memory was when control last went to the guest.
-/
structure GuestCalls where
  frames : List GuestFrame
  coroutines : Nat
  memory : CallMemory

/-
  The internal memory gives a block that is not in use, at the
  alignment asked for.
-/
def CallMemory.Fresh
    (m : CallMemory)
    (va : BitVec 32) : Prop :=
  va ≠ 0#32 ∧ va &&& 3#32 = 0#32 ∧ m.allocated va = false

instance (m : CallMemory) (va : BitVec 32) :
    Decidable (m.Fresh va) :=
  inferInstanceAs (Decidable (_ ∧ _))

namespace GuestCalls

variable (table : NCallTable)

/- Nobody writes to a stub in use, or gives it back. -/
def Undisturbed
    (c : GuestCalls)
    (m : CallMemory) : Prop :=
  ∀ f ∈ c.frames,
    m.code f.stub = c.memory.code f.stub ∧
      m.allocated f.stub = c.memory.allocated f.stub

instance (c : GuestCalls) (m : CallMemory) :
    Decidable (c.Undisturbed m) :=
  inferInstanceAs (Decidable (∀ _ ∈ _, _))

/- The coroutine `id` exits, or opens a call. -/
def perform
    (c : GuestCalls)
    (id : Nat)
    (nip : BitVec 32)
    (lr : BitVec 64) : NativeAct → Option GuestCalls
  | .finish _ => some c
  | .ps3call _ _ none => none
  | .ps3call _ _ (some stub) =>
      if c.memory.Fresh stub then
        some
          { c with
            frames := ⟨id, nip, lr, stub⟩ :: c.frames
            memory :=
              (c.memory.internalAlloc stub).encodeNCall stub
                table.thenIndex }
      else none

/-
  The `ncall`s that the guest may run on its own: those of the
  native functions.
-/
def Callable
    (index : Nat)
    (act : NativeAct) : Prop :=
  index < table.size ∧ index ≠ table.thenIndex ∧
    (act.callsGuest = true →
      table.containsContinuationArgument index = true)

instance (index : Nat) (act : NativeAct) :
    Decidable (Callable table index act) :=
  inferInstanceAs (Decidable (_ ∧ _))

/-
  Calls nest: a guest function runs native functions, each in
  a new coroutine, and returns with the link register that it
  was given, at which its caller goes on.
-/
def step
    (c : GuestCalls) :
    GuestEvent → Option (GuestCalls × Option Resumption)
  | .ncall cia regs act =>
      if c.Undisturbed regs.rest then
        (regs.rest.code cia).bind (fun index =>
          if Callable table index act then
            (perform table
              { c with
                coroutines :=
                  if table.containsContinuationArgument index
                  then c.coroutines + 1 else c.coroutines
                memory := regs.rest }
              c.coroutines (regs.lr.setWidth 32) regs.lr
              act).map (·, none)
          else none)
      else none
  | .blr regs act =>
      match c.frames with
      | [] => none
      | top :: rest =>
          if c.Undisturbed regs.rest ∧
              regs.lr = top.stub.setWidth 64 then
            (perform table
              { c with frames := rest, memory := regs.rest }
              top.coroutine top.nip top.lr act).map (fun d =>
                ({ d with memory := d.memory.dealloc top.stub },
                  some
                    ⟨top.coroutine, top.nip, top.lr,
                      regs.gpr 3, top.stub⟩))
          else none

/- Before the outermost native function is called. -/
def start (t : NativeThread) : GuestCalls where
  frames := []
  coroutines := t.coroutines
  memory := t.regs.rest

end GuestCalls

------------------------------------------------------------
-- Stubs
------------------------------------------------------------

namespace CallMemory

/- What the guest finds at the stub of an open call. -/
structure Live
    (table : NCallTable)
    (m : CallMemory)
    (va : BitVec 32) : Prop where
  aligned : va &&& 3#32 = 0#32
  code : m.code va = some table.thenIndex
  allocated : m.allocated va = true

variable {table : NCallTable} {m : CallMemory} {va stub : BitVec 32}

theorem Live.of_agree
    {m' : CallMemory}
    (hLive : m.Live table va)
    (hCode : m'.code va = m.code va)
    (hAllocated : m'.allocated va = m.allocated va) :
    m'.Live table va where
  aligned := hLive.aligned
  code := hCode.trans hLive.code
  allocated := hAllocated.trans hLive.allocated

/- The block that `ps3call` writes its `ncall` to. -/
theorem Fresh.live
    (hFresh : m.Fresh stub) :
    ((m.internalAlloc stub).encodeNCall stub
      table.thenIndex).Live table stub := by
  rcases hFresh with ⟨hNonzero, hAligned, -⟩
  exact
    { aligned := hAligned
      code := by
        simp only [encodeNCall, if_neg hNonzero,
          Function.update_self]
      allocated := by
        simp only [encodeNCall, if_neg hNonzero,
          internalAlloc, Function.update_self] }

/- Another block stays as it is. -/
theorem Live.internalAlloc
    (hLive : m.Live table va)
    (hFresh : m.Fresh stub) :
    va ≠ stub ∧
      ((m.internalAlloc stub).encodeNCall stub
        table.thenIndex).Live table va := by
  rcases hFresh with ⟨hNonzero, -, hUnused⟩
  have hNe : va ≠ stub := by
    rintro rfl
    simp [hLive.allocated] at hUnused
  refine ⟨hNe, hLive.of_agree ?_ ?_⟩
  · simp only [encodeNCall, if_neg hNonzero,
      CallMemory.internalAlloc, Function.update_of_ne hNe]
  · simp only [encodeNCall, if_neg hNonzero,
      CallMemory.internalAlloc, Function.update_of_ne hNe]

theorem Live.dealloc
    (hLive : m.Live table va)
    (hNe : va ≠ stub) :
    (m.dealloc stub).Live table va :=
  hLive.of_agree rfl (by simp [CallMemory.dealloc, hNe])

/- `blr` clears two bits that a stub's address has clear. -/
theorem Live.blrTarget
    (hLive : m.Live table va) :
    (va.setWidth 64).setWidth 32 &&& ~~~3#32 = va := by
  have hSplit : (va &&& 3#32) ||| (va &&& ~~~3#32) = va := by
    ext i hi
    simp only [BitVec.getElem_or, BitVec.getElem_and,
      BitVec.getElem_not]
    cases va[i] <;> simp
  rw [hLive.aligned, BitVec.zero_or] at hSplit
  rw [BitVec.setWidth_setWidth_of_le va (by omega),
    BitVec.setWidth_eq, hSplit]

end CallMemory

------------------------------------------------------------
-- Open Calls
------------------------------------------------------------

namespace GuestCalls

variable {table : NCallTable} {c d : GuestCalls} {id : Nat}
variable {nip : BitVec 32}
variable {lr : BitVec 64} {act : NativeAct}

/- The open calls have stubs of their own, all in place. -/
structure Proper
    (table : NCallTable)
    (c : GuestCalls) : Prop where
  nodup : (c.frames.map GuestFrame.stub).Nodup
  live : ∀ f ∈ c.frames, c.memory.Live table f.stub

theorem perform_cases
    (hPerform : c.perform table id nip lr act = some d) :
    (∃ result, act = .finish result ∧ d = c) ∨
      ∃ descriptor args stub,
        act = .ps3call descriptor args (some stub) ∧
          c.memory.Fresh stub ∧
          d =
            { c with
              frames := ⟨id, nip, lr, stub⟩ :: c.frames
              memory :=
                (c.memory.internalAlloc stub).encodeNCall stub
                  table.thenIndex } := by
  rcases act with result | ⟨descriptor, args, _ | stub⟩
  · exact .inl ⟨result, rfl, (Option.some.inj hPerform).symm⟩
  · cases hPerform
  · simp only [perform, Option.ite_none_right_eq_some,
      Option.some.injEq] at hPerform
    exact
      .inr
        ⟨descriptor, args, stub, rfl, hPerform.1,
          hPerform.2.symm⟩

/- A stub in place stays so, and gets no second owner. -/
theorem live_perform
    {va : BitVec 32}
    (hPerform : c.perform table id nip lr act = some d)
    (hLive : c.memory.Live table va)
    (hOwner : ∀ f ∈ c.frames, va ≠ f.stub) :
    d.memory.Live table va ∧ ∀ f ∈ d.frames, va ≠ f.stub := by
  rcases perform_cases hPerform with
    ⟨-, -, rfl⟩ | ⟨-, -, stub, -, hFresh, rfl⟩
  · exact ⟨hLive, hOwner⟩
  · rcases hLive.internalAlloc hFresh with ⟨hNe, hKept⟩
    exact ⟨hKept, List.forall_mem_cons.mpr ⟨hNe, hOwner⟩⟩

theorem proper_perform
    (hProper : c.Proper table)
    (hPerform : c.perform table id nip lr act = some d) :
    d.Proper table := by
  rcases perform_cases hPerform with
    ⟨-, -, rfl⟩ | ⟨-, -, stub, -, hFresh, rfl⟩
  · exact hProper
  · have hKept :
        ∀ f ∈ c.frames, f.stub ≠ stub ∧
          ((c.memory.internalAlloc stub).encodeNCall stub
            table.thenIndex).Live table f.stub :=
      fun f hf => (hProper.live f hf).internalAlloc hFresh
    constructor
    · rw [List.map_cons, List.nodup_cons]
      refine ⟨?_, hProper.nodup⟩
      intro hMem
      rcases List.mem_map.mp hMem with ⟨f, hf, hEq⟩
      exact (hKept f hf).1 hEq
    · exact
        List.forall_mem_cons.mpr
          ⟨hFresh.live, fun f hf => (hKept f hf).2⟩

/- The guest leaves the stubs of the open calls alone. -/
theorem Proper.of_undisturbed
    (hProper : c.Proper table)
    (m : CallMemory)
    (n : Nat)
    (hUndisturbed : c.Undisturbed m) :
    Proper table
      { c with coroutines := n, memory := m } where
  nodup := hProper.nodup
  live := fun f hf =>
    (hProper.live f hf).of_agree
      (hUndisturbed f hf).1 (hUndisturbed f hf).2

/- The innermost call, and those that it leaves open. -/
theorem Proper.of_cons
    {f : GuestFrame}
    {frames : List GuestFrame}
    (hProper : c.Proper table)
    (hFrames : c.frames = f :: frames) :
    Proper table { c with frames := frames } ∧
      c.memory.Live table f.stub ∧
      ∀ g ∈ frames, f.stub ≠ g.stub := by
  rcases hProper with ⟨hNodup, hLive⟩
  rw [hFrames] at hNodup hLive
  rw [List.map_cons, List.nodup_cons] at hNodup
  rcases List.forall_mem_cons.mp hLive with ⟨hTop, hRest⟩
  refine ⟨⟨hNodup.2, hRest⟩, hTop, ?_⟩
  intro g hg hEq
  exact hNodup.1 (List.mem_map.mpr ⟨g, hg, hEq.symm⟩)

variable {o : Option Resumption}

/- What an `ncall` does to the open calls. -/
theorem step_ncall
    {cia : BitVec 32}
    {regs : Registers CallMemory}
    (hStep :
      c.step table (.ncall cia regs act) = some (d, o)) :
    ∃ index,
      c.Undisturbed regs.rest ∧
        regs.rest.code cia = some index ∧
        Callable table index act ∧
        o = none ∧
        perform table
          { c with
            coroutines :=
              if table.containsContinuationArgument index
              then c.coroutines + 1 else c.coroutines
            memory := regs.rest }
          c.coroutines (regs.lr.setWidth 32) regs.lr act =
            some d := by
  simp only [step, Option.ite_none_right_eq_some,
    Option.bind_eq_some_iff, Option.map_eq_some_iff,
    Prod.mk.injEq] at hStep
  rcases hStep with
    ⟨hUndisturbed, index, hCode, hCallable, d', hPerform,
      rfl, rfl⟩
  exact
    ⟨index, hUndisturbed, hCode, hCallable, rfl, hPerform⟩

/- What a return does to them. -/
theorem step_blr
    {regs : Registers CallMemory}
    (hStep : c.step table (.blr regs act) = some (d, o)) :
    ∃ top rest e,
      c.frames = top :: rest ∧
        c.Undisturbed regs.rest ∧
        regs.lr = top.stub.setWidth 64 ∧
        perform table
          { c with frames := rest, memory := regs.rest }
          top.coroutine top.nip top.lr act = some e ∧
        d = { e with memory := e.memory.dealloc top.stub } ∧
        o =
          some
            ⟨top.coroutine, top.nip, top.lr, regs.gpr 3,
              top.stub⟩ := by
  simp only [step] at hStep
  cases hFrames : c.frames with
  | nil => simp [hFrames] at hStep
  | cons top rest =>
      simp only [hFrames, Option.ite_none_right_eq_some,
        Option.map_eq_some_iff, Prod.mk.injEq] at hStep
      rcases hStep with
        ⟨⟨hUndisturbed, hLr⟩, e, hPerform, rfl, rfl⟩
      exact
        ⟨top, rest, e, rfl, hUndisturbed, hLr, hPerform, rfl,
          rfl⟩

/- The innermost guest function returns. -/
theorem Proper.of_return
    {top : GuestFrame}
    {rest : List GuestFrame}
    {m : CallMemory}
    (hProper : c.Proper table)
    (hFrames : c.frames = top :: rest)
    (hUndisturbed : c.Undisturbed m) :
    Proper table { c with frames := rest, memory := m } ∧
      m.Live table top.stub ∧
      ∀ g ∈ rest, top.stub ≠ g.stub :=
  (hProper.of_undisturbed m c.coroutines hUndisturbed).of_cons
    hFrames

theorem Proper.dealloc
    {va : BitVec 32}
    (hProper : c.Proper table)
    (hOwner : ∀ f ∈ c.frames, va ≠ f.stub) :
    Proper table { c with memory := c.memory.dealloc va } where
  nodup := hProper.nodup
  live := fun f hf =>
    (hProper.live f hf).dealloc (hOwner f hf).symm

theorem proper_step
    {event : GuestEvent}
    (hProper : c.Proper table)
    (hStep : c.step table event = some (d, o)) :
    d.Proper table := by
  cases event with
  | ncall cia regs act =>
      rcases step_ncall hStep with
        ⟨index, hUndisturbed, -, -, -, hPerform⟩
      exact
        proper_perform
          (hProper.of_undisturbed _ _ hUndisturbed) hPerform
  | blr regs act =>
      rcases step_blr hStep with
        ⟨top, rest, e, hFrames, hUndisturbed, -, hPerform,
          rfl, -⟩
      rcases hProper.of_return hFrames hUndisturbed with
        ⟨hRest, hTop, hOwner⟩
      exact
        (proper_perform hRest hPerform).dealloc
          (live_perform hPerform hTop hOwner).2

end GuestCalls

------------------------------------------------------------
-- The Two Stacks
------------------------------------------------------------

namespace NativeThread

variable {table : NCallTable} {c d : GuestCalls} {act : NativeAct}

/-
  On top of the original contents `t₀` of its stacks, a thread
  has an entry for each of the open calls.
-/
structure Matches
    (t₀ : NativeThread)
    (c : GuestCalls)
    (t : NativeThread) : Prop where
  ps3calls :
    t.ps3calls =
      c.frames.map GuestFrame.info ++ t₀.ps3calls
  continuations :
    t.pscallContinuation =
      c.frames.map GuestFrame.coroutine ++
        t₀.pscallContinuation
  coroutines : t.coroutines = c.coroutines
  memory : t.regs.rest = c.memory

theorem setArgs_eq
    (t : NativeThread)
    (i : Nat)
    (args : List (BitVec 64)) :
    ∃ gpr,
      t.setArgs i args =
        { t with regs := { t.regs with gpr := gpr } } := by
  induction args generalizing t i with
  | nil => exact ⟨t.regs.gpr, rfl⟩
  | cons arg args ih =>
      rcases ih (t.setGPR (i + 3) arg) (i + 1) with
        ⟨gpr, hArgs⟩
      exact ⟨gpr, hArgs⟩

/- A coroutine that gets a stub enters `ps3call` and yields. -/
theorem runCoroutine_ps3call
    (t : NativeThread)
    (descriptor : Fdescr)
    (args : List (BitVec 64))
    (stub : BitVec 32) :
    ∃ gpr,
      runCoroutine table (.ps3call descriptor args (some stub))
        t =
          some
            ({ t with
              ps3calls :=
                ⟨t.nip.setWidth 64, t.regs.lr⟩ :: t.ps3calls
              nip := descriptor.va
              regs :=
                { t.regs with
                  lr := stub.setWidth 64
                  gpr := gpr
                  rest :=
                    (t.regs.rest.internalAlloc stub).encodeNCall
                      stub table.thenIndex } },
              true) := by
  rcases t.setArgs_eq 0 args with ⟨gpr, hArgs⟩
  refine
    ⟨Function.update gpr (BitVec.ofNat 5 2)
      (descriptor.tocBase.setWidth 64), ?_⟩
  simp only [runCoroutine, ps3call, hArgs]
  rfl

/-
  A coroutine does to the stack of `ps3call` what it does to
  the open calls, and leaves the other stack to its caller.
-/
theorem runCoroutine_of_perform
    {t : NativeThread}
    {id : Nat}
    (hMemory : t.regs.rest = c.memory)
    (hPerform :
      c.perform table id t.nip t.regs.lr act = some d) :
    ∃ u opened,
      runCoroutine table act t = some (u, act.callsGuest) ∧
        d.frames = opened ++ c.frames ∧
        u.ps3calls = opened.map GuestFrame.info ++ t.ps3calls ∧
        opened.map GuestFrame.coroutine =
          (if act.callsGuest then [id] else []) ∧
        u.pscallContinuation = t.pscallContinuation ∧
        u.coroutines = t.coroutines ∧
        d.coroutines = c.coroutines ∧
        u.regs.rest = d.memory := by
  rcases GuestCalls.perform_cases hPerform with
    ⟨result, rfl, rfl⟩ |
      ⟨descriptor, args, stub, rfl, -, rfl⟩
  · exact
      ⟨_, [], rfl, rfl, rfl, rfl, rfl, rfl, rfl, hMemory⟩
  · rcases @runCoroutine_ps3call table t descriptor args
      stub with ⟨gpr, hRun⟩
    refine
      ⟨_, [⟨id, t.nip, t.regs.lr, stub⟩], hRun, rfl, rfl, rfl,
        rfl, rfl, rfl, ?_⟩
    simp only [hMemory]

variable {t₀ t : NativeThread}

theorem wrap_of_perform
    {takes : Bool}
    (hMatches : Matches t₀ c t)
    (hCalls : act.callsGuest = true → takes = true)
    (hPerform :
      GuestCalls.perform table
        { c with
          coroutines :=
            if takes then c.coroutines + 1 else c.coroutines }
        c.coroutines t.nip t.regs.lr act = some d) :
    ∃ u, wrap table takes act t = some u ∧ Matches t₀ d u := by
  rcases hMatches with
    ⟨hPs3calls, hContinuations, hCoroutines, hMemory⟩
  cases takes with
  | false =>
      rcases GuestCalls.perform_cases hPerform with
        ⟨result, rfl, rfl⟩ | ⟨descriptor, args, stub, rfl, -⟩
      · exact
          ⟨_, rfl, hPs3calls, hContinuations, hCoroutines,
            hMemory⟩
      · exact absurd (hCalls rfl) (by simp)
  | true =>
      rcases @runCoroutine_of_perform table
          { c with coroutines := c.coroutines + 1 } d act
          { t with coroutines := t.coroutines + 1 }
          c.coroutines hMemory hPerform with
        ⟨u, opened, hRun, hFrames, hInfos, hIds, hOthers,
          hNumber, hNumber', hRest⟩
      have hNumbers : u.coroutines = d.coroutines := by
        rw [hNumber, hNumber', hCoroutines]
      simp only [wrap, if_true, hRun, Option.bind_some]
      cases hAct : act.callsGuest with
      | false =>
          -- the coroutine has exited, and nothing is pushed
          rw [hAct] at hIds
          obtain rfl := List.map_eq_nil_iff.mp hIds
          exact
            ⟨u, rfl, by rw [hInfos, hFrames]; exact hPs3calls,
              by rw [hOthers, hFrames]; exact hContinuations,
              hNumbers, hRest⟩
      | true =>
          -- its entry in one stack is there, and so is pushed
          -- the one in the other
          rw [hAct] at hIds
          have hNonempty : u.ps3calls.isEmpty = false := by
            cases opened with
            | nil => simp at hIds
            | cons f fs => simp [hInfos]
          refine
            ⟨{ u with
                pscallContinuation :=
                  t.coroutines :: u.pscallContinuation },
              by simp [hNonempty], ?_, ?_, hNumbers, hRest⟩
          · rw [hFrames, List.map_append, List.append_assoc,
              ← hPs3calls]
            exact hInfos
          · rw [hFrames, List.map_append, hIds,
              List.append_assoc, ← hContinuations]
            simp only [hOthers, hCoroutines, if_true,
              List.singleton_append]

theorem ps3callThen_of_perform
    {top : GuestFrame}
    {rest : List GuestFrame}
    (hMatches : Matches t₀ c t)
    (hFrames : c.frames = top :: rest)
    (hNip : t.nip = top.stub)
    (hLive : c.memory.Live table top.stub)
    (hOwner : ∀ f ∈ rest, top.stub ≠ f.stub)
    (hPerform :
      GuestCalls.perform table { c with frames := rest }
        top.coroutine top.nip top.lr act = some d) :
    ∃ u,
      ps3callThen table act t =
          some
            (u,
              ⟨top.coroutine, top.nip, top.lr, t.regs.gpr 3,
                top.stub⟩) ∧
        Matches t₀
          { d with memory := d.memory.dealloc top.stub } u := by
  rcases hMatches with
    ⟨hPs3calls, hContinuations, hCoroutines, hMemory⟩
  rw [hFrames, List.map_cons, List.cons_append]
    at hPs3calls hContinuations
  have hSaved : (top.nip.setWidth 64).setWidth 32 = top.nip := by
    rw [BitVec.setWidth_setWidth_of_le _ (by omega),
      BitVec.setWidth_eq]
  have hAllocated :=
    (GuestCalls.live_perform hPerform hLive hOwner).1.allocated
  let others :=
    rest.map GuestFrame.coroutine ++ t₀.pscallContinuation
  rcases @runCoroutine_of_perform table
      { c with frames := rest } d act
      { t with
        ps3calls := rest.map GuestFrame.info ++ t₀.ps3calls
        pscallContinuation := top.coroutine :: others
        nip := top.nip
        regs := { t.regs with lr := top.lr } }
      top.coroutine hMemory hPerform with
    ⟨u, opened, hRun, hOpened, hInfos, hIds, hOthers, hNumber,
      hNumber', hRest⟩
  refine
    ⟨{ u with
        pscallContinuation :=
          if act.callsGuest then top.coroutine :: others
          else others
        regs :=
          { u.regs with rest := d.memory.dealloc top.stub } }.setGPR
        3 (u.regs.gpr 3), ?_, ?_⟩
  · simp only [ps3callThen, hPs3calls, hContinuations,
      GuestFrame.info, hSaved, hNip]
    simp only [others] at hRun
    simp only [hRun, Option.bind_some, CallMemory.free, hRest,
      hAllocated, if_true, Option.map_some]
    rfl
  · refine ⟨?_, ?_, ?_, rfl⟩
    · rw [hOpened, List.map_append, List.append_assoc]
      exact hInfos
    · rw [hOpened, List.map_append, hIds, List.append_assoc]
      cases act.callsGuest with
      | false => rfl
      | true => rfl
    · exact hNumber.trans (hCoroutines.trans hNumber'.symm)

/- Each step of the open calls is one of the thread. -/
theorem matches_step
    {event : GuestEvent}
    {o : Option Resumption}
    (hProper : c.Proper table)
    (hMatches : Matches t₀ c t)
    (hStep : c.step table event = some (d, o)) :
    ∃ u, step table t event = some (u, o) ∧
      Matches t₀ d u := by
  rcases hMatches with
    ⟨hPs3calls, hContinuations, hCoroutines, hMemory⟩
  cases event with
  | ncall cia regs act =>
      rcases GuestCalls.step_ncall hStep with
        ⟨index, -, hCode, ⟨hSize, hThen, hCalls⟩, rfl,
          hPerform⟩
      rcases @wrap_of_perform table
          { c with memory := regs.rest } d act t₀
          { t with
            emureg0 := (cia + 4).setWidth 64
            nip := regs.lr.setWidth 32
            regs := regs } _
          ⟨hPs3calls, hContinuations, hCoroutines, rfl⟩ hCalls
          hPerform with
        ⟨u, hWrap, hAfter⟩
      refine ⟨u, ?_, hAfter⟩
      simp only [step, fetch, hCode, Option.bind_some, ncall,
        hSize, hThen, if_true, if_false, hWrap,
        Option.map_some]
  | blr regs act =>
      rcases GuestCalls.step_blr hStep with
        ⟨top, rest, e, hFrames, hUndisturbed, hLr, hPerform,
          rfl, rfl⟩
      rcases hProper.of_return hFrames hUndisturbed with
        ⟨-, hLive, hOwner⟩
      have hStub : regs.lr.setWidth 32 = top.stub := by
        rw [hLr, BitVec.setWidth_setWidth_of_le _ (by omega),
          BitVec.setWidth_eq]
      have hCode :
          regs.rest.code (regs.lr.setWidth 32 &&& ~~~3#32) =
            some table.thenIndex := by
        rw [hLr, hLive.blrTarget, hLive.code]
      rcases @ps3callThen_of_perform table
          { c with memory := regs.rest } e act t₀
          { t with
            emureg0 :=
              ((regs.lr.setWidth 32 &&& ~~~3#32) + 4).setWidth 64
            nip := regs.lr.setWidth 32
            regs := regs } top rest
          ⟨hPs3calls, hContinuations, hCoroutines, rfl⟩ hFrames
          hStub hLive hOwner hPerform with
        ⟨u, hThen, hAfter⟩
      refine ⟨u, ?_, hAfter⟩
      simp only [step, fetch, hCode, Option.bind_some, ncall,
        table.thenIndex_lt, if_true, hThen, Option.map_some]

theorem matches_start (t : NativeThread) :
    Matches t (GuestCalls.start t) t where
  ps3calls := rfl
  continuations := rfl
  coroutines := rfl
  memory := rfl

/-
  Whenever guest functions return with the link register they
  were given, each return goes on in the coroutine that made
  the innermost open call, as that call has saved it, and the
  stacks hold exactly the open calls.
-/
theorem nests_of_calls
    (table : NCallTable)
    (t : NativeThread)
    (events : List GuestEvent)
    (c : GuestCalls)
    (resumptions : List (Option Resumption))
    (hCalls :
      Transition.produce (GuestCalls.step table)
        (GuestCalls.start t) events = some (c, resumptions)) :
    ∃ u,
      Transition.produce (step table) t events =
          some (u, resumptions) ∧
        Matches t c u ∧
        (c.frames = [] →
          u.ps3calls = t.ps3calls ∧
            u.pscallContinuation = t.pscallContinuation) := by
  have hProper : (GuestCalls.start t).Proper table :=
    ⟨List.nodup_nil, List.forall_mem_nil _⟩
  rcases Transition.produce_of_simulation
      (fun c u => c.Proper table ∧ Matches t c u)
      (fun c u event d o hBoth hStep => by
        rcases matches_step hBoth.1 hBoth.2 hStep with
          ⟨v, hThread, hAfter⟩
        exact
          ⟨v, hThread, GuestCalls.proper_step hBoth.1 hStep,
            hAfter⟩)
      ⟨hProper, matches_start t⟩ hCalls with
    ⟨u, hRun, -, hMatches⟩
  refine ⟨u, hRun, hMatches, ?_⟩
  intro hFrames
  have hPs3calls := hMatches.ps3calls
  have hContinuations := hMatches.continuations
  rw [hFrames] at hPs3calls hContinuations
  exact ⟨hPs3calls, hContinuations⟩

/- Two native functions, at `0x100` and `0x104`. -/
def nestedTable : NCallTable where
  size := 3
  thenIndex := 2
  containsContinuationArgument := fun i => i != 2
  thenIndex_lt := by decide

/- The guest's registers, with stubs in use. -/
def nestedRegs
    (lr gpr3 : BitVec 64)
    (stubs : List (BitVec 32)) : Registers CallMemory where
  lr := lr
  ctr := 0
  gpr := Function.update (fun _ => 0) 3 gpr3
  cr := 0
  xer := 0
  vrsave := 0
  rest :=
    { code := fun va =>
        if va = 0x100 then some 0
        else if va = 0x104 then some 1
        else if va ∈ stubs then some 2 else none
      allocated := fun va => decide (va ∈ stubs) }

def nestedThread : NativeThread where
  nip := 0x100
  regs := nestedRegs 0x200 0 []
  emureg0 := 0
  ps3calls := []
  pscallContinuation := []
  coroutines := 0

/-
  The first native function calls the guest, which runs the
  second, which calls the guest twice before it returns.
-/
def nestedEvents : List GuestEvent :=
  [.ncall 0x100 (nestedRegs 0x200 0 [])
      (.ps3call ⟨0x300, 0⟩ [11] (some 0x1000)),
    .ncall 0x104 (nestedRegs 0x308 0 [0x1000])
      (.ps3call ⟨0x400, 0⟩ [10, 20] (some 0x1004)),
    .blr (nestedRegs 0x1004 30 [0x1000, 0x1004])
      (.ps3call ⟨0x400, 0⟩ [30, 40] (some 0x1008)),
    .blr (nestedRegs 0x1008 70 [0x1000, 0x1008]) (.finish 17),
    .blr (nestedRegs 0x1000 5 [0x1000]) (.finish 0)]

theorem nests_of_calls_twice :
    ∃ u,
      Transition.produce (step nestedTable) nestedThread
          nestedEvents =
          some
            (u,
              [none, none,
                some ⟨1, 0x308, 0x308, 30, 0x1004⟩,
                some ⟨1, 0x308, 0x308, 70, 0x1008⟩,
                some ⟨0, 0x200, 0x200, 5, 0x1000⟩]) ∧
        u.ps3calls = nestedThread.ps3calls ∧
        u.pscallContinuation =
          nestedThread.pscallContinuation := by
  rcases nests_of_calls nestedTable nestedThread nestedEvents
      _ _ rfl with
    ⟨u, hRun, -, hStacks⟩
  exact ⟨u, hRun, hStacks rfl⟩

end NativeThread

end Ppu

end Ps3emu
