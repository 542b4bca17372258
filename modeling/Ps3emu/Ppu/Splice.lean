import Mathlib.Logic.Relation
import Ps3emu.Ppu.LinkRegister
import Ps3emu.Ppu.Ps3call
import Ps3emu.Ppu.Rewrite

/-
  Spliced functions: `spliceFunction` puts an `ncall` over the
  first instruction of a guest function, so that a native
  function runs `before`, that instruction, the rest of the
  function as a call of its own, and `after`.

  Key definitions include:
    * `Splice`, `SplicedThread`
    * `Splice.spliceFunction`, `Splice.step`
    * `Splice.watch`
    * `Splice.Transparent`, `Splice.Keeps`

  Key theorems include:
    * `Splice.mirrors_enter`, `Splice.mirrors_leave`
    * `Splice.mirrors_guest`
    * `Splice.transparent_of_keeps`
-/

------------------------------------------------------------
-- Spliced Threads
------------------------------------------------------------

namespace Ps3emu

namespace Ppu

variable {R : Type}

/- The two functions that `spliceFunction` is given. -/
inductive Callback where
  | before
  | after
deriving DecidableEq

/-
  A thread with what its guest works on, memory included, and
  the callbacks that have run.  The words that the emulator
  has put over those of the guest are in `regs.rest`.
-/
structure SplicedThread (R : Type) extends NativeThread where
  data : R
  log : List Callback

namespace SplicedThread

/- The thread as an instruction of the guest finds it. -/
def view (t : SplicedThread R) : PPUThread R where
  nip := t.nip
  regs := { t.regs with rest := t.data }

/- And as it leaves it. -/
def put
    (t : SplicedThread R)
    (u : PPUThread R) : SplicedThread R :=
  { t with
    nip := u.nip
    regs := { u.regs with rest := t.regs.rest }
    data := u.regs.rest }

def withNative
    (t : SplicedThread R)
    (n : NativeThread) : SplicedThread R :=
  { t with toNativeThread := n }

/- A call of the spliced function is open. -/
def Inside (t : SplicedThread R) : Prop :=
  t.log.count .after < t.log.count .before

instance (t : SplicedThread R) : Decidable t.Inside :=
  inferInstanceAs (Decidable (_ < _))

end SplicedThread

/- A new entry comes last; its function may call the guest. -/
def NCallTable.addNCallEntry (table : NCallTable) : NCallTable where
  size := table.size + 1
  thenIndex := table.thenIndex
  containsContinuationArgument :=
    Function.update table.containsContinuationArgument
      table.size true
  thenIndex_lt := Nat.lt_succ_of_lt table.thenIndex_lt

/-
  A function at `ea`, in a program whose words are `text`, and
  the table before `spliceFunction` adds to it.
-/
structure Splice (R : Type) where
  env : Env R
  text : BitVec 32 → BitVec 32
  table : NCallTable
  ea : BitVec 32

namespace Splice

variable (s : Splice R)

def instr : BitVec 32 :=
  s.text s.ea

def index : Nat :=
  s.table.size

def ncallTable : NCallTable :=
  s.table.addNCallEntry

def spliceFunction
    (t : NativeThread)
    (data : R) : SplicedThread R :=
  let t : SplicedThread R := { t with data := data, log := [] }
  if (analyze s.instr s.ea).flow then t
  else
    { t with
      regs :=
        { t.regs with
          rest := t.regs.rest.encodeNCall s.ea s.index } }

/-
  The `ncall` at `ea`, up to where its coroutine yields.  The
  first instruction runs before that, in the caller's place.
-/
def enter
    (t : SplicedThread R)
    (stub : Option (BitVec 32)) : Option (SplicedThread R) :=
  let t : SplicedThread R :=
    { t with
      emureg0 := (t.nip + 4).setWidth 64
      nip := t.regs.lr.setWidth 32
      log := t.log ++ [.before] }
  (emulate s.env s.instr (s.ea.setWidth 64) t.view).toOption.bind
    (fun u =>
      let t := t.put u
      (NativeThread.wrap s.ncallTable true
        (.ps3call ⟨s.ea + 4, (t.regs.gpr 2).setWidth 32⟩ [] stub)
        t.toNativeThread).map t.withNative)

/- The `ncall` of `ps3call_then`, in a stub of this function. -/
def leave (t : SplicedThread R) : Option (SplicedThread R) :=
  (NativeThread.fetch s.ncallTable t.nip t.regs
    (.finish (t.regs.gpr 3)) t.toNativeThread).map
      (fun (n, _) =>
        { t.withNative n with log := t.log ++ [.after] })

/- A word of the guest. -/
def guest (t : SplicedThread R) : Option (SplicedThread R) :=
  (Ppu.step s.env (s.text t.nip) t.nip t.view).toOption.map t.put

/- `stub` is what the internal memory gives if it is asked. -/
def step
    (t : SplicedThread R)
    (stub : Option (BitVec 32)) : Option (SplicedThread R) :=
  if t.regs.rest.code t.nip = some s.index then s.enter t stub
  else if t.regs.rest.code t.nip = some s.table.thenIndex then
    s.leave t
  else s.guest t

------------------------------------------------------------
-- What a Splice Is For and Where It Works
------------------------------------------------------------

/-
  The program as it was, watched: where the calls of the
  function that are open return to, and which callbacks have
  been due.
-/
structure Watched (R : Type) extends PPUThread R where
  opened : List (BitVec 32)
  log : List Callback

/-
  `before` is due when the function is called, and `after`
  when control goes back by `LR` to where a call came from.
  Calls that came from one place are over together.
-/
def watch (w : Watched R) : Option (Watched R) :=
  (Ppu.step s.env (s.text w.nip) w.nip
    w.toPPUThread).toOption.map (fun u =>
      if w.nip = s.ea then
        { u with
          opened := w.regs.lr.setWidth 32 :: w.opened
          log := w.log ++ [.before] }
      else if returns (s.text w.nip) w.regs then
        let ended := w.opened.takeWhile (· == u.nip)
        { u with
          opened := w.opened.drop ended.length
          log := w.log ++ List.replicate ended.length .after }
      else { u with opened := w.opened, log := w.log })

def Watches (w v : Watched R) : Prop :=
  s.watch w = some v

/- Nothing is open where a thread starts. -/
def unwatched (t : SplicedThread R) : Watched R :=
  { t.view with opened := [], log := [] }

def Steps
    (t : SplicedThread R)
    (stub : Option (BitVec 32))
    (u : SplicedThread R) : Prop :=
  s.step t stub = some u

/-
  The first instruction finds the caller's `LR`, and leaves it
  alone; of `r2`, only 32 bits are passed on.  `ncall` goes to
  all of `LR`, which `blr` does not.
-/
structure KeepsEntry
    (t : SplicedThread R)
    (stub : Option (BitVec 32)) : Prop where
  reads : t.Inside → readsLR s.instr = false
  writes : writesLR s.instr = false
  toc :
    ∀ u,
      emulate s.env s.instr (s.ea.setWidth 64)
          { t.view with nip := t.regs.lr.setWidth 32 } =
          .ok u →
        ((u.regs.gpr 2).setWidth 32).setWidth 64 = u.regs.gpr 2
  aligned : t.regs.lr &&& ~~~3#64 = t.regs.lr
  entry : t.regs.rest.code (s.ea + 4) ≠ some s.table.thenIndex
  block :
    ∃ va, stub = some va ∧ t.regs.rest.Fresh va ∧
      va ≠ s.ea ∧ va ≠ s.ea + 4

/-
  Within a call, an instruction has to do with `LR` only if it
  returns, and goes to no stub otherwise.
-/
structure KeepsLink (t : SplicedThread R) : Prop where
  reads : readsLR (s.text t.nip) = false
  writes : writesLR (s.text t.nip) = false
  ncall :
    decode (s.text t.nip) = some (.system .ncall) →
      s.env.ReturnsFrom (idx (s.text t.nip))
  target :
    ∀ u,
      Ppu.step s.env (s.text t.nip) t.nip t.view = .ok u →
        returns (s.text t.nip) t.view.regs = false →
          t.regs.rest.code u.nip ≠ some s.table.thenIndex

def Keeps
    (t : SplicedThread R)
    (stub : Option (BitVec 32)) : Prop :=
  if t.regs.rest.code t.nip = some s.index then
    s.KeepsEntry t stub
  else if t.regs.rest.code t.nip = some s.table.thenIndex then
    t.Inside
  else t.Inside → s.KeepsLink t

/-
  Within a call, a thread is where the program as it was is,
  except for what is in `LR`.  As soon as that is back in the
  caller, so is the thread after a number of steps in which it
  does no more than run `after`, with nothing left of the call
  on its stacks.  It does not stop where the program goes on.
-/
structure Transparent
    (start : SplicedThread R)
    (w : Watched R)
    (t : SplicedThread R) : Prop where
  within :
    w.opened ≠ [] →
      t.nip = w.nip ∧ t.log = w.log ∧
        t.view.regs = w.regs.withLR t.regs.lr
  returned :
    w.opened = [] →
      ∃ n, ∀ stubs : List (Option (BitVec 32)),
        stubs.length = n →
          ∃ u,
            Transition.exec s.step t stubs = some u ∧
              u.view = w.toPPUThread ∧ u.log = w.log ∧
              u.ps3calls = start.ps3calls ∧
              u.pscallContinuation = start.pscallContinuation
  goesOn :
    ∀ stub v,
      s.Keeps t stub → s.Watches w v → ∃ u, s.Steps t stub u

end Splice

------------------------------------------------------------
-- Native Code
------------------------------------------------------------

namespace CallMemory

variable {m : CallMemory} {stub : BitVec 32}

/- A new stub changes no word but its own. -/
theorem Fresh.code
    (hFresh : m.Fresh stub)
    (index : Nat)
    (va : BitVec 32) :
    ((m.internalAlloc stub).encodeNCall stub index).code va =
      if va = stub then some index else m.code va := by
  simp only [encodeNCall, if_neg hFresh.1,
    CallMemory.internalAlloc, Function.update_apply]
  split_ifs <;> rfl

/- `blr` goes to a stub with all bits of its address. -/
theorem Live.aligned_lr
    {table : NCallTable}
    (hLive : m.Live table stub) :
    stub.setWidth 64 &&& ~~~3#64 = stub.setWidth 64 := by
  have hLow : stub.setWidth 64 &&& 3#64 = 0#64 := by
    have hSame :
        stub.setWidth 64 &&& 3#64 =
          (stub &&& 3#32).setWidth 64 := by
      rw [BitVec.setWidth_and]
      rfl
    rw [hSame, hLive.aligned]
    rfl
  ext i hi
  have hBit := congrArg (fun v : BitVec 64 => v[i]) hLow
  simp only [BitVec.getElem_and, BitVec.getElem_zero,
    BitVec.getElem_not] at hBit ⊢
  cases hStub : (stub.setWidth 64)[i] with
  | false => rfl
  | true =>
      rw [hStub, Bool.true_and] at hBit
      rw [hBit]
      rfl

end CallMemory

namespace NativeThread

variable {table : NCallTable}

/- It is resumed at its stub, and exits with what is in `r3`. -/
theorem fetch_stub
    {t : NativeThread}
    {f : GuestFrame}
    {calls : List Ps3callInfo}
    {others : List Nat}
    (hLive : t.regs.rest.Live table f.stub)
    (hNip : t.nip = f.stub)
    (hLr : t.regs.lr = f.stub.setWidth 64)
    (hCalls : t.ps3calls = f.info :: calls)
    (hOthers : t.pscallContinuation = f.coroutine :: others) :
    (fetch table t.nip t.regs (.finish (t.regs.gpr 3)) t).map
        Prod.fst =
      some
        { t with
          emureg0 := (t.nip + 4).setWidth 64
          ps3calls := calls
          pscallContinuation := others
          nip := f.nip
          regs :=
            { t.regs with
              lr := f.lr
              rest := t.regs.rest.dealloc f.stub } } := by
  have hWiden (va : BitVec 32) :
      (va.setWidth 64).setWidth 32 = va := by
    rw [BitVec.setWidth_setWidth_of_le va (by omega),
      BitVec.setWidth_eq]
  have hCode : t.regs.rest.code t.nip = some table.thenIndex := by
    rw [hNip, hLive.code]
  simp only [fetch, hCode, Option.bind_some, ncall,
    table.thenIndex_lt, if_true, ps3callThen, hCalls, hOthers,
    runCoroutine, hLr, hWiden, GuestFrame.info, setGPR,
    Registers.setGPR, CallMemory.free, hLive.allocated]
  simp [Function.update_eq_self]

end NativeThread

------------------------------------------------------------
-- Open Calls
------------------------------------------------------------

namespace Splice

variable (s : Splice R)

/-
  What is in `LR` when the calls of `frames` are open and the
  outermost was made with `caller` there.
-/
def Linked
    (caller : BitVec 64) : BitVec 64 → List GuestFrame → Prop
  | lr, [] => lr = caller
  | lr, f :: frames =>
      lr = f.stub.setWidth 64 ∧ f.nip = f.lr.setWidth 32 ∧
        Linked caller f.lr frames

/- The thread is in the program, where that is. -/
structure InPlace
    (frames : List GuestFrame)
    (w : Watched R)
    (t : SplicedThread R) : Prop where
  nip : t.nip = w.nip
  opened :
    w.opened =
      List.replicate frames.length (w.regs.lr.setWidth 32)
  log : w.log = t.log
  guest :
    frames ≠ [] →
      t.regs.rest.code t.nip ≠ some s.table.thenIndex

/- The function has returned, and the thread is at a stub. -/
structure Pending
    (frames : List GuestFrame)
    (w : Watched R)
    (t : SplicedThread R) : Prop where
  nonempty : frames ≠ []
  nip : t.nip = t.regs.lr.setWidth 32
  target : w.nip = w.regs.lr.setWidth 32
  opened : w.opened = []
  log :
    w.log = t.log ++ List.replicate frames.length .after

/- What every step keeps. -/
structure Mirrors
    (start : SplicedThread R)
    (c : GuestCalls)
    (w : Watched R)
    (t : SplicedThread R) : Prop where
  spliced : ∀ va, c.memory.code va = some s.index ↔ va = s.ea
  proper : c.Proper s.ncallTable
  calls :
    NativeThread.Matches start.toNativeThread c
      t.toNativeThread
  regs : t.view.regs = w.regs.withLR t.regs.lr
  linked : Linked w.regs.lr t.regs.lr c.frames
  aligned :
    c.frames ≠ [] → w.regs.lr &&& ~~~3#64 = w.regs.lr
  counted :
    t.log.count .before = t.log.count .after + c.frames.length
  place : s.InPlace c.frames w t ∨ Pending c.frames w t

theorem count_snoc_before
    {log : List Callback}
    {n : Nat}
    (hCount : log.count .before = log.count .after + n) :
    (log ++ [Callback.before]).count .before =
      (log ++ [Callback.before]).count .after + (n + 1) := by
  simp [List.count_append, hCount]
  omega

theorem count_snoc_after
    {log : List Callback}
    {n : Nat}
    (hCount : log.count .before = log.count .after + (n + 1)) :
    (log ++ [Callback.after]).count .before =
      (log ++ [Callback.after]).count .after + n := by
  simp [List.count_append, hCount]
  omega

variable {s} {start t u : SplicedThread R} {c : GuestCalls}
variable {w : Watched R}
variable {stub : Option (BitVec 32)}

namespace Mirrors

variable (hMirrors : s.Mirrors start c w t)

include hMirrors

theorem inside_iff :
    t.Inside ↔ c.frames ≠ [] := by
  rw [SplicedThread.Inside, hMirrors.counted,
    ← List.length_pos_iff]
  omega

/- Outside of all calls, the thread has its own `LR`. -/
theorem view_eq
    (hFrames : c.frames = []) :
    s.InPlace c.frames w t ∧ t.view = w.toPPUThread := by
  have hLinked := hMirrors.linked
  have hRegs := hMirrors.regs
  rw [hFrames] at hLinked
  have hLr : t.regs.lr = w.regs.lr := hLinked
  rw [hLr] at hRegs
  rcases hMirrors.place with hPlace | hPending
  · refine ⟨hPlace, ?_⟩
    change PPUThread.mk t.nip t.view.regs = _
    rw [hPlace.nip, hRegs]
    rfl
  · exact absurd hFrames hPending.nonempty

/- Within a call, `LR` holds a stub that is in place. -/
theorem exists_frame
    (hFrames : c.frames ≠ []) :
    ∃ f frames,
      c.frames = f :: frames ∧
        t.regs.lr = f.stub.setWidth 64 ∧
        f.nip = f.lr.setWidth 32 ∧
        Linked w.regs.lr f.lr frames ∧
        c.memory.Live s.ncallTable f.stub := by
  rcases List.exists_cons_of_ne_nil hFrames with
    ⟨f, frames, hCons⟩
  have hLinked := hMirrors.linked
  rw [hCons] at hLinked
  exact
    ⟨f, frames, hCons, hLinked.1, hLinked.2.1, hLinked.2.2,
      hMirrors.proper.live f (by simp [hCons])⟩

end Mirrors

------------------------------------------------------------
-- Calls
------------------------------------------------------------

/- The first instruction has to do with registers only. -/
theorem first_eq
    (s : Splice R)
    (hFlow : (analyze s.instr s.ea).flow = false) :
    (∃ f, emulate s.env s.instr (s.ea.setWidth 64) =
        onRegisters f) ∧
      ∀ r : Registers R, returns s.instr r = false := by
  unfold emulate returns
  cases hDecode : decode s.instr with
  | none =>
      exact
        ⟨⟨fun _ => .error .illegalInstruction, rfl⟩,
          fun _ => rfl⟩
  | some i =>
      have hSets : i.setsNip = false := by
        by_contra hNot
        rw [flow_of_setsNip hDecode (by simpa using hNot)]
          at hFlow
        cases hFlow
      refine
        ⟨emulateInstr_eq_onRegisters s.env hSets s.instr _, ?_⟩
      intro r
      cases i with
      | branch i => cases hSets
      | system i =>
          cases i with
          | ncall => cases hSets
          | _ => rfl
      | _ => rfl

/- It does the same with the caller's address in `LR`. -/
theorem first_withLR
    (hEnv : s.env.LinkFree)
    (hFlow : (analyze s.instr s.ea).flow = false)
    (hKeeps : s.KeepsEntry t stub)
    (hMirrors : s.Mirrors start c w t) :
    ∃ f : Registers R → Except Fault (Registers R),
      emulate s.env s.instr (s.ea.setWidth 64) =
          onRegisters f ∧
        f w.regs =
          (f t.view.regs).map (·.withLR w.regs.lr) ∧
        ∀ r, f t.view.regs = .ok r → r.lr = t.regs.lr := by
  rcases first_eq s hFlow with ⟨⟨f, hFirst⟩, hReturns⟩
  have hNcall :
      decode s.instr = some (.system .ncall) →
        s.env.ReturnsFrom (idx s.instr) := by
    intro hDecode
    have hTrue : returns s.instr w.regs = true := by
      simp only [returns, hDecode]
    rw [hReturns] at hTrue
    cases hTrue
  have hLr : ∀ r, f t.view.regs = .ok r → r.lr = t.regs.lr := by
    intro r hRun
    have hWhole :
        emulate s.env s.instr (s.ea.setWidth 64) t.view =
          .ok { t.view with regs := r } := by
      rw [hFirst, onRegisters, hRun]
      rfl
    exact
      (emulate_lr hEnv hKeeps.writes hNcall hKeeps.aligned
        hWhole).1
  refine ⟨f, hFirst, ?_, hLr⟩
  by_cases hFrames : c.frames = []
  · -- no call is open, and nothing has changed in `LR`
    have hView := (hMirrors.view_eq hFrames).2
    have hRegs : w.regs = t.view.regs :=
      congrArg PPUThread.regs hView.symm
    rw [hRegs]
    cases hRun : f t.view.regs with
    | error e => rfl
    | ok r =>
        change Except.ok r = Except.ok (r.withLR t.regs.lr)
        rw [← hLr r hRun]
        rfl
  · have hReads :=
      hKeeps.reads (hMirrors.inside_iff.mpr hFrames)
    have hSame :=
      emulate_setLR hEnv hReads hKeeps.writes hNcall
        (s.ea.setWidth 64) t.view (hMirrors.aligned hFrames)
    rw [hFirst, hReturns] at hSame
    have hRegs : t.view.regs.withLR w.regs.lr = w.regs := by
      rw [hMirrors.regs]
      rfl
    change
      (f (t.view.regs.withLR w.regs.lr)).map _ =
        ((f t.view.regs).map _).map _ at hSame
    rw [hRegs] at hSame
    cases hRun : f t.view.regs with
    | error e =>
        rw [hRun] at hSame
        cases hRun' : f w.regs with
        | error e' =>
            rw [hRun'] at hSame
            cases hSame
            rfl
        | ok r =>
            rw [hRun'] at hSame
            cases hSame
    | ok r =>
        rw [hRun] at hSame
        cases hRun' : f w.regs with
        | error e' =>
            rw [hRun'] at hSame
            cases hSame
        | ok r' =>
            rw [hRun'] at hSame
            have hEq :=
              congrArg PPUThread.regs (Except.ok.inj hSame)
            exact congrArg Except.ok hEq

/- The thread behind the first instruction, which left `r`. -/
theorem enter_of_ok
    {nip va : BitVec 32}
    {r : Registers R}
    (hRun :
      emulate s.env s.instr (s.ea.setWidth 64)
          { t.view with nip := t.regs.lr.setWidth 32 } =
        .ok ⟨nip, r⟩) :
    s.enter t (some va) =
      some
        { t with
          nip := s.ea + 4
          regs :=
            { r with
              lr := va.setWidth 64
              gpr :=
                Function.update r.gpr 2
                  (((r.gpr 2).setWidth 32).setWidth 64)
              rest :=
                (t.regs.rest.internalAlloc va).encodeNCall va
                  s.table.thenIndex }
          emureg0 := (t.nip + 4).setWidth 64
          ps3calls := ⟨nip.setWidth 64, r.lr⟩ :: t.ps3calls
          pscallContinuation :=
            t.coroutines :: t.pscallContinuation
          coroutines := t.coroutines + 1
          data := r.rest
          log := t.log ++ [.before] } := by
  unfold enter
  change
    (emulate s.env s.instr (s.ea.setWidth 64)
      { t.view with
        nip := t.regs.lr.setWidth 32 }).toOption.bind _ = _
  rw [hRun]
  rfl

theorem enter_of_error
    {e : Fault}
    (hRun :
      emulate s.env s.instr (s.ea.setWidth 64)
          { t.view with nip := t.regs.lr.setWidth 32 } =
        .error e) :
    s.enter t stub = none := by
  unfold enter
  change
    (emulate s.env s.instr (s.ea.setWidth 64)
      { t.view with
        nip := t.regs.lr.setWidth 32 }).toOption.bind _ = _
  rw [hRun]
  rfl

/- A stub somewhere else leaves the splice in place. -/
theorem spliced_of_fresh
    {m : CallMemory}
    {va : BitVec 32}
    (hSpliced : ∀ a, m.code a = some s.index ↔ a = s.ea)
    (hFresh : m.Fresh va)
    (hEa : va ≠ s.ea)
    (a : BitVec 32) :
    ((m.internalAlloc va).encodeNCall va
        s.table.thenIndex).code a = some s.index ↔
      a = s.ea := by
  rw [hFresh.code]
  split_ifs with hStub
  · have hThen : s.table.thenIndex ≠ s.index :=
      Nat.ne_of_lt s.table.thenIndex_lt
    constructor
    · intro hIndex
      exact absurd (Option.some.inj hIndex) hThen
    · rintro rfl
      exact absurd hStub.symm hEa
  · exact hSpliced a

/- A call of the function, in the thread and in the program. -/
theorem mirrors_enter
    (hEnv : s.env.LinkFree)
    (hFlow : (analyze s.instr s.ea).flow = false)
    (hMirrors : s.Mirrors start c w t)
    (hPlace : s.InPlace c.frames w t)
    (hNip : t.nip = s.ea)
    (hKeeps : s.KeepsEntry t stub) :
    Option.Rel (fun u v => ∃ d, s.Mirrors start d v u)
      (s.enter t stub) (s.watch w) := by
  rcases first_withLR hEnv hFlow hKeeps hMirrors with
    ⟨f, hFirst, hBoth, hLr⟩
  rcases hKeeps.block with ⟨va, rfl, hFresh, hEa, hEntry⟩
  have hMemory : t.regs.rest = c.memory := hMirrors.calls.memory
  have hWatched : w.nip = s.ea := hPlace.nip.symm.trans hNip
  have hText : s.text w.nip = s.instr := by
    rw [hWatched]
    rfl
  have hProgram :
      Ppu.step s.env (s.text w.nip) w.nip w.toPPUThread =
        ((f t.view.regs).map (·.withLR w.regs.lr)).map
          (fun r => ⟨s.ea + 4, r⟩) := by
    unfold Ppu.step
    rw [hText, hWatched, hFirst, ← hBoth]
    rfl
  have hThread :
      emulate s.env s.instr (s.ea.setWidth 64)
          { t.view with nip := t.regs.lr.setWidth 32 } =
        (f t.view.regs).map
          (fun r => ⟨t.regs.lr.setWidth 32, r⟩) := by
    rw [hFirst]
    rfl
  unfold watch
  simp only [hProgram, if_pos hWatched]
  cases hRun : f t.view.regs with
  | error e =>
      rw [hRun] at hThread
      rw [enter_of_error hThread]
      exact .none
  | ok r =>
      rw [hRun] at hThread
      have hGpr :
          Function.update r.gpr 2
            (((r.gpr 2).setWidth 32).setWidth 64) = r.gpr := by
        rw [hKeeps.toc _ hThread, Function.update_eq_self]
      rw [enter_of_ok hThread]
      have hKept : r.lr = t.regs.lr := hLr r hRun
      have hCaller : w.regs.lr &&& ~~~3#64 = w.regs.lr := by
        by_cases hFrames : c.frames = []
        · rw [← congrArg (fun o => o.regs.lr)
            (hMirrors.view_eq hFrames).2]
          exact hKeeps.aligned
        · exact hMirrors.aligned hFrames
      rw [hMemory] at hFresh
      let d : GuestCalls :=
        { frames :=
            ⟨c.coroutines, t.regs.lr.setWidth 32, t.regs.lr,
              va⟩ :: c.frames
          coroutines := c.coroutines + 1
          memory :=
            (c.memory.internalAlloc va).encodeNCall va
              s.table.thenIndex }
      have hPerform :
          GuestCalls.perform s.ncallTable
            { c with coroutines := c.coroutines + 1 }
            c.coroutines (t.regs.lr.setWidth 32) t.regs.lr
            (.ps3call ⟨s.ea + 4, 0⟩ [] (some va)) = some d :=
        if_pos hFresh
      have hProper :
          GuestCalls.Proper s.ncallTable
            { c with coroutines := c.coroutines + 1 } :=
        ⟨hMirrors.proper.nodup, hMirrors.proper.live⟩
      refine .some ⟨d, ?_⟩
      refine
        { spliced :=
            spliced_of_fresh hMirrors.spliced hFresh hEa
          proper := GuestCalls.proper_perform hProper hPerform
          calls := ⟨?_, ?_, ?_, ?_⟩
          regs := ?_
          linked := ⟨rfl, rfl, ?_⟩
          aligned := fun _ => ?_
          counted := ?_
          place := .inl ⟨?_, ?_, ?_, ?_⟩ }
      · change _ :: t.ps3calls = _ :: _
        rw [hKept, hMirrors.calls.ps3calls]
        rfl
      · change _ :: t.pscallContinuation = _ :: _
        rw [hMirrors.calls.continuations,
          hMirrors.calls.coroutines]
        rfl
      · exact congrArg (· + 1) hMirrors.calls.coroutines
      · rw [hMemory]
      · rw [hGpr]
        rfl
      · exact hMirrors.linked
      · by_cases hFrames : c.frames = []
        · have hLr :=
            congrArg (fun o => o.regs.lr)
              (hMirrors.view_eq hFrames).2
          exact hLr ▸ hKeeps.aligned
        · exact hMirrors.aligned hFrames
      · exact count_snoc_before hMirrors.counted
      · rfl
      · change w.regs.lr.setWidth 32 :: w.opened = _
        rw [hPlace.opened]
        rfl
      · change w.log ++ _ = t.log ++ _
        rw [hPlace.log]
      · intro _
        change
          ((t.regs.rest.internalAlloc va).encodeNCall va
            s.table.thenIndex).code (s.ea + 4) ≠ _
        rw [hMemory, hFresh.code, if_neg hEntry.symm, ← hMemory]
        exact hKeeps.entry

------------------------------------------------------------
-- Guest Code
------------------------------------------------------------

/- What the stacks and the memory have to do with is kept. -/
theorem Mirrors.put
    {v : Watched R}
    {o : PPUThread R}
    (hMirrors : s.Mirrors start c w t)
    (hRegs : o.regs = v.regs.withLR o.regs.lr)
    (hLinked : Linked v.regs.lr o.regs.lr c.frames)
    (hAligned :
      c.frames ≠ [] → v.regs.lr &&& ~~~3#64 = v.regs.lr)
    (hPlace :
      s.InPlace c.frames v (t.put o) ∨
        Pending c.frames v (t.put o)) :
    s.Mirrors start c v (t.put o) where
  spliced := hMirrors.spliced
  proper := hMirrors.proper
  calls :=
    ⟨hMirrors.calls.ps3calls, hMirrors.calls.continuations,
      hMirrors.calls.coroutines, hMirrors.calls.memory⟩
  regs := hRegs
  linked := hLinked
  aligned := hAligned
  counted := hMirrors.counted
  place := hPlace

/- Outside of all calls, the two do the same. -/
theorem mirrors_guest_outside
    (hMirrors : s.Mirrors start c w t)
    (hFrames : c.frames = [])
    (hNip : w.nip ≠ s.ea) :
    Option.Rel (fun u v => ∃ d, s.Mirrors start d v u)
      (s.guest t) (s.watch w) := by
  rcases hMirrors.view_eq hFrames with ⟨hPlace, hView⟩
  have hOpened : w.opened = [] := by
    rw [hPlace.opened, hFrames]
    rfl
  have hLog := hPlace.log
  unfold guest watch
  rw [hPlace.nip, hView]
  cases Ppu.step s.env (s.text w.nip) w.nip w.toPPUThread with
  | error e => exact .none
  | ok o =>
      have hWatched :
          (if returns (s.text w.nip) w.regs then
            let ended := w.opened.takeWhile (· == o.nip)
            ({ o with
              opened := w.opened.drop ended.length
              log :=
                w.log ++ List.replicate ended.length .after } :
              Watched R)
          else { o with opened := w.opened, log := w.log }) =
            { o with opened := [], log := t.log } := by
        rw [hOpened, hLog]
        split
        · simp
        · rfl
      simp only [if_neg hNip, Except.toOption,
        Option.map_some, hWatched]
      refine .some ⟨c, hMirrors.put rfl ?_ ?_ (.inl ?_)⟩
      · rw [hFrames]
        rfl
      · exact fun hSome => absurd hFrames hSome
      · rw [hFrames]
        exact ⟨rfl, rfl, rfl, fun hSome => absurd rfl hSome⟩

/-
  Within a call, the program does the same with the caller's
  address in `LR`, and goes there when the thread goes to the
  stub.
-/
theorem step_inside
    (hEnv : s.env.LinkFree)
    (hMirrors : s.Mirrors start c w t)
    (hFrames : c.frames ≠ [])
    (hPlace : s.InPlace c.frames w t)
    (hKeeps : s.KeepsLink t) :
    Ppu.step s.env (s.text w.nip) w.nip w.toPPUThread =
        (Ppu.step s.env (s.text t.nip) t.nip t.view).map
          (fun o =>
            if returns (s.text t.nip) t.view.regs then
              o.returnTo w.regs.lr
            else o.setLR w.regs.lr) ∧
      ∀ o, Ppu.step s.env (s.text t.nip) t.nip t.view = .ok o →
        o.regs.lr = t.regs.lr ∧
          (returns (s.text t.nip) t.view.regs = true →
            o.nip = t.regs.lr.setWidth 32) := by
  have hRegs : w.regs = t.view.regs.withLR w.regs.lr := by
    rw [hMirrors.regs]
    rfl
  have hAligned : t.regs.lr &&& ~~~3#64 = t.regs.lr := by
    rcases hMirrors.exists_frame hFrames with
      ⟨f, -, -, hLr, -, -, hLive⟩
    rw [hLr]
    exact hLive.aligned_lr
  constructor
  · have hThread :
        { w.toPPUThread with nip := w.nip + 4#32 } =
          PPUThread.setLR { t.view with nip := t.nip + 4#32 }
            w.regs.lr := by
      rw [hPlace.nip]
      exact congrArg (PPUThread.mk _) hRegs
    rw [← hPlace.nip] at hThread ⊢
    unfold Ppu.step
    rw [hThread]
    exact
      emulate_setLR hEnv hKeeps.reads hKeeps.writes
        hKeeps.ncall _ _ (hMirrors.aligned hFrames)
  · intro o hRun
    exact
      emulate_lr hEnv hKeeps.writes hKeeps.ncall hAligned hRun

theorem mirrors_guest_inside
    (hEnv : s.env.LinkFree)
    (hMirrors : s.Mirrors start c w t)
    (hFrames : c.frames ≠ [])
    (hPlace : s.InPlace c.frames w t)
    (hNip : w.nip ≠ s.ea)
    (hKeeps : s.KeepsLink t) :
    Option.Rel (fun u v => ∃ d, s.Mirrors start d v u)
      (s.guest t) (s.watch w) := by
  rcases step_inside hEnv hMirrors hFrames hPlace hKeeps with
    ⟨hSame, hLr⟩
  unfold guest watch
  simp only [hSame, if_neg hNip]
  have hReturns :
      returns (s.text w.nip) w.regs =
        returns (s.text t.nip) t.view.regs := by
    rw [hPlace.nip, hMirrors.regs, returns_withLR]
  rw [hReturns]
  cases hRun : Ppu.step s.env (s.text t.nip) t.nip t.view with
  | error e => exact .none
  | ok o =>
      rcases hLr o hRun with ⟨hKept, hBack⟩
      simp only [Except.map, Except.toOption, Option.map_some]
      cases hReturned : returns (s.text t.nip) t.view.regs with
      | false =>
          simp only [Bool.false_eq_true, if_false]
          refine
            .some
              ⟨c, hMirrors.put rfl (hKept ▸ hMirrors.linked)
                hMirrors.aligned (.inl ?_)⟩
          exact
            ⟨rfl, hPlace.opened, hPlace.log,
              fun _ => hKeeps.target o hRun hReturned⟩
      | true =>
          -- every open call came from the caller's address
          have hOver :
              (w.opened.takeWhile
                (· == (o.returnTo w.regs.lr).nip)).length =
                c.frames.length := by
            simp [hPlace.opened, PPUThread.returnTo]
          simp only [if_true]
          refine
            .some
              ⟨c, hMirrors.put rfl (hKept ▸ hMirrors.linked)
                hMirrors.aligned (.inr ?_)⟩
          refine ⟨hFrames, ?_, rfl, ?_, ?_⟩
          · change o.nip = o.regs.lr.setWidth 32
            rw [hKept, hBack hReturned]
          · change w.opened.drop (w.opened.takeWhile _).length = []
            rw [hOver, hPlace.opened]
            simp
          · change
              w.log ++
                  List.replicate (w.opened.takeWhile _).length
                    .after = t.log ++ _
            rw [hOver, hPlace.log]

------------------------------------------------------------
-- Returns
------------------------------------------------------------

/- A stub is no spliced function. -/
theorem step_of_stub
    (hCode : t.regs.rest.code t.nip = some s.table.thenIndex) :
    s.step t stub = s.leave t := by
  have hThen : s.table.thenIndex ≠ s.index :=
    Nat.ne_of_lt s.table.thenIndex_lt
  unfold step
  rw [hCode, if_neg (fun hIndex => hThen (Option.some.inj hIndex)),
    if_pos rfl]

/- The thread leaves the innermost call; the program is done. -/
theorem mirrors_leave
    {f : GuestFrame}
    {frames : List GuestFrame}
    (hMirrors : s.Mirrors start c w t)
    (hPending : Pending c.frames w t)
    (hFrames : c.frames = f :: frames) :
    t.regs.rest.code t.nip = some s.table.thenIndex ∧
      ∃ u, s.leave t = some u ∧
        s.Mirrors start
          { c with
            frames := frames
            memory := c.memory.dealloc f.stub } w u := by
  have hMemory : t.regs.rest = c.memory := hMirrors.calls.memory
  have hLinked := hMirrors.linked
  rw [hFrames] at hLinked
  rcases hLinked with ⟨hLr, hSaved, hRest⟩
  rcases hMirrors.proper.of_cons hFrames with
    ⟨hProper, hLive, hOwner⟩
  have hNip : t.nip = f.stub := by
    rw [hPending.nip, hLr,
      BitVec.setWidth_setWidth_of_le f.stub (by omega),
      BitVec.setWidth_eq]
  have hCode : t.regs.rest.code t.nip = some s.table.thenIndex := by
    rw [hMemory, hNip]
    exact hLive.code
  have hCalls := hMirrors.calls.ps3calls
  have hOthers := hMirrors.calls.continuations
  rw [hFrames, List.map_cons, List.cons_append]
    at hCalls hOthers
  have hFetch :=
    @NativeThread.fetch_stub s.ncallTable t.toNativeThread f _ _
      (hMemory ▸ hLive) hNip hLr hCalls hOthers
  rcases Option.map_eq_some_iff.mp hFetch with
    ⟨⟨n, o⟩, hRun, hEq⟩
  refine
    ⟨hCode, { t.withNative n with log := t.log ++ [.after] }, ?_,
      ?_⟩
  · unfold leave
    rw [hRun]
    rfl
  · obtain rfl : n = _ := hEq
    have hCount := hMirrors.counted
    rw [hFrames] at hCount
    refine
      { spliced := hMirrors.spliced
        proper := hProper.dealloc hOwner
        calls :=
          ⟨rfl, rfl, hMirrors.calls.coroutines,
            congrArg (CallMemory.dealloc · f.stub) hMemory⟩
        regs := ?_
        linked := hRest
        aligned :=
          fun _ => hMirrors.aligned hPending.nonempty
        counted := count_snoc_after hCount
        place := ?_ }
    · have hRegs :=
        congrArg (Registers.withLR · f.lr) hMirrors.regs
      exact hRegs
    · have hLog := hPending.log
      rw [hFrames, List.length_cons, List.replicate_succ,
        List.append_cons] at hLog
      cases frames with
      | nil =>
          -- this was the outermost call
          have hCaller : f.lr = w.regs.lr := hRest
          refine .inl ⟨?_, hPending.opened, ?_, ?_⟩
          · rw [hPending.target, ← hCaller]
            exact hSaved
          · simpa using hLog
          · exact fun hNone => absurd rfl hNone
      | cons g frames =>
          exact
            .inr
              ⟨List.cons_ne_nil _ _, hSaved, hPending.target,
                hPending.opened, hLog⟩

/-
  Once the program has returned, the thread leaves all of the
  calls that are open, whatever the internal memory has.
-/
theorem exec_of_returned
    {stubs : List (Option (BitVec 32))}
    (hMirrors : s.Mirrors start c w t)
    (hOpened : w.opened = [])
    (hLength : stubs.length = c.frames.length) :
    ∃ u,
      Transition.exec s.step t stubs = some u ∧
        u.view = w.toPPUThread ∧ u.log = w.log ∧
        u.ps3calls = start.ps3calls ∧
        u.pscallContinuation = start.pscallContinuation := by
  induction stubs generalizing c t with
  | nil =>
      have hFrames : c.frames = [] :=
        List.length_eq_zero_iff.mp hLength.symm
      rcases hMirrors.view_eq hFrames with ⟨hPlace, hView⟩
      have hCalls := hMirrors.calls.ps3calls
      have hOthers := hMirrors.calls.continuations
      rw [hFrames] at hCalls hOthers
      exact ⟨t, rfl, hView, hPlace.log.symm, hCalls, hOthers⟩
  | cons stub stubs ih =>
      cases hFrames : c.frames with
      | nil =>
          rw [hFrames] at hLength
          cases hLength
      | cons f frames =>
          rw [hFrames] at hLength
          have hPending : Pending c.frames w t := by
            rcases hMirrors.place with hPlace | hPending
            · have hSome := hPlace.opened
              rw [hOpened, hFrames] at hSome
              cases hSome
            · exact hPending
          rcases mirrors_leave hMirrors hPending hFrames with
            ⟨hCode, u, hLeave, hAfter⟩
          rcases ih hAfter (Nat.succ.inj hLength) with
            ⟨v, hExec, hRest⟩
          refine ⟨v, ?_, hRest⟩
          rw [Transition.exec, step_of_stub hCode, hLeave]
          exact hExec

------------------------------------------------------------
-- Transparency
------------------------------------------------------------

/- A step of the thread is one of the program, or of none. -/
theorem mirrors_step
    (hEnv : s.env.LinkFree)
    (hFlow : (analyze s.instr s.ea).flow = false)
    (hMirrors : s.Mirrors start c w t)
    (hKeeps : s.Keeps t stub) :
    (∃ u d, s.step t stub = some u ∧ s.Mirrors start d w u) ∨
      Option.Rel (fun u v => ∃ d, s.Mirrors start d v u)
        (s.step t stub) (s.watch w) := by
  rcases hMirrors.place with hPlace | hPending
  · right
    have hSpliced := hMirrors.spliced t.nip
    rw [← hMirrors.calls.memory] at hSpliced
    unfold Keeps at hKeeps
    unfold step
    split_ifs at hKeeps ⊢ with hIndex hThen
    · exact
        mirrors_enter hEnv hFlow hMirrors hPlace
          (hSpliced.mp hIndex) hKeeps
    · exact
        absurd hThen
          (hPlace.guest (hMirrors.inside_iff.mp hKeeps))
    · have hNip : w.nip ≠ s.ea := by
        rw [← hPlace.nip]
        exact fun hEa => hIndex (hSpliced.mpr hEa)
      by_cases hFrames : c.frames = []
      · exact mirrors_guest_outside hMirrors hFrames hNip
      · exact
          mirrors_guest_inside hEnv hMirrors hFrames hPlace hNip
            (hKeeps (hMirrors.inside_iff.mpr hFrames))
  · left
    rcases List.exists_cons_of_ne_nil hPending.nonempty with
      ⟨f, frames, hFrames⟩
    rcases mirrors_leave hMirrors hPending hFrames with
      ⟨hCode, u, hLeave, hAfter⟩
    exact ⟨u, _, (step_of_stub hCode).trans hLeave, hAfter⟩

/- The thread that `spliceFunction` leaves. -/
theorem mirrors_start
    {thread : NativeThread}
    {data : R}
    (hFlow : (analyze s.instr s.ea).flow = false)
    (hEa : s.ea ≠ 0#32)
    (hNew : ∀ va, thread.regs.rest.code va ≠ some s.index) :
    let start := s.spliceFunction thread data
    s.Mirrors start (GuestCalls.start start.toNativeThread)
      (unwatched start) start := by
  unfold spliceFunction
  rw [hFlow]
  refine
    { spliced := ?_
      proper := ⟨List.nodup_nil, List.forall_mem_nil _⟩
      calls := NativeThread.matches_start _
      regs := rfl
      linked := rfl
      aligned := fun hSome => absurd rfl hSome
      counted := rfl
      place := .inl ⟨rfl, rfl, rfl, fun hSome => absurd rfl hSome⟩ }
  intro va
  change
    (thread.regs.rest.encodeNCall s.ea s.index).code va =
        some s.index ↔ _
  unfold CallMemory.encodeNCall
  rw [if_neg hEa]
  change Function.update _ _ _ va = _ ↔ _
  rw [Function.update_apply]
  split_ifs with hVa
  · exact iff_of_true rfl hVa
  · exact iff_of_false (hNew va) hVa

theorem Mirrors.transparent
    (hEnv : s.env.LinkFree)
    (hFlow : (analyze s.instr s.ea).flow = false)
    (hMirrors : s.Mirrors start c w t) :
    s.Transparent start w t where
  within := by
    intro hOpened
    rcases hMirrors.place with hPlace | hPending
    · exact ⟨hPlace.nip, hPlace.log.symm, hMirrors.regs⟩
    · exact absurd hPending.opened hOpened
  returned := fun hOpened =>
    ⟨c.frames.length, fun _ hLength =>
      exec_of_returned hMirrors hOpened hLength⟩
  goesOn := by
    intro stub v hKeeps hWatches
    rcases mirrors_step hEnv hFlow hMirrors hKeeps with
      ⟨u, -, hStep, -⟩ | hRel
    · exact ⟨u, hStep⟩
    · rw [hWatches] at hRel
      cases hStep : s.step t stub with
      | none =>
          rw [hStep] at hRel
          cases hRel
      | some u => exact ⟨u, hStep⟩

/-
  Where `LR` is, to the function, the address to return to and
  nothing else, a thread with the splice does what the program
  does without, with `before` at each call of the function and
  `after` at each return.
-/
theorem transparent_of_keeps
    (s : Splice R)
    (hEnv : s.env.LinkFree)
    (thread : NativeThread)
    (data : R)
    (hFlow : (analyze s.instr s.ea).flow = false)
    (hEa : s.ea ≠ 0#32)
    (hNew : ∀ va, thread.regs.rest.code va ≠ some s.index)
    (stubs : List (Option (BitVec 32)))
    (hKeeps :
      Transition.EveryStep s.Steps
        (fun t stub _ => s.Keeps t stub)
        (s.spliceFunction thread data) stubs) :
    Transition.EveryState s.Steps
      (fun _ t =>
        ∃ w,
          Relation.ReflTransGen s.Watches
              (unwatched (s.spliceFunction thread data)) w ∧
            s.Transparent (s.spliceFunction thread data) w t)
      (s.spliceFunction thread data) stubs := by
  let start := s.spliceFunction thread data
  have hAll :
      Transition.EveryState s.Steps
        (fun _ t =>
          ∃ w c,
            Relation.ReflTransGen s.Watches (unwatched start)
                w ∧
              s.Mirrors start c w t)
        start stubs := by
    refine
      Transition.EveryStep.everyState ?_ hKeeps
        ⟨_, _, .refl, mirrors_start hFlow hEa hNew⟩
    rintro - t stub u ⟨w, c, hReach, hMirrors⟩ hKept hStep
    rcases mirrors_step hEnv hFlow hMirrors hKept with
      ⟨u', d, hStep', hAfter⟩ | hRel
    · obtain rfl := Option.some.inj (hStep.symm.trans hStep')
      exact ⟨w, d, hReach, hAfter⟩
    · rw [show s.step t stub = some u from hStep] at hRel
      cases hWatch : s.watch w with
      | none =>
          rw [hWatch] at hRel
          cases hRel
      | some v =>
          rw [hWatch] at hRel
          cases hRel with
          | some hBoth =>
              rcases hBoth with ⟨d, hAfter⟩
              exact ⟨v, d, hReach.tail hWatch, hAfter⟩
  intro before after t hEvents hRun
  rcases hAll before after t hEvents hRun with
    ⟨w, c, hReach, hMirrors⟩
  exact ⟨w, hReach, hMirrors.transparent hEnv hFlow⟩

/- `ps3call_then` alone. -/
def smallTable : NCallTable where
  size := 1
  thenIndex := 0
  containsContinuationArgument := fun _ => false
  thenIndex_lt := Nat.one_pos

/- The function at `0x100`, of these words. -/
def ofWords (words : List (BitVec 32)) : Splice Unit where
  env := idle Unit
  text := fun va =>
    words.getD ((va - 0x100#32) / 4#32).toNat 0#32
  table := smallTable
  ea := 0x100

/- Called from in front of `0x200`. -/
def callingThread : NativeThread where
  nip := 0x100
  regs :=
    { lr := 0x200
      ctr := 0
      gpr := fun _ => 0
      cr := 0
      xer := 0
      vrsave := 0
      rest :=
        { code := fun _ => none
          allocated := fun _ => false } }
  emureg0 := 0
  ps3calls := []
  pscallContinuation := []
  coroutines := 0

/- `addi r3, r3, 1` and `blr`. -/
def leaf : Splice Unit :=
  ofWords [0x38630001#32, 0x4e800020#32]

theorem transparent_of_keeps_leaf :
    Transition.EveryState leaf.Steps
      (fun _ t =>
        ∃ w,
          Relation.ReflTransGen leaf.Watches
              (unwatched (leaf.spliceFunction callingThread ()))
              w ∧
            leaf.Transparent
              (leaf.spliceFunction callingThread ()) w t)
      (leaf.spliceFunction callingThread ())
      [some 0x1000#32, none, none] := by
  refine
    transparent_of_keeps leaf
      ⟨fun _ _ _ _ => rfl, fun _ _ _ _ => rfl,
        fun _ _ _ _ => rfl, fun _ _ => rfl⟩
      callingThread () (by decide) (by decide)
      (fun va hIndex => by cases hIndex) _ ?_
  refine Transition.EveryStep.cons (fun t hCall => ⟨?_, ?_⟩)
  · exact
      { reads := fun _ => by decide
        writes := by decide
        toc := by
          intro u hRun
          cases hRun
          decide
        aligned := by decide
        entry := by decide
        block := ⟨0x1000, rfl, by decide⟩ }
  cases hCall
  refine Transition.EveryStep.cons (fun t hReturn => ⟨?_, ?_⟩)
  · intro _
    exact
      { reads := by decide
        writes := by decide
        ncall := fun hNcall => absurd hNcall (by decide)
        target := by
          intro u _ hNot
          exact absurd hNot (by decide) }
  cases hReturn
  refine Transition.EveryStep.cons (fun t hLeave => ⟨?_, ?_⟩)
  · change SplicedThread.Inside _
    decide
  · exact .nil t

/- `mflr r0`, `mtlr r0` and `blr`. -/
def nonLeaf : Splice Unit :=
  ofWords [0x7c0802a6#32, 0x7c0803a6#32, 0x4e800020#32]

/- Not what a thread is that is back without `after`. -/
def Missed (w : Watched Unit) : Prop :=
  if w.opened = [] then w.log ≠ [.before]
  else w.nip ≠ 0x200#32

instance (w : Watched Unit) : Decidable (Missed w) := by
  unfold Missed
  infer_instance

theorem missed_of_reach
    {w : Watched Unit}
    (hReach :
      Relation.ReflTransGen nonLeaf.Watches
        (unwatched (nonLeaf.spliceFunction callingThread ()))
        w) :
    Missed w := by
  rcases hReach.cases_head with rfl | ⟨v, hFirst, hReach⟩
  · decide
  cases hFirst
  rcases hReach.cases_head with rfl | ⟨v, hSecond, hReach⟩
  · decide
  cases hSecond
  rcases hReach.cases_head with rfl | ⟨v, hThird, hReach⟩
  · decide
  cases hThird
  -- there is no word for the caller to go on with
  rcases hReach.cases_head with rfl | ⟨v, hFourth, -⟩
  · decide
  cases hFourth

/-
  The first instruction of a function that calls others reads
  the caller's address, to which the function then returns.
-/
theorem nonLeaf_not_transparent :
    ¬ Transition.EveryState nonLeaf.Steps
        (fun _ t =>
          ∃ w,
            Relation.ReflTransGen nonLeaf.Watches
                (unwatched
                  (nonLeaf.spliceFunction callingThread ()))
                w ∧
              nonLeaf.Transparent
                (nonLeaf.spliceFunction callingThread ()) w t)
        (nonLeaf.spliceFunction callingThread ())
        [some 0x1000#32, none, none] := by
  intro hAll
  have hBack :
      ∃ t,
        Transition.exec nonLeaf.step
            (nonLeaf.spliceFunction callingThread ())
            [some 0x1000#32, none, none] = some t ∧
          t.nip = 0x200 ∧ t.log = [.before] ∧
            nonLeaf.step t none = none :=
    ⟨_, rfl, rfl, rfl, rfl⟩
  rcases hBack with ⟨t, hExec, hNip, hLog, hStop⟩
  rcases hAll _ [] t rfl (Transition.run_of_exec hExec) with
    ⟨w, hReach, hTransparent⟩
  have hMissed := missed_of_reach hReach
  unfold Missed at hMissed
  split_ifs at hMissed with hOpened
  · rcases hTransparent.returned hOpened with ⟨n, hRest⟩
    rcases hRest (List.replicate n none)
      List.length_replicate with ⟨u, hRun, -, hSame, -⟩
    cases n with
    | zero =>
        cases hRun
        exact hMissed (hSame.symm.trans hLog)
    | succ n =>
        rw [List.replicate_succ, Transition.exec, hStop] at hRun
        cases hRun
  · exact
      hMissed ((hTransparent.within hOpened).1.symm.trans hNip)

end Splice

end Ppu

end Ps3emu
