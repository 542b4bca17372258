import Mathlib.Data.List.Basic
import Mathlib.Data.List.Induction
import Mathlib.Data.List.Nodup
import Mathlib.Logic.Function.Basic
import Ps3emu.Library.Bytes
import Ps3emu.Memory.Address

/-
  Calls of native functions: `wrap` copies what the pointer
  arguments point to, calls the function on the copies, and
  copies them back.

  Key definitions include:
    * `Marshal.cells`, `Marshal.IsWrap`
    * `Marshal.exec`, `Marshal.run`
    * `Marshal.Transparent`
    * `Marshal.Undisturbed`

  Key theorems include:
    * `Marshal.held_run`
    * `Marshal.mem_run`
    * `Marshal.right_iff`
-/

------------------------------------------------------------
-- Arguments, Threads and Memory
------------------------------------------------------------

namespace Ps3emu

namespace Marshal

/- The register of a pointer, and the size of its element. -/
structure Arg where
  gpr : BitVec 64
  size : Nat

/- `_va`, the low word of the register. -/
def Arg.va (p : Arg) : Ps3Uintptr := p.gpr.setWidth 32

/- A byte of the copy `_t` of an argument, and its address. -/
structure Cell where
  arg : Nat
  byte : Nat
  ea : Ps3Uintptr
deriving DecidableEq

def Arg.cell (p : Arg) (arg byte : Nat) : Cell where
  arg := arg
  byte := byte
  ea := p.va + BitVec.ofNat 32 byte

/- The bytes of the copy of an argument that is not null. -/
def argCells (p : Arg) (arg : Nat) : List Cell :=
  if p.va = 0 then []
  else (List.range p.size).map (p.cell arg)

def cells (args : List Arg) : List Cell :=
  args.zipIdx.flatMap (fun p => argCells p.1 p.2)

/-
  What a thread does in `wrap`: the function assigns through
  its pointers, and it may also store in guest memory.
-/
inductive Action where
  | copyIn (c : Cell)
  | call
  | assign (c : Cell) (value : Byte)
  | store (ea : Ps3Uintptr) (value : Byte)
  | copyOut (c : Cell)
deriving DecidableEq

/- The function assigns to the copies that it was given. -/
def Action.InBody (args : List Arg) : Action → Prop
  | .assign c _ => c ∈ cells args
  | .store _ _ => True
  | _ => False

/-
  The holders are read in any order, and written one after
  the other.  `is_const` is asked about the pointer and not
  about its element, so it is never true.
-/
structure IsWrap
    (args : List Arg)
    (body actions : List Action) : Prop where
  inBody : ∀ x ∈ body, x.InBody args
  order :
    ∃ ins : List Action,
      ins.Perm ((cells args).map .copyIn) ∧
        actions =
          ins ++ .call :: (body ++ (cells args).map .copyOut)

/- A step of a thread, or a store by another agent. -/
inductive Event (T : Type) where
  | own (thread : T) (x : Action)
  | other (ea : Ps3Uintptr) (value : Byte)
deriving DecidableEq

structure State (T : Type) where
  mem : Ps3Uintptr → Byte
  held : T → Cell → Byte

variable {T : Type} [DecidableEq T]

def State.setMem
    (s : State T)
    (ea : Ps3Uintptr)
    (value : Byte) : State T :=
  { s with mem := Function.update s.mem ea value }

def State.setHeld
    (s : State T)
    (t : T)
    (c : Cell)
    (value : Byte) : State T :=
  { s with
    held :=
      Function.update s.held t
        (Function.update (s.held t) c value) }

def exec (s : State T) : Event T → State T
  | .own t (.copyIn c) => s.setHeld t c (s.mem c.ea)
  | .own _ .call => s
  | .own t (.assign c value) => s.setHeld t c value
  | .own _ (.store ea value) => s.setMem ea value
  | .own t (.copyOut c) => s.setMem c.ea (s.held t c)
  | .other ea value => s.setMem ea value

def run (s : State T) (events : List (Event T)) : State T :=
  events.foldl exec s

def Event.actionOf (t : T) : Event T → Option Action
  | .own u x => if u = t then some x else none
  | .other _ _ => none

/- What a thread does. -/
def actions
    (t : T)
    (events : List (Event T)) : List Action :=
  events.filterMap (Event.actionOf t)

/- An event of another thread or agent. -/
def Event.isOther (t : T) (e : Event T) : Bool :=
  (e.actionOf t).isNone

/- A step, or an event, writes a byte of guest memory. -/
def Action.writes (ea : Ps3Uintptr) : Action → Bool
  | .copyOut c => c.ea = ea
  | .store a _ => a = ea
  | _ => false

def Event.writes (ea : Ps3Uintptr) : Event T → Bool
  | .own _ x => x.writes ea
  | .other a _ => a = ea

------------------------------------------------------------
-- Specification and Condition
------------------------------------------------------------

/- The value that an event leaves in a byte of memory. -/
def written
    (s : State T)
    (ea : Ps3Uintptr)
    (e : Event T) : Byte :=
  (exec s e).mem ea

/-
  The value that the others have stored last in a byte, which
  is `value` before the events.
-/
def stored
    (t : T)
    (ea : Ps3Uintptr) :
    State T → Byte → List (Event T) → Byte
  | _, value, [] => value
  | s, value, e :: rest =>
      stored t ea (exec s e)
        (if e.isOther t && e.writes ea then written s ea e
          else value)
        rest

/- The last write of a byte is not by this thread. -/
def othersWroteLast
    (t : T)
    (ea : Ps3Uintptr)
    (events : List (Event T)) : Bool :=
  events.foldl
    (fun last e => if e.writes ea then e.isOther t else last)
    false

/- What the function assigns to a byte. -/
def Action.assigns (ea : Ps3Uintptr) : Action → Option Byte
  | .assign c value => if c.ea = ea then some value else none
  | .store a value => if a = ea then some value else none
  | _ => none

/- What it has assigned to a byte last. -/
def assigned
    (body : List Action)
    (ea : Ps3Uintptr) : Option Byte :=
  body.foldl (fun last x => (x.assigns ea).or last) none

/-
  A byte that the function has assigned has this value, or
  one that another agent has stored later.  Any other byte
  has the value that another agent has stored last.
-/
def Right
    (t : T)
    (s : State T)
    (body : List Action)
    (events : List (Event T))
    (ea : Ps3Uintptr) : Prop :=
  match assigned body ea with
  | some value =>
      (run s events).mem ea = value ∨
        othersWroteLast t ea events = true
  | none =>
      (run s events).mem ea = stored t ea s (s.mem ea) events

def Transparent
    (t : T)
    (s : State T)
    (body : List Action)
    (events : List (Event T)) : Prop :=
  ∀ ea, Right t s body events ea

/- The byte that is copied back last to an address. -/
def lastCell
    (args : List Arg)
    (ea : Ps3Uintptr) : Option Cell :=
  (cells args).reverse.find? (fun c => c.ea = ea)

/- The events before and after a step of a thread. -/
def before
    (t : T)
    (x : Action)
    (events : List (Event T)) : List (Event T) :=
  events.takeWhile (fun e => e ≠ .own t x)

def after
    (t : T)
    (x : Action)
    (events : List (Event T)) : List (Event T) :=
  (events.dropWhile (fun e => e ≠ .own t x)).drop 1

/- The value of a copied byte after the assignments to it. -/
def kept
    (c : Cell)
    (value : Byte)
    (body : List Action) : Byte :=
  body.foldl
    (fun old x =>
      match x with
      | .assign d new => if d = c then new else old
      | _ => old)
    value

/-
  The last pointer to a byte decides.  Its copy is current
  when it is copied back: if the function has assigned the
  byte, the copy has this value; if not, the others have left
  the byte as it was when it was copied.  Or else the byte is
  stored by another agent after that.
-/
def Undisturbed
    (t : T)
    (s : State T)
    (args : List Arg)
    (body : List Action)
    (events : List (Event T))
    (ea : Ps3Uintptr) : Prop :=
  match lastCell args ea with
  | none => True
  | some c =>
      (∃ e ∈ after t (.copyOut c) events,
          e.isOther t = true ∧ e.writes ea = true) ∨
        let copied :=
          stored t ea s (s.mem ea)
            (before t (.copyIn c) events)
        match assigned body ea with
        | some value => kept c copied body = value
        | none =>
            copied =
              stored t ea s (s.mem ea)
                (before t (.copyOut c) events)

------------------------------------------------------------
-- Events
------------------------------------------------------------

theorem actionOf_own (t : T) (x : Action) :
    (Event.own t x).actionOf t = some x :=
  if_pos rfl

theorem actionOf_of_ne
    {t u : T}
    (hNe : u ≠ t)
    (x : Action) :
    (Event.own u x).actionOf t = none :=
  if_neg hNe

variable {e : Event T}

theorem exists_of_isOther
    {t : T}
    (hOther : e.isOther t = false) :
    ∃ x, e.actionOf t = some x := by
  cases hOwn : e.actionOf t with
  | none =>
      rw [Event.isOther, hOwn] at hOther
      cases hOther
  | some x => exact ⟨x, rfl⟩

theorem isOther_of_actionOf
    {t : T}
    (hOwn : e.actionOf t = none) :
    e.isOther t = true := by
  rw [Event.isOther, hOwn]
  rfl

omit [DecidableEq T] in
theorem mem_setMem
    {s : State T}
    {a ea : Ps3Uintptr}
    {value : Byte} :
    (s.setMem a value).mem ea =
      if ea = a then value else s.mem ea :=
  Function.update_apply _ _ _ _

theorem held_setHeld
    {s : State T}
    {t u : T}
    {c d : Cell}
    {value : Byte} :
    (s.setHeld u d value).held t c =
      if t = u ∧ c = d then value else s.held t c := by
  unfold State.setHeld
  dsimp only
  by_cases hThread : t = u
  · subst hThread
    simp only [Function.update_self, Function.update_apply,
      true_and]
  · rw [Function.update_of_ne hThread, if_neg]
    exact fun hBoth => hThread hBoth.1

theorem written_of_not_writes
    {s : State T}
    {ea : Ps3Uintptr}
    (hWrites : e.writes ea = false) :
    written s ea e = s.mem ea := by
  have hOther :
      ∀ {a : Ps3Uintptr} {value : Byte},
        decide (a = ea) = false →
          (s.setMem a value).mem ea = s.mem ea := by
    intro a value hNe
    rw [mem_setMem, if_neg]
    exact fun hEq => of_decide_eq_false hNe hEq.symm
  cases e with
  | own u x =>
      cases x with
      | copyIn => rfl
      | call => rfl
      | assign => rfl
      | store => exact hOther hWrites
      | copyOut => exact hOther hWrites
  | other => exact hOther hWrites

variable {c : Cell}

/- What an event does to the copy of a byte. -/
theorem held_exec
    {s : State T}
    {t : T}
    (hNot : e.actionOf t ≠ some (.copyIn c)) :
    (exec s e).held t c =
      kept c (s.held t c) (e.actionOf t).toList := by
  cases e with
  | other => rfl
  | own u x =>
      by_cases hThread : u = t
      · subst hThread
        rw [actionOf_own] at hNot ⊢
        cases x with
        | copyIn d =>
            have hCell : c ≠ d := by
              rintro rfl
              exact hNot rfl
            rw [exec, held_setHeld,
              if_neg (fun hBoth => hCell hBoth.2)]
            rfl
        | call => rfl
        | assign d value =>
            rw [exec, held_setHeld]
            simp only [true_and, eq_comm (a := c)]
            rfl
        | store => rfl
        | copyOut => rfl
      · rw [actionOf_of_ne hThread]
        have hNe : t ≠ u := fun hEq => hThread hEq.symm
        cases x with
        | copyIn d =>
            rw [exec, held_setHeld,
              if_neg (fun hBoth => hNe hBoth.1)]
            rfl
        | call => rfl
        | assign d value =>
            rw [exec, held_setHeld,
              if_neg (fun hBoth => hNe hBoth.1)]
            rfl
        | store => rfl
        | copyOut => rfl

theorem held_copyIn
    {s : State T}
    {t : T}
    {c : Cell} :
    (exec s (.own t (.copyIn c))).held t c = s.mem c.ea := by
  rw [exec, held_setHeld, if_pos ⟨rfl, rfl⟩]

theorem mem_copyOut
    {s : State T}
    {t : T}
    {c : Cell} :
    (exec s (.own t (.copyOut c))).mem c.ea = s.held t c := by
  rw [exec, mem_setMem, if_pos rfl]

------------------------------------------------------------
-- Runs
------------------------------------------------------------

theorem run_append
    (s : State T)
    (first second : List (Event T)) :
    run s (first ++ second) = run (run s first) second :=
  List.foldl_append

theorem run_cons
    (s : State T)
    (e : Event T)
    (rest : List (Event T)) :
    run s (e :: rest) = run (exec s e) rest := rfl

theorem actions_append
    (t : T)
    (first second : List (Event T)) :
    actions t (first ++ second) =
      actions t first ++ actions t second :=
  List.filterMap_append

theorem actions_cons
    (t : T)
    (e : Event T)
    (rest : List (Event T)) :
    actions t (e :: rest) =
      (e.actionOf t).toList ++ actions t rest := by
  unfold actions
  cases hOwn : e.actionOf t with
  | none => rw [List.filterMap_cons_none hOwn]; rfl
  | some x => rw [List.filterMap_cons_some hOwn]; rfl

variable {x : Action}

theorem eq_own_of_actionOf
    {t : T}
    (hOwn : e.actionOf t = some x) :
    e = .own t x := by
  cases e with
  | other => cases hOwn
  | own u y =>
      by_cases hThread : u = t
      · subst hThread
        rw [actionOf_own] at hOwn
        rw [Option.some.inj hOwn]
      · rw [actionOf_of_ne hThread] at hOwn
        cases hOwn

theorem mem_actions
    {t : T}
    {events : List (Event T)}
    {x : Action} :
    x ∈ actions t events ↔ .own t x ∈ events := by
  unfold actions
  rw [List.mem_filterMap]
  constructor
  · rintro ⟨e, hMem, hOwn⟩
    rw [← eq_own_of_actionOf hOwn]
    exact hMem
  · intro hMem
    exact ⟨_, hMem, actionOf_own t x⟩

theorem actions_map_own (t : T) (xs : List Action) :
    actions t (xs.map (.own t)) = xs := by
  induction xs with
  | nil => rfl
  | cons x rest ih =>
      rw [List.map_cons, actions_cons, actionOf_own, ih]
      rfl

/- A step of the thread is an event of the run. -/
theorem split_actions
    {t : T}
    {events : List (Event T)}
    {first second : List Action}
    (hActions : actions t events = first ++ x :: second) :
    ∃ start rest,
      events = start ++ .own t x :: rest ∧
        actions t start = first ∧ actions t rest = second := by
  rcases List.filterMap_eq_append_iff.mp hActions with
    ⟨start, tail, rfl, hFirst, hTail⟩
  rcases List.filterMap_eq_cons_iff.mp hTail with
    ⟨gap, e, rest, rfl, hGap, hOwn, hSecond⟩
  have hNone : actions t gap = [] :=
    List.filterMap_eq_nil_iff.mpr hGap
  refine ⟨start ++ gap, rest, ?_, ?_, hSecond⟩
  · rw [eq_own_of_actionOf hOwn, List.append_assoc]
  · rw [actions_append, hNone, List.append_nil]
    exact hFirst

/- The events around a step that the thread takes once. -/
theorem before_eq
    {t : T}
    {x : Action}
    {start rest : List (Event T)}
    (hNot : x ∉ actions t start) :
    before t x (start ++ .own t x :: rest) = start ∧
      after t x (start ++ .own t x :: rest) = rest := by
  have hAll :
      ∀ e ∈ start, decide (e ≠ .own t x) = true := by
    intro e hMem
    apply decide_eq_true
    rintro rfl
    exact hNot (mem_actions.mpr hMem)
  constructor
  · rw [before, List.takeWhile_append_of_pos hAll]
    simp
  · rw [after, List.dropWhile_append_of_pos hAll]
    simp

/- The split of a run at a step that the thread takes once. -/
theorem eq_of_split
    {t : T}
    {first first' second second' : List (Event T)}
    (hEvents :
      first ++ .own t x :: second =
        first' ++ .own t x :: second')
    (hFirst : x ∉ actions t first)
    (hSecond : x ∉ actions t second) :
    first' = first := by
  rw [List.append_cons_inj_of_notMem
    (fun hMem => hFirst (mem_actions.mpr hMem))
    (fun hMem => hSecond (mem_actions.mpr hMem))] at hEvents
  exact hEvents.1.symm

theorem kept_append
    (c : Cell)
    (value : Byte)
    (first second : List Action) :
    kept c value (first ++ second) =
      kept c (kept c value first) second :=
  List.foldl_append

/- The copy of a byte changes with the assignments to it. -/
theorem held_run
    {s : State T}
    {t : T}
    {events : List (Event T)}
    (hNot : .copyIn c ∉ actions t events) :
    (run s events).held t c =
      kept c (s.held t c) (actions t events) := by
  induction events generalizing s with
  | nil => rfl
  | cons e rest ih =>
      rw [actions_cons, List.mem_append, not_or] at hNot
      have hHere : e.actionOf t ≠ some (.copyIn c) := by
        intro hOwn
        rw [hOwn] at hNot
        exact hNot.1 (List.mem_singleton_self _)
      rw [run_cons, ih hNot.2, held_exec hHere, actions_cons,
        kept_append]

theorem stored_append
    {s : State T}
    {t : T}
    {ea : Ps3Uintptr}
    {value : Byte}
    (first second : List (Event T)) :
    stored t ea s value (first ++ second) =
      stored t ea (run s first) (stored t ea s value first)
        second := by
  induction first generalizing s value with
  | nil => rfl
  | cons e rest ih =>
      rw [List.cons_append, stored, ih, run_cons]
      rfl

/- A byte that the thread does not write is as the others do. -/
theorem mem_run
    {s : State T}
    {t : T}
    {ea : Ps3Uintptr}
    {events : List (Event T)}
    (hNot : ∀ x ∈ actions t events, x.writes ea = false) :
    (run s events).mem ea =
      stored t ea s (s.mem ea) events := by
  induction events generalizing s with
  | nil => rfl
  | cons e rest ih =>
      rw [actions_cons, List.forall_mem_append] at hNot
      rw [run_cons, ih hNot.2, stored]
      congr 1
      cases hOther : e.isOther t with
      | true =>
          cases hWrites : e.writes ea with
          | true => rfl
          | false => exact written_of_not_writes hWrites
      | false =>
          rcases exists_of_isOther hOther with ⟨x, hOwn⟩
          rw [hOwn] at hNot
          have hWrites := hNot.1 x (List.mem_singleton_self x)
          rw [eq_own_of_actionOf hOwn]
          exact written_of_not_writes hWrites

/- The last of the others' stores is what they leave. -/
theorem stored_of_exists
    {s : State T}
    {t : T}
    {ea : Ps3Uintptr}
    {events : List (Event T)}
    (hStores :
      ∃ e ∈ events, e.isOther t = true ∧ e.writes ea = true)
    (value value' : Byte) :
    stored t ea s value events =
      stored t ea s value' events := by
  induction events generalizing s value value' with
  | nil =>
      rcases hStores with ⟨e, hMem, -⟩
      cases hMem
  | cons e rest ih =>
      rw [stored, stored]
      rcases hStores with ⟨d, hMem, hOther, hWrites⟩
      rcases List.mem_cons.mp hMem with rfl | hRest
      · rw [hOther, hWrites]
        rfl
      · exact ih ⟨d, hRest, hOther, hWrites⟩ _ _

theorem stored_of_not_exists
    {s : State T}
    {t : T}
    {ea : Ps3Uintptr}
    {events : List (Event T)}
    (hNot :
      ¬ ∃ e ∈ events, e.isOther t = true ∧ e.writes ea = true)
    (value : Byte) :
    stored t ea s value events = value := by
  induction events generalizing s value with
  | nil => rfl
  | cons e rest ih =>
      have hHere : (e.isOther t && e.writes ea) = false := by
        apply Bool.eq_false_iff.mpr
        intro hBoth
        exact
          hNot
            ⟨e, List.mem_cons_self,
              Bool.and_eq_true_iff.mp hBoth⟩
      rw [stored, hHere]
      apply ih
      rintro ⟨d, hMem, hBoth⟩
      exact hNot ⟨d, List.mem_cons_of_mem _ hMem, hBoth⟩

/- The last write, when the thread itself does not write. -/
theorem othersWroteLast_append
    {t : T}
    {ea : Ps3Uintptr}
    {start rest : List (Event T)}
    (hWrites : x.writes ea = true)
    (hNot : ∀ y ∈ actions t rest, y.writes ea = false) :
    othersWroteLast t ea (start ++ .own t x :: rest) = true ↔
      ∃ e ∈ rest, e.isOther t = true ∧ e.writes ea = true := by
  have hOwn : (Event.own t x).isOther t = false := by
    rw [Event.isOther, actionOf_own]
    rfl
  have hFold :
      ∀ last,
        rest.foldl
            (fun last e =>
              if e.writes ea then e.isOther t else last)
            last = true ↔
          last = true ∨
            ∃ e ∈ rest,
              e.isOther t = true ∧ e.writes ea = true := by
    induction rest with
    | nil => simp
    | cons e rest ih =>
        rw [actions_cons, List.forall_mem_append] at hNot
        intro last
        rw [List.foldl_cons, ih hNot.2]
        cases hWrites : e.writes ea with
        | false => simp [hWrites]
        | true =>
            -- another agent is writing
            have hOther : e.isOther t = true := by
              cases hOwn : e.actionOf t with
              | none => exact isOther_of_actionOf hOwn
              | some y =>
                  rw [hOwn] at hNot
                  have hQuiet :=
                    hNot.1 y (List.mem_singleton_self y)
                  rw [eq_own_of_actionOf hOwn] at hWrites
                  rw [Event.writes, hQuiet] at hWrites
                  cases hWrites
            simp [hWrites, hOther]
  rw [othersWroteLast, List.foldl_append, List.foldl_cons,
    hFold, Event.writes, hWrites, hOwn]
  simp

------------------------------------------------------------
-- One Byte
------------------------------------------------------------

theorem nodup_argCells (p : Arg) (arg : Nat) :
    (argCells p arg).Nodup := by
  unfold argCells
  split
  case isTrue => exact List.nodup_nil
  case isFalse =>
    apply List.Nodup.map_on ?_ List.nodup_range
    intro i _ j _ hEq
    exact congrArg Cell.byte hEq

theorem arg_of_mem_argCells
    {p : Arg}
    {arg : Nat}
    (hMem : c ∈ argCells p arg) :
    c.arg = arg := by
  unfold argCells at hMem
  split at hMem
  case isTrue => cases hMem
  case isFalse =>
    rcases List.mem_map.mp hMem with ⟨i, -, rfl⟩
    rfl

/- A byte is copied once for each argument that it is in. -/
theorem nodup_cells (args : List Arg) : (cells args).Nodup := by
  unfold cells
  rw [List.nodup_flatMap]
  refine ⟨fun p _ => nodup_argCells p.1 p.2, ?_⟩
  have hIndex : (args.zipIdx.map Prod.snd).Nodup := by
    rw [List.zipIdx_map_snd]
    exact List.nodup_range'
  apply List.Pairwise.imp ?_ (List.pairwise_map.mp hIndex)
  intro p q hNe c hFirst hSecond
  exact
    hNe
      ((arg_of_mem_argCells hFirst).symm.trans
        (arg_of_mem_argCells hSecond))

theorem lastCell_eq_some
    {args : List Arg}
    {ea : Ps3Uintptr}
    (hLast : lastCell args ea = some c) :
    c.ea = ea ∧
      ∃ init tail,
        cells args = init ++ c :: tail ∧
          ∀ d ∈ tail, d.ea ≠ ea := by
  rcases List.find?_eq_some_iff_append.mp hLast with
    ⟨hEa, tail, init, hCells, hTail⟩
  refine
    ⟨of_decide_eq_true hEa, init.reverse, tail.reverse, ?_, ?_⟩
  · rw [← List.reverse_reverse (cells args), hCells]
    simp
  · intro d hMem hEq
    have hNot := hTail d (List.mem_reverse.mp hMem)
    simp [hEq] at hNot

theorem lastCell_eq_none
    {args : List Arg}
    {ea : Ps3Uintptr}
    (hLast : lastCell args ea = none) :
    ∀ c ∈ cells args, c.ea ≠ ea := by
  intro c hMem hEq
  have hNot :=
    List.find?_eq_none.mp hLast c (List.mem_reverse.mpr hMem)
  exact hNot (decide_eq_true hEq)

theorem kept_of_not_assign
    {value : Byte}
    {xs : List Action}
    (hNot : ∀ x ∈ xs, ∀ v, x ≠ .assign c v) :
    kept c value xs = value := by
  unfold kept
  induction xs generalizing value with
  | nil => rfl
  | cons x rest ih =>
      rw [List.forall_mem_cons] at hNot
      rw [List.foldl_cons, ih hNot.2]
      cases x with
      | assign d v =>
          have hNe : d ≠ c := by
            rintro rfl
            exact hNot.1 v rfl
          dsimp only
          rw [if_neg hNe]
      | copyIn => rfl
      | call => rfl
      | store => rfl
      | copyOut => rfl

/- The last assignment to a byte, and nothing after it. -/
theorem assigned_eq_some
    {body : List Action}
    {ea : Ps3Uintptr}
    {value : Byte}
    (hAssigned : assigned body ea = some value) :
    ∃ init x tail,
      body = init ++ x :: tail ∧
        x.assigns ea = some value ∧
          ∀ y ∈ tail, y.assigns ea = none := by
  unfold assigned at hAssigned
  induction body using List.reverseRecOn with
  | nil => cases hAssigned
  | append_singleton init x ih =>
      rw [List.foldl_append, List.foldl_cons, List.foldl_nil]
        at hAssigned
      cases hHere : x.assigns ea with
      | some v =>
          rw [hHere] at hAssigned
          exact
            ⟨init, x, [], rfl, hHere.trans hAssigned,
              fun _ hMem => by cases hMem⟩
      | none =>
          rw [hHere, Option.none_or] at hAssigned
          rcases ih hAssigned with
            ⟨first, y, tail, rfl, hValue, hTail⟩
          refine ⟨first, y, tail ++ [x], ?_, hValue, ?_⟩
          · rw [List.append_assoc, List.cons_append]
          · rw [List.forall_mem_append]
            refine ⟨hTail, ?_⟩
            intro z hMem
            rw [List.mem_singleton.mp hMem]
            exact hHere

theorem assigned_eq_none
    {body : List Action}
    {ea : Ps3Uintptr}
    (hAssigned : assigned body ea = none) :
    ∀ x ∈ body, x.assigns ea = none := by
  unfold assigned at hAssigned
  induction body using List.reverseRecOn with
  | nil =>
      intro x hMem
      cases hMem
  | append_singleton init x ih =>
      rw [List.foldl_append, List.foldl_cons, List.foldl_nil,
        Option.or_eq_none_iff] at hAssigned
      rw [List.forall_mem_append]
      refine ⟨ih hAssigned.2, ?_⟩
      intro z hMem
      rw [List.mem_singleton.mp hMem]
      exact hAssigned.1

/- A step of the function writes only what it assigns. -/
theorem writes_of_inBody
    {args : List Arg}
    {ea : Ps3Uintptr}
    (hBody : x.InBody args)
    (hAssigns : x.assigns ea = none) :
    x.writes ea = false := by
  cases x with
  | copyIn => rfl
  | call => rfl
  | assign => rfl
  | copyOut => cases hBody
  | store a v =>
      apply decide_eq_false
      intro hEq
      rw [Action.assigns, if_pos hEq] at hAssigns
      cases hAssigns

theorem writes_copyOuts
    {cs : List Cell}
    {ea : Ps3Uintptr}
    (hNot : ∀ c ∈ cs, c.ea ≠ ea) :
    ∀ x ∈ cs.map Action.copyOut, x.writes ea = false := by
  intro x hMem
  rcases List.mem_map.mp hMem with ⟨c, hCell, rfl⟩
  exact decide_eq_false (hNot c hCell)

theorem writes_copyIns
    {cs : List Cell}
    {ins : List Action}
    (hIns : ins.Perm (cs.map .copyIn))
    (ea : Ps3Uintptr) :
    ∀ x ∈ ins, x.writes ea = false := by
  intro x hMem
  rcases List.mem_map.mp (hIns.mem_iff.mp hMem) with
    ⟨c, -, rfl⟩
  rfl

section

variable {t : T} {s : State T} {args : List Arg} {body : List Action}
variable {events : List (Event T)}
variable {ea : Ps3Uintptr}

/- A byte that no argument is in. -/
theorem right_of_lastCell_none
    (hWrap : IsWrap args body (actions t events))
    (hLast : lastCell args ea = none) :
    Right t s body events ea := by
  have hCells := lastCell_eq_none hLast
  rcases hWrap with ⟨hBody, ins, hIns, hActions⟩
  have hOuts := writes_copyOuts hCells
  unfold Right
  cases hAssigned : assigned body ea with
  | none =>
      apply mem_run
      rw [hActions, List.forall_mem_append, List.forall_mem_cons,
        List.forall_mem_append]
      exact
        ⟨writes_copyIns hIns ea, rfl,
          fun x hMem =>
            writes_of_inBody (hBody x hMem)
              (assigned_eq_none hAssigned x hMem),
          hOuts⟩
  | some value =>
      rcases assigned_eq_some hAssigned with
        ⟨init, x, tail, rfl, hValue, hTail⟩
      rw [List.forall_mem_append, List.forall_mem_cons] at hBody
      -- no argument has the byte, so it was stored directly
      obtain rfl : x = .store ea value := by
        cases x with
        | copyIn => cases hBody.2.1
        | call => cases hBody.2.1
        | copyOut => cases hBody.2.1
        | assign c v =>
            rw [Action.assigns, if_neg (hCells c hBody.2.1)]
              at hValue
            cases hValue
        | store a v =>
            rw [Action.assigns] at hValue
            split at hValue
            case isTrue hEq => rw [hEq, Option.some.inj hValue]
            case isFalse => cases hValue
      have hSplit :
          actions t events =
            (ins ++ .call :: init) ++
              .store ea value ::
                (tail ++ (cells args).map .copyOut) := by
        rw [hActions]
        simp
      rcases split_actions hSplit with
        ⟨start, rest, rfl, -, hRest⟩
      have hQuiet :
          ∀ y ∈ actions t rest, y.writes ea = false := by
        rw [hRest, List.forall_mem_append]
        exact
          ⟨fun y hMem =>
              writes_of_inBody (hBody.2.2 y hMem)
                (hTail y hMem),
            hOuts⟩
      have hWrites :
          (Action.store ea value).writes ea = true :=
        decide_eq_true rfl
      dsimp only
      rw [othersWroteLast_append hWrites hQuiet, run_append,
        run_cons, mem_run hQuiet]
      by_cases hStores :
          ∃ e ∈ rest, e.isOther t = true ∧ e.writes ea = true
      · exact .inr hStores
      · left
        rw [stored_of_not_exists hStores, exec, mem_setMem,
          if_pos rfl]

/- The events around the copies of a cell. -/
structure Around
    (t : T)
    (args : List Arg)
    (body : List Action)
    (c : Cell)
    (start middle rest : List (Event T)) : Prop where
  reading : ∀ x ∈ actions t start, ∃ d, x = .copyIn d
  running :
    ∃ more outs : List Action,
      actions t middle = more ++ .call :: (body ++ outs) ∧
        (∀ x ∈ more, ∃ d, x = .copyIn d) ∧
          ∀ x ∈ outs, ∃ d, x = .copyOut d
  unread :
    .copyIn c ∉ actions t start ∧ .copyIn c ∉ actions t middle
  unwritten :
    .copyOut c ∉
        actions t (start ++ .own t (.copyIn c) :: middle) ∧
      .copyOut c ∉ actions t rest

theorem Around.held
    {c : Cell}
    {start middle rest : List (Event T)}
    (hAround : Around t args body c start middle rest) :
    (run s (start ++ .own t (.copyIn c) :: middle)).held t c =
      kept c (stored t c.ea s (s.mem c.ea) start) body := by
  have hReading :
      ∀ x ∈ actions t start, x.writes c.ea = false := by
    intro x hMem
    rcases hAround.reading x hMem with ⟨d, rfl⟩
    rfl
  rcases hAround.running with
    ⟨more, outs, hMiddle, hMore, hOuts⟩
  have hBefore : ∀ value, kept c value more = value := by
    intro value
    apply kept_of_not_assign
    intro x hMem v hEq
    rcases hMore x hMem with ⟨d, rfl⟩
    cases hEq
  have hAfter : ∀ value, kept c value outs = value := by
    intro value
    apply kept_of_not_assign
    intro x hMem v hEq
    rcases hOuts x hMem with ⟨d, rfl⟩
    cases hEq
  rw [run_append, run_cons, held_run hAround.unread.2,
    held_copyIn, mem_run hReading, hMiddle, kept_append,
    hBefore]
  change kept c _ (body ++ outs) = _
  rw [kept_append, hAfter]

variable (hWrap : IsWrap args body (actions t events))

include hWrap

theorem around_of_split
    {c : Cell}
    {init tail : List Cell}
    (hCells : cells args = init ++ c :: tail) :
    ∃ start middle rest,
      events =
          start ++ .own t (.copyIn c) :: middle ++
            .own t (.copyOut c) :: rest ∧
        Around t args body c start middle rest ∧
          actions t rest = tail.map .copyOut := by
  rcases hWrap with ⟨hBody, ins, hIns, hActions⟩
  have hNodup := nodup_cells args
  rw [hCells] at hNodup hIns hActions
  have hOthers := List.nodup_middle.mp hNodup
  rw [List.nodup_cons, List.mem_append, not_or] at hOthers
  have hCopyIns : ∀ x ∈ ins, ∃ d, x = .copyIn d := by
    intro x hMem
    rcases List.mem_map.mp (hIns.mem_iff.mp hMem) with
      ⟨d, -, rfl⟩
    exact ⟨d, rfl⟩
  have hIn : Action.copyIn c ∈ ins :=
    hIns.mem_iff.mpr
      (List.mem_map_of_mem (by simp))
  have hInsNodup : ins.Nodup :=
    hIns.nodup_iff.mpr
      (hNodup.map (fun _ _ hEq => Action.copyIn.inj hEq))
  rcases List.append_of_mem hIn with ⟨first, more, rfl⟩
  have hOnce := List.nodup_middle.mp hInsNodup
  rw [List.nodup_cons, List.mem_append, not_or] at hOnce
  have hSplit :
      actions t events =
        (first ++ .copyIn c ::
            (more ++ .call ::
              (body ++ init.map .copyOut))) ++
          .copyOut c :: tail.map .copyOut := by
    rw [hActions]
    simp
  rcases split_actions hSplit with
    ⟨early, rest, rfl, hEarly, hRest⟩
  rcases split_actions hEarly with
    ⟨start, middle, rfl, hStart, hMiddle⟩
  have hBodyOnly :
      ∀ x ∈ body, x ≠ .copyIn c ∧ x ≠ .copyOut c := by
    intro x hMem
    refine ⟨?_, ?_⟩ <;>
      (rintro rfl
       exact (hBody _ hMem).elim)
  refine ⟨start, middle, rest, rfl, ?_, hRest⟩
  constructor
  · rw [hStart]
    intro x hMem
    exact hCopyIns x (List.mem_append_left _ hMem)
  · refine ⟨more, init.map .copyOut, hMiddle, ?_, ?_⟩
    · intro x hMem
      exact
        hCopyIns x
          (List.mem_append_right _ (List.mem_cons_of_mem _ hMem))
    · intro x hMem
      rcases List.mem_map.mp hMem with ⟨d, -, rfl⟩
      exact ⟨d, rfl⟩
  · rw [hStart, hMiddle]
    refine ⟨hOnce.1.1, ?_⟩
    simp only [List.mem_append, List.mem_cons, List.mem_map,
      reduceCtorEq, false_or, and_false, exists_false, or_false,
      not_or]
    exact ⟨hOnce.1.2, fun hMem => (hBodyOnly _ hMem).1 rfl⟩
  · rw [hEarly, hRest]
    simp only [List.mem_append, List.mem_cons, List.mem_map,
      reduceCtorEq, false_or, Action.copyOut.injEq, not_or,
      exists_eq_right]
    refine
      ⟨⟨?_, ?_, fun hMem => (hBodyOnly _ hMem).2 rfl,
        hOthers.1.1⟩, hOthers.1.2⟩
    · intro hMem
      rcases hCopyIns _ (List.mem_append_left _ hMem) with
        ⟨d, hEq⟩
      cases hEq
    · intro hMem
      rcases
        hCopyIns _
          (List.mem_append_right _
            (List.mem_cons_of_mem _ hMem)) with
        ⟨d, hEq⟩
      cases hEq

/- The copy of a byte when the function is called. -/
theorem held_call
    {c : Cell}
    {init tail : List Cell}
    (hCells : cells args = init ++ c :: tail)
    {first second : List (Event T)}
    (hEvents : events = first ++ .own t .call :: second) :
    ∃ start rest,
      events = start ++ .own t (.copyIn c) :: rest ∧
        .copyIn c ∉ actions t start ∧
          .copyIn c ∉ actions t rest ∧
            (run s first).held t c = (run s start).mem c.ea := by
  rcases around_of_split hWrap hCells with
    ⟨start, middle, rest, hSplit, hAround, hRest⟩
  rcases hAround.running with
    ⟨more, outs, hMiddle, hMore, hOuts⟩
  rcases split_actions hMiddle with
    ⟨early, late, rfl, hEarly, hLate⟩
  have hFirst :
      first = start ++ .own t (.copyIn c) :: early := by
    have hBoth :
        (start ++ .own t (.copyIn c) :: early) ++
            .own t .call ::
              (late ++ .own t (.copyOut c) :: rest) =
          first ++ .own t .call :: second := by
      rw [← hEvents, hSplit]
      simp
    apply eq_of_split hBoth
    · rw [actions_append, actions_cons, hEarly, actionOf_own]
      simp only [List.mem_append, Option.mem_toList,
        Option.some.injEq, reduceCtorEq, false_or, not_or]
      refine ⟨fun hMem => ?_, fun hMem => ?_⟩
      · rcases hAround.reading _ hMem with ⟨d, hEq⟩
        cases hEq
      · rcases hMore _ hMem with ⟨d, hEq⟩
        cases hEq
    · rw [actions_append, actions_cons, hLate, hRest,
        actionOf_own]
      simp only [List.mem_append, List.mem_map,
        Option.mem_toList, Option.some.injEq, reduceCtorEq,
        and_false, exists_false, or_false, not_or]
      refine ⟨fun hMem => ?_, fun hMem => ?_⟩
      · exact hWrap.inBody _ hMem
      · rcases hOuts _ hMem with ⟨d, hEq⟩
        cases hEq
  refine
    ⟨start,
      early ++ .own t .call ::
        (late ++ .own t (.copyOut c) :: rest),
      ?_, hAround.unread.1, ?_, ?_⟩
  · rw [hSplit]
    simp
  · have hMiddleFree := hAround.unread.2
    rw [actions_append, actions_cons, List.mem_append,
      List.mem_append, not_or, not_or] at hMiddleFree ⊢
    refine ⟨hMiddleFree.1, hMiddleFree.2.1, ?_⟩
    rw [actions_append, actions_cons, hRest, actionOf_own]
    simp only [List.mem_append, List.mem_map,
      Option.mem_toList, Option.some.injEq, reduceCtorEq,
      and_false, exists_false, or_false]
    exact hMiddleFree.2.2
  · have hUnread : .copyIn c ∉ actions t early := by
      intro hMem
      apply hAround.unread.2
      rw [actions_append]
      exact List.mem_append_left _ hMem
    rw [hFirst, run_append, run_cons, held_run hUnread,
      held_copyIn, hEarly, kept_of_not_assign]
    intro x hMem v hEq
    rcases hMore x hMem with ⟨d, rfl⟩
    cases hEq

/-
  A byte is right exactly when it is undisturbed: what ends
  up in it is the copy of its last cell, or what the others
  store later.
-/
theorem right_iff :
    Right t s body events ea ↔
      Undisturbed t s args body events ea := by
  unfold Undisturbed
  cases hLast : lastCell args ea with
  | none =>
      exact
        iff_of_true (right_of_lastCell_none hWrap hLast) trivial
  | some c =>
      rcases lastCell_eq_some hLast with
        ⟨rfl, init, tail, hCells, hTail⟩
      rcases around_of_split hWrap hCells with
        ⟨start, middle, rest, rfl, hAround, hRest⟩
      have hDone :
          ∀ x ∈ actions t rest, x.writes c.ea = false := by
        rw [hRest]
        exact writes_copyOuts hTail
      have hIn :=
        (@before_eq _ _ t _ start
          (middle ++ .own t (.copyOut c) :: rest)
          hAround.unread.1).1
      rcases
        @before_eq _ _ t _ _ rest hAround.unwritten.1 with
        ⟨hOut, hAfter⟩
      have hEvents :
          start ++ .own t (.copyIn c) :: middle ++
              .own t (.copyOut c) :: rest =
            start ++ .own t (.copyIn c) ::
              (middle ++ .own t (.copyOut c) :: rest) := by
        simp
      rw [← hEvents] at hIn
      have hWrites : (Action.copyOut c).writes c.ea = true :=
        decide_eq_true rfl
      have hOwn :
          (Event.own t (.copyOut c)).isOther t = false := by
        rw [Event.isOther, actionOf_own]
        rfl
      dsimp only
      rw [hIn, hOut, hAfter]
      unfold Right
      rw [othersWroteLast_append hWrites hDone,
        run_append, run_cons, mem_run hDone, mem_copyOut,
        hAround.held, stored_append, stored, hOwn]
      by_cases hStores :
          ∃ e ∈ rest, e.isOther t = true ∧ e.writes c.ea = true
      · -- the copy that is written back does not matter
        refine iff_of_true ?_ (.inl hStores)
        cases hAssigned : assigned body c.ea with
        | some value => exact .inr hStores
        | none => exact stored_of_exists hStores _ _
      · rw [stored_of_not_exists hStores,
          stored_of_not_exists hStores,
          or_iff_right hStores]
        cases hAssigned : assigned body c.ea with
        | some value => exact or_iff_left hStores
        | none =>
            dsimp only
            rw [kept_of_not_assign]
            · rfl
            · intro x hMem v hEq
              have hNone := assigned_eq_none hAssigned x hMem
              rw [hEq, Action.assigns, if_pos rfl] at hNone
              cases hNone

end

end Marshal

end Ps3emu
