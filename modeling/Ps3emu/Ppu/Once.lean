import Ps3emu.Ppu.Marshal

/-
  `sys_ppu_thread_once`, called by any number of threads on
  one control word.

  Key definitions include:
    * `Marshal.sysPpuThreadOnce`
    * `Marshal.OnceRun`
    * `Marshal.Starts`, `Marshal.CopiesFirst`

  Key theorems include:
    * `Marshal.mem_control`
    * `Marshal.starts_iff`
    * `Marshal.transparent_iff`
-/

------------------------------------------------------------
-- The Function
------------------------------------------------------------

namespace Ps3emu

namespace Marshal

/- A word of the copy of an argument. -/
def wordOf
    (held : Cell → Byte)
    (p : Arg)
    (arg byte : Nat) : Word 4 :=
  Bytes.ofBigEndian 4
    ((List.range 4).map (fun i => held (p.cell arg (byte + i))))

/- `once_ctrl`, a word, and `init`, a descriptor of two. -/
def onceControl (ctrl : BitVec 64) : Arg := ⟨ctrl, 4⟩

def onceInit (init : BitVec 64) : Arg := ⟨init, 8⟩

def onceArgs (ctrl init : BitVec 64) : List Arg :=
  [onceControl ctrl, onceInit init]

/- The bytes of `*once_ctrl = 1`. -/
def onceByte (i : Nat) : Byte :=
  (Bytes.bigEndian (1 : Word 4)).getD i 0

/- A byte of the control word, with its address. -/
def onceCell (ctrl : BitVec 64) (i : Nat) : Cell :=
  (onceControl ctrl).cell 0 i

/- What the function assigns, whatever the copies are. -/
def onceBody (ctrl : BitVec 64) : List Action :=
  (List.range 4).map
    (fun i => .assign (onceCell ctrl i) (onceByte i))

/-
  The new NIP and GPR 2 if the control word is zero, and what
  is assigned to the word in any case.
-/
def sysPpuThreadOnce
    (ctrl init : BitVec 64)
    (held : Cell → Byte) :
    Option (Word 4 × Word 4) × List Action :=
  (if wordOf held (onceControl ctrl) 0 0 = 0 then
      some
        (wordOf held (onceInit init) 1 0,
          wordOf held (onceInit init) 1 4)
    else none,
    onceBody ctrl)

variable {T : Type} [DecidableEq T]

/-
  Every thread calls the function once or not at all.  The
  control word is zero, no other agent writes it, and it is
  apart from the descriptors of the threads.
-/
structure OnceRun
    (ctrl : BitVec 64)
    (init : T → BitVec 64)
    (s : State T)
    (events : List (Event T)) : Prop where
  calls :
    ∀ t,
      actions t events = [] ∨
        IsWrap (onceArgs ctrl (init t)) (onceBody ctrl)
          (actions t events)
  pointer : (onceControl ctrl).va ≠ 0
  distinct :
    ∀ t i j, i < 4 → j < 8 →
      ((onceInit (init t)).cell 1 j).ea ≠ (onceCell ctrl i).ea
  others :
    ∀ ea value, .other ea value ∈ events →
      ∀ i, i < 4 → ea ≠ (onceCell ctrl i).ea
  zero : ∀ i, i < 4 → s.mem (onceCell ctrl i).ea = 0

/- The call of a thread starts the init function. -/
def Starts
    (ctrl : BitVec 64)
    (init : T → BitVec 64)
    (s : State T)
    (events : List (Event T))
    (t : T) : Prop :=
  ∃ first second,
    events = first ++ .own t .call :: second ∧
      (sysPpuThreadOnce ctrl (init t)
          ((run s first).held t)).1.isSome = true

/-
  A thread has copied the word, up to its last byte, before
  any thread copies a word back that far.
-/
def CopiesFirst
    (ctrl : BitVec 64)
    (events : List (Event T))
    (t : T) : Prop :=
  ∃ first second,
    events = first ++ .own t (.copyIn (onceCell ctrl 3)) :: second ∧
      ∀ u, .own u (.copyOut (onceCell ctrl 3)) ∉ first

------------------------------------------------------------
-- Control Word
------------------------------------------------------------

theorem onceByte_eq
    {i : Nat}
    (hLt : i < 4) :
    onceByte i = if i = 3 then 1 else 0 := by
  rcases i with _ | _ | _ | _ | i
  · decide
  · decide
  · decide
  · decide
  · omega

/- A word is zero when its bytes are. -/
theorem wordOf_eq_zero
    {held : Cell → Byte}
    {p : Arg}
    {arg byte : Nat} :
    wordOf held p arg byte = 0 ↔
      ∀ i, i < 4 → held (p.cell arg (byte + i)) = 0 := by
  have hBytes :
      (0 : Word 4) =
        Bytes.ofBigEndian 4 ((List.range 4).map (fun _ => 0)) := by
    decide
  unfold wordOf
  rw [hBytes]
  constructor
  · intro hWord i hLt
    have hList := congrArg Bytes.bigEndian hWord
    rw [Bytes.bigEndian_ofBigEndian _ (by simp),
      Bytes.bigEndian_ofBigEndian _ (by simp)] at hList
    exact List.map_inj_left.mp hList i (List.mem_range.mpr hLt)
  · intro hAll
    congr 1
    apply List.map_congr_left
    intro i hMem
    exact hAll i (List.mem_range.mp hMem)

/- The function starts when the copy of the word is zero. -/
theorem sysPpuThreadOnce_isSome
    {ctrl init : BitVec 64}
    {held : Cell → Byte} :
    (sysPpuThreadOnce ctrl init held).1.isSome = true ↔
      ∀ i, i < 4 → held (onceCell ctrl i) = 0 := by
  have hWord :=
    @wordOf_eq_zero held (onceControl ctrl) 0 0
  simp only [Nat.zero_add] at hWord
  refine Iff.trans ?_ hWord
  unfold sysPpuThreadOnce
  by_cases hZero : wordOf held (onceControl ctrl) 0 0 = 0
  · rw [if_pos hZero]
    exact iff_of_true rfl hZero
  · rw [if_neg hZero]
    exact iff_of_false Bool.false_ne_true hZero

theorem onceCell_inj
    {ctrl : BitVec 64}
    {i j : Nat}
    (hI : i < 4)
    (hJ : j < 4)
    (hEa : (onceCell ctrl i).ea = (onceCell ctrl j).ea) :
    i = j := by
  have hLt := (onceControl ctrl).va.isLt
  have hNat := congrArg BitVec.toNat hEa
  unfold onceCell Arg.cell at hNat
  rw [BitVec.toNat_add, BitVec.toNat_add, BitVec.toNat_ofNat,
    BitVec.toNat_ofNat] at hNat
  omega

theorem cells_onceArgs
    {ctrl : BitVec 64}
    (init : BitVec 64)
    (hPointer : (onceControl ctrl).va ≠ 0) :
    cells (onceArgs ctrl init) =
      (List.range 4).map (onceCell ctrl) ++
        argCells (onceInit init) 1 := by
  have hFirst :
      argCells (onceControl ctrl) 0 =
        (List.range 4).map (onceCell ctrl) :=
    if_neg hPointer
  rw [← hFirst]
  simp [cells, onceArgs]

theorem kept_onceBody
    {ctrl : BitVec 64}
    {i : Nat}
    (hLt : i < 4)
    (value : Byte) :
    kept (onceCell ctrl i) value (onceBody ctrl) =
      onceByte i := by
  have hNe :
      ∀ j k, j ≠ k → onceCell ctrl j ≠ onceCell ctrl k :=
    fun j k hNe hEq => hNe (congrArg Cell.byte hEq)
  have hBody :
      onceBody ctrl =
        [.assign (onceCell ctrl 0) (onceByte 0),
          .assign (onceCell ctrl 1) (onceByte 1),
          .assign (onceCell ctrl 2) (onceByte 2),
          .assign (onceCell ctrl 3) (onceByte 3)] := rfl
  rw [hBody]
  rcases i with _ | _ | _ | _ | i
  · simp [kept, hNe]
  · simp [kept, hNe]
  · simp [kept, hNe]
  · simp [kept]
  · omega

section

variable {ctrl : BitVec 64} {init : T → BitVec 64} {s : State T}
variable {events : List (Event T)}

variable (hRun : OnceRun ctrl init s events)

include hRun

variable {i : Nat}

theorem exists_split_onceCell
    (t : T)
    (hLt : i < 4) :
    ∃ first second,
      cells (onceArgs ctrl (init t)) =
        first ++ onceCell ctrl i :: second := by
  rw [cells_onceArgs _ hRun.pointer]
  apply List.append_of_mem
  apply List.mem_append_left
  exact List.mem_map_of_mem (List.mem_range.mpr hLt)

/- The word is only written by copies of its own bytes. -/
theorem eq_copyOut_of_writes
    {e : Event T}
    (hMem : e ∈ events)
    (hLt : i < 4)
    (hWrites : e.writes (onceCell ctrl i).ea = true) :
    ∃ u, e = .own u (.copyOut (onceCell ctrl i)) := by
  cases e with
  | other ea value =>
      exact
        absurd (of_decide_eq_true hWrites)
          (hRun.others ea value hMem i hLt)
  | own u x =>
      refine ⟨u, ?_⟩
      have hAction := mem_actions.mpr hMem
      rcases hRun.calls u with hNone | hWrap
      · rw [hNone] at hAction
        cases hAction
      · rcases hWrap with ⟨-, ins, hIns, hActions⟩
        rw [hActions, List.mem_append, List.mem_cons,
          List.mem_append] at hAction
        rcases hAction with hIn | rfl | hBody | hOut
        · rw [Event.writes, writes_copyIns hIns _ x hIn]
            at hWrites
          cases hWrites
        · cases hWrites
        · rcases List.mem_map.mp hBody with ⟨j, -, rfl⟩
          cases hWrites
        · rcases List.mem_map.mp hOut with ⟨c, hCell, rfl⟩
          have hEa : c.ea = (onceCell ctrl i).ea :=
            of_decide_eq_true hWrites
          rw [cells_onceArgs _ hRun.pointer, List.mem_append]
            at hCell
          rcases hCell with hControl | hInit
          · rcases List.mem_map.mp hControl with ⟨j, hJ, rfl⟩
            rw [onceCell_inj (List.mem_range.mp hJ) hLt hEa]
          · unfold argCells at hInit
            split at hInit
            case isTrue => cases hInit
            case isFalse =>
              rcases List.mem_map.mp hInit with ⟨j, hJ, rfl⟩
              exact
                absurd hEa
                  (hRun.distinct u i j hLt
                    (List.mem_range.mp hJ))

/- What a thread copies back is the word one. -/
theorem held_onceCell
    {t : T}
    (hLt : i < 4)
    {first second : List (Event T)}
    (hEvents :
      events =
        first ++ .own t (.copyOut (onceCell ctrl i)) :: second) :
    (run s first).held t (onceCell ctrl i) = onceByte i := by
  rcases hRun.calls t with hNone | hWrap
  · have hMem :
        Action.copyOut (onceCell ctrl i) ∈ actions t events := by
      rw [mem_actions, hEvents]
      simp
    rw [hNone] at hMem
    cases hMem
  · rcases exists_split_onceCell hRun t hLt with
      ⟨before, after, hCells⟩
    rcases around_of_split hWrap hCells with
      ⟨start, middle, rest, hSplit, hAround, -⟩
    rw [eq_of_split (hSplit.symm.trans hEvents)
      hAround.unwritten.1 hAround.unwritten.2, hAround.held,
      kept_onceBody hLt]

/- The word is one from the first copy of each byte. -/
theorem mem_control
    (hLt : i < 4)
    {first second : List (Event T)}
    (hEvents : events = first ++ second) :
    ((∃ u, .own u (.copyOut (onceCell ctrl i)) ∈ first) →
        (run s first).mem (onceCell ctrl i).ea = onceByte i) ∧
      ((∀ u, .own u (.copyOut (onceCell ctrl i)) ∉ first) →
        (run s first).mem (onceCell ctrl i).ea = 0) := by
  induction first using List.reverseRecOn generalizing second with
  | nil =>
      constructor
      · rintro ⟨u, hMem⟩
        cases hMem
      · intro _
        exact hRun.zero i hLt
  | append_singleton first e ih =>
      rw [List.append_assoc, List.singleton_append] at hEvents
      rcases ih hEvents with ⟨hOne, hZero⟩
      rw [run_append]
      cases hWrites : e.writes (onceCell ctrl i).ea with
      | true =>
          rcases
            eq_copyOut_of_writes hRun (by rw [hEvents]; simp)
              hLt hWrites with
            ⟨u, rfl⟩
          constructor
          · intro _
            exact
              mem_copyOut.trans (held_onceCell hRun hLt hEvents)
          · intro hNone
            exact absurd (by simp) (hNone u)
      | false =>
          have hKept :
              (run (run s first) [e]).mem (onceCell ctrl i).ea =
                (run s first).mem (onceCell ctrl i).ea :=
            written_of_not_writes hWrites
          have hNot :
              ∀ u, .own u (.copyOut (onceCell ctrl i)) ≠ e := by
            rintro u rfl
            rw [Event.writes, Action.writes, decide_eq_false_iff_not]
              at hWrites
            exact hWrites rfl
          rw [hKept]
          simp only [List.mem_append, List.mem_singleton, hNot,
            or_false]
          exact ⟨hOne, hZero⟩

/- The calls that start the function copy a word of zeros. -/
theorem starts_iff
    (t : T) :
    Starts ctrl init s events t ↔ CopiesFirst ctrl events t := by
  have hCalls :
      ∀ x, .own t x ∈ events →
        IsWrap (onceArgs ctrl (init t)) (onceBody ctrl)
          (actions t events) := by
    intro x hMem
    rcases hRun.calls t with hNone | hWrap
    · have hAction := mem_actions.mpr hMem
      rw [hNone] at hAction
      cases hAction
    · exact hWrap
  rcases exists_split_onceCell hRun t (Nat.lt_succ_self 3) with
    ⟨init₃, tail₃, hCells₃⟩
  constructor
  · rintro ⟨first, second, hEvents, hStarts⟩
    have hWrap := hCalls .call (by rw [hEvents]; simp)
    rcases @held_call _ _ t s _ _ _ hWrap _ _ _ hCells₃ _ _ hEvents
      with ⟨start, rest, hSplit, -, -, hHeld⟩
    refine ⟨start, rest, hSplit, ?_⟩
    intro u hMem
    have hZero :=
      sysPpuThreadOnce_isSome.mp hStarts 3 (Nat.lt_succ_self 3)
    rw [hHeld,
      (mem_control hRun (Nat.lt_succ_self 3) hSplit).1 ⟨u, hMem⟩]
      at hZero
    revert hZero
    decide
  · rintro ⟨start, rest, hSplit, hFree⟩
    have hWrap :=
      hCalls (.copyIn (onceCell ctrl 3)) (by rw [hSplit]; simp)
    rcases hWrap.order with ⟨ins, -, hActions⟩
    rcases split_actions hActions with
      ⟨first, second, hEvents, -⟩
    refine ⟨first, second, hEvents, ?_⟩
    rw [sysPpuThreadOnce_isSome]
    intro i hLt
    rcases exists_split_onceCell hRun t hLt with
      ⟨init', tail', hCells⟩
    rcases @held_call _ _ t s _ _ _ hWrap _ _ _ hCells _ _ hEvents
      with ⟨start', rest', hSplit', hStart', hRest', hHeld⟩
    rw [hHeld]
    rcases mem_control hRun hLt hSplit' with ⟨hOne, hZero⟩
    by_cases hCopied :
        ∃ u, .own u (.copyOut (onceCell ctrl i)) ∈ start'
    · rw [hOne hCopied, onceByte_eq hLt, if_neg]
      -- the last byte is not copied back before it is read
      rintro rfl
      rcases hCopied with ⟨u, hMem⟩
      have hSame :=
        eq_of_split (hSplit'.symm.trans hSplit) hStart' hRest'
      rw [hSame] at hFree
      exact hFree u hMem
    · exact hZero (fun u hMem => hCopied ⟨u, hMem⟩)

end

/-
  A native call is transparent exactly when every byte is
  undisturbed, and an init function is started exactly once
  when exactly one thread copies the control word before it
  is copied back for the first time.
-/
theorem transparent_iff
    {t : T}
    {s : State T}
    {args : List Arg}
    {body : List Action}
    {events : List (Event T)}
    (hWrap : IsWrap args body (actions t events))
    {U : Type}
    [DecidableEq U]
    {ctrl : BitVec 64}
    {init : U → BitVec 64}
    {start : State U}
    {calls : List (Event U)}
    (hRun : OnceRun ctrl init start calls) :
    (Transparent t s body events ↔
        ∀ ea, Undisturbed t s args body events ea) ∧
      ((∃! u, Starts ctrl init start calls u) ↔
        ∃! u, CopiesFirst ctrl calls u) :=
  ⟨forall_congr' (fun _ => right_iff hWrap),
    existsUnique_congr (fun u => starts_iff hRun u)⟩

/-
  A function that assigns nothing is called with a pointer to
  a byte, which another agent stores in the meantime.
-/
def zeroed : State Unit where
  mem := fun _ => 0
  held := fun _ _ => 0

def byteArgs : List Arg := [⟨0x1000, 1⟩]

def storedMeanwhile : List (Event Unit) :=
  [.own () (.copyIn ⟨0, 0, 0x1000⟩), .other 0x1000 5,
    .own () .call, .own () (.copyOut ⟨0, 0, 0x1000⟩)]

theorem isWrap_storedMeanwhile :
    IsWrap byteArgs [] (actions () storedMeanwhile) where
  inBody x hMem := by cases hMem
  order :=
    ⟨[.copyIn ⟨0, 0, 0x1000⟩], List.Perm.refl _, rfl⟩

theorem store_undone :
    IsWrap byteArgs [] (actions () storedMeanwhile) ∧
      ¬ Transparent () zeroed [] storedMeanwhile := by
  refine ⟨isWrap_storedMeanwhile, ?_⟩
  intro hTransparent
  have hRight :
      (run zeroed storedMeanwhile).mem 0x1000 =
        stored () 0x1000 zeroed 0 storedMeanwhile :=
    hTransparent 0x1000
  revert hRight
  decide

/- One thread calls `sys_ppu_thread_once`. -/
def onceAlone : List Action :=
  (cells (onceArgs 0x1000 0x2000)).map .copyIn ++
    .call ::
      (onceBody 0x1000 ++
        (cells (onceArgs 0x1000 0x2000)).map .copyOut)

theorem onceRun_alone :
    OnceRun 0x1000 (fun _ => 0x2000) zeroed
      (onceAlone.map (.own ())) where
  calls t := by
    right
    rw [actions_map_own]
    refine ⟨?_, _, List.Perm.refl _, rfl⟩
    intro x hMem
    rcases List.mem_map.mp hMem with ⟨i, hLt, rfl⟩
    change onceCell 0x1000 i ∈ cells _
    rw [cells_onceArgs _ (by decide)]
    exact List.mem_append_left _ (List.mem_map_of_mem hLt)
  pointer := by decide
  distinct _ i j hI hJ := by
    have hAll :
        ∀ i < 4, ∀ j < 8,
          ((onceInit 0x2000).cell 1 j).ea ≠
            (onceCell 0x1000 i).ea := by
      decide
    exact hAll i hI j hJ
  others ea value hMem := by
    rcases List.mem_map.mp hMem with ⟨x, -, hEq⟩
    cases hEq
  zero _ _ := rfl

theorem transparent_iff_once :
    (Transparent () zeroed [] storedMeanwhile ↔
        ∀ ea,
          Undisturbed () zeroed byteArgs [] storedMeanwhile
            ea) ∧
      ((∃! t,
            Starts 0x1000 (fun _ => 0x2000) zeroed
              (onceAlone.map (.own ())) t) ↔
        ∃! t,
          CopiesFirst 0x1000 (onceAlone.map (.own ())) t) :=
  transparent_iff isWrap_storedMeanwhile onceRun_alone

end Marshal

end Ps3emu
