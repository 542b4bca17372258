import Ps3emu.Memory.Agents

/-
  What the agents' steps do to reservations: the invariant
  of the reservation table over whole runs, how a step can
  give or leave an agent a reservation, and how it can take
  one away.

  Key definitions include:
    * `Agents.PcOk`, `Agents.Inv`
    * `Agents.Reserves`, `Agents.Clears`
    * `Agents.Disbands`

  Key theorems include:
    * `Agents.Inv.step`, `Agents.Inv.run`
    * `Agents.lineOf_other`, `Agents.lineOf_own`
    * `Agents.reservations_of_run`
-/

------------------------------------------------------------
-- Invariant
------------------------------------------------------------

namespace Ps3emu

namespace Agents

/- What holds of an agent that stands at a counter. -/
def PcOk (s : State) (g : AgentId) : Pc → Prop
  | .unreserve _ _ => s.alive g = true
  | .reserve _ => s.alive g = true ∧ s.lineOf g = none
  | .copy va last src =>
      va.toNat + src.length = last.toNat ∧ src ≠ []
  | .clear line =>
      ∀ held, s.lineOf g = some held → held = line
  | _ => True

structure Inv (s : State) : Prop where
  cons : s.mm.rmap.Consistent
  alive : ∀ g line, s.lineOf g = some line → s.alive g = true
  pc : ∀ g, PcOk s g (s.pc g)

variable {pc : Pc}

/- Losing reservations breaks no other agent's counter. -/
theorem PcOk.mono
    {s t : State}
    {g : AgentId}
    (hAlive : t.alive g = s.alive g)
    (hSub :
      ∀ line, t.lineOf g = some line →
        s.lineOf g = some line)
    (hOk : PcOk s g pc) :
    PcOk t g pc := by
  cases pc with
  | unreserve line req => exact hAlive.trans hOk
  | reserve req =>
      refine ⟨hAlive.trans hOk.1, ?_⟩
      rcases hOk with ⟨-, hNone⟩
      cases hLine : t.lineOf g with
      | none => rfl
      | some line => simp [hSub line hLine] at hNone
  | copy va last src => exact hOk
  | clear line =>
      intro held hHeld
      exact hOk held (hSub held hHeld)
  | idle => trivial
  | mark va => trivial

variable {s : State}

theorem Inv.initial
    (hInitial : Initial s) :
    Inv s where
  cons := by
    rw [hInitial.rmap]
    exact ReservationMap.Consistent.empty
  alive := by
    intro g line hLine
    simp [State.lineOf, hInitial.rmap,
      ReservationMap.lineOf, ReservationMap.empty] at hLine
  pc := by
    intro g
    rw [hInitial.pc]
    trivial

variable {a : AgentId}

/-
  A step that moves one agent and adds no reservation keeps
  the invariant, if the agent's new counter is sound.
-/
theorem Inv.move
    (hInv : Inv s)
    {mm : MainMemory}
    (hCons : mm.rmap.Consistent)
    (hSub :
      ∀ g line, mm.rmap.lineOf g = some line →
        s.lineOf g = some line)
    (hPc : PcOk (s.move a mm pc) a pc) :
    Inv (s.move a mm pc) where
  cons := hCons
  alive := by
    intro g line hLine
    exact hInv.alive g line (hSub g line hLine)
  pc := by
    intro g
    by_cases hEq : g = a
    · subst hEq
      simpa [State.move] using hPc
    · have hOld : PcOk s g (s.pc g) := hInv.pc g
      have hSame : (s.move a mm pc).pc g = s.pc g := by
        simp [State.move, hEq]
      rw [hSame]
      refine hOld.mono ?_ (hSub g)
      rfl

/- A step that leaves the reservation table alone. -/
theorem Inv.moveOnly
    (hInv : Inv s)
    {mm : MainMemory}
    (hSame : mm.rmap = s.mm.rmap)
    (hPc : PcOk (s.move a mm pc) a pc) :
    Inv (s.move a mm pc) := by
  apply hInv.move
  · rw [hSame]
    exact hInv.cons
  · intro g line hLine
    rwa [hSame] at hLine
  · exact hPc

/- An agent without a reservation may be released. -/
theorem Inv.release
    (hInv : Inv s)
    (hPc : s.pc a = .idle)
    (hLine : s.lineOf a = none) :
    Inv (s.release a) where
  cons := hInv.cons
  alive := by
    intro g line hHeld
    have hOld : s.lineOf g = some line := hHeld
    have hNe : g ≠ a := by
      rintro rfl
      simp [hLine] at hOld
    simpa [State.release, hNe] using hInv.alive g line hOld
  pc := by
    intro g
    have hOld : PcOk s g (s.pc g) := hInv.pc g
    by_cases hEq : g = a
    · subst hEq
      change PcOk _ _ (s.pc g)
      rw [hPc]
      trivial
    · have hSub :
          ∀ line, (s.release a).lineOf g = some line →
            s.lineOf g = some line := by
        intro line hHeld
        exact hHeld
      refine hOld.mono ?_ hSub
      simp [State.release, hEq]

/- A new granule gets the fields it had before it lived. -/
theorem Inv.create
    (hInv : Inv s)
    (hPc : s.pc a = .idle)
    (hAlive : s.alive a = false) :
    Inv
      { s with
        mm :=
          { s.mm with
            rmap :=
              { s.mm.rmap with
                granules :=
                  Function.update s.mm.rmap.granules a {} } }
        alive := Function.update s.alive a true } := by
  have hFree : s.mm.rmap.lineOf a = none := by
    cases hLine : s.mm.rmap.lineOf a with
    | none => rfl
    | some line =>
        have hLive := hInv.alive a line hLine
        simp [hAlive] at hLive
  refine ⟨hInv.cons.renew hFree, ?_, ?_⟩
  · intro g line hLine
    simp only [Function.update_apply]
    split
    case isTrue => rfl
    case isFalse hNe =>
      refine hInv.alive g line ?_
      rw [← hLine]
      simp [State.lineOf, ReservationMap.lineOf, hNe]
  · intro g
    have hOld : PcOk s g (s.pc g) := hInv.pc g
    by_cases hEq : g = a
    · subst hEq
      change PcOk _ _ (s.pc g)
      rw [hPc]
      trivial
    · refine PcOk.mono ?_ ?_ hOld
      · simp [hEq]
      · intro line hLine
        rw [← hLine]
        simp [State.lineOf, ReservationMap.lineOf, hEq]

/- The section that takes an agent's new reservation. -/
theorem Inv.reserve
    (hInv : Inv s)
    {req : Request}
    (hPc : s.pc a = .reserve req) :
    Inv
      (s.move a
        { s.mm with
          rmap :=
            s.mm.rmap.reserve a (lineIndex req.va)
              req.notify req.arg1 req.arg2 }
        .idle) := by
  have hOk : PcOk s a (s.pc a) := hInv.pc a
  rw [hPc] at hOk
  rcases hOk with ⟨hAlive, hFree⟩
  refine ⟨hInv.cons.reserve a hFree _ _ _ _, ?_, ?_⟩
  · intro g line hLine
    simp only [State.lineOf, State.move,
      ReservationMap.lineOf_reserve] at hLine
    split at hLine
    case isTrue hEq => simpa [State.move, hEq] using hAlive
    case isFalse => exact hInv.alive g line hLine
  · intro g
    by_cases hEq : g = a
    · subst hEq
      simp [State.move, PcOk]
    · have hOld : PcOk s g (s.pc g) := hInv.pc g
      simp only [State.move, Function.update_of_ne hEq]
      refine PcOk.mono ?_ ?_ hOld
      · rfl
      · intro line hLine
        simpa [State.lineOf, ReservationMap.lineOf_reserve,
          hEq] using hLine

/- The rest of a copy starts where the chunk ended. -/
theorem pcOk_rest
    {s t : State}
    {va last : Ps3Uintptr}
    {src : List Byte}
    (hOk : PcOk s a (.copy va last src))
    (hVa : va.toNat < 0xe0000000) :
    PcOk t a
      (if MainMemory.chunkEnd va last = last then .idle
        else
          .copy (MainMemory.chunkEnd va last) last
            (src.drop
              (MainMemory.chunkEnd va last - va).toNat)) := by
  rcases hOk with ⟨hLength, hNonempty⟩
  have hPos := List.length_pos_iff.mpr hNonempty
  have hSize :=
    MainMemory.toNat_chunkEnd_sub va last hVa (by omega)
  have hEnd := MainMemory.toNat_chunkEnd va last hVa
  split
  case isTrue => trivial
  case isFalse hNe =>
    have hBefore :
        (MainMemory.chunkEnd va last).toNat ≠
          last.toNat := by
      intro hEq
      exact hNe (BitVec.eq_of_toNat_eq hEq)
    have hDrop :
        (src.drop
          (MainMemory.chunkEnd va last - va).toNat).length =
          last.toNat -
            (MainMemory.chunkEnd va last).toNat := by
      rw [List.length_drop]
      omega
    refine ⟨by omega, ?_⟩
    apply List.ne_nil_of_length_pos
    omega

variable {e : Event}

/- Every step keeps the invariant. -/
theorem Inv.step
    {s t : State}
    (hInv : Inv s)
    (hStep : Step s e t) :
    Inv t := by
  rcases e with ⟨a, action, output⟩
  have hEffect : Effect s a action output t :=
    effect_of_step hStep
  have hOk : PcOk s a (s.pc a) := hInv.pc a
  have hCons := hInv.cons
  cases hEffect with
  | create hPc hAlive => exact hInv.create hPc hAlive
  | destroyHeld hPc hAlive hLine =>
      refine hInv.moveOnly rfl ?_
      intro held hHeld
      exact Option.some.inj (hHeld.symm.trans hLine)
  | destroyFree hPc hAlive hLine =>
      exact hInv.release hPc hLine
  | @clear line hPc =>
      rw [hPc] at hOk
      refine Inv.release ?_ (by simp [State.move]) ?_
      · refine hInv.move (hCons.clear line) ?_ trivial
        intro g held hHeld
        rw [hCons.lineOf_clear] at hHeld
        exact (Option.ite_none_left_eq_some.mp hHeld).2
      · simp only [State.lineOf, State.move,
          hCons.lineOf_clear]
        split
        case isTrue => rfl
        case isFalse hOther =>
          cases hLine : s.mm.rmap.lineOf a with
          | none => rfl
          | some held =>
              rw [hOk held hLine] at hLine
              exact absurd hLine hOther
  | loadReserveHeld hPc hAlive hLine =>
      exact hInv.moveOnly rfl hAlive
  | loadReserveFree hPc hAlive hLine =>
      exact hInv.moveOnly rfl ⟨hAlive, hLine⟩
  | unreserve hPc =>
      rw [hPc] at hOk
      refine
        hInv.move (hCons.destroySingleReservation a) ?_ ?_
      · intro g line hLine
        simp only [MainMemory.unreserveLocked,
          hCons.lineOf_destroySingleReservation] at hLine
        exact (Option.ite_none_left_eq_some.mp hLine).2
      · refine ⟨hOk, ?_⟩
        simp [State.lineOf, State.move,
          MainMemory.unreserveLocked,
          hCons.lineOf_destroySingleReservation]
  | reserve hPc hNext hPtr => exact hInv.reserve hPc
  | special hPc hAction => exact hInv
  | store hPc hPtr =>
      refine hInv.move (hCons.destroyExcept _ _ _) ?_ trivial
      intro g line hLine
      rw [stored, hCons.lineOf_destroyExcept] at hLine
      exact (Option.ite_none_left_eq_some.mp hLine).2
  | @writeMemory va buf hPc hVa hWrap =>
      refine hInv.moveOnly rfl ?_
      split
      case isTrue => trivial
      case isFalse hNonempty =>
        have hLast :=
          toNat_add_ofNat va buf.length hWrap
        refine ⟨hLast.symm, ?_⟩
        simpa using hNonempty
  | @copyChunk va last src ptr hPc hPtr =>
      rw [hPc] at hOk
      have hVa := s.mm.toNat_lt_of_pointer hPtr
      refine hInv.move ?_ ?_ (pcOk_rest hOk hVa)
      · exact
          hCons.destroyExcept (lineIndex va) none
            (s.granule a)
      · intro g line hLine
        rw [stored, hCons.lineOf_destroyExcept] at hLine
        exact (Option.ite_none_left_eq_some.mp hLine).2
  | mark hPc => exact hInv.moveOnly rfl trivial
  | condStored hPc hLength hNext hHeld hPtr =>
      refine hInv.move (hCons.clear _) ?_ trivial
      intro g line hLine
      rw [condStored, ReservationMap.destroySingleLine,
        hCons.lineOf_clear] at hLine
      exact (Option.ite_none_left_eq_some.mp hLine).2
  | condFailed hPc => exact hInv.moveOnly rfl trivial

theorem Inv.run
    {start s : State}
    {events : List Event}
    (hInitial : Initial start)
    (hRun : Transition.Run Step start events s) :
    Inv s := by
  apply hRun.invariant Inv
  · intro s e t hInv hStep
    exact hInv.step hStep
  · exact Inv.initial hInitial

------------------------------------------------------------
-- Back Pointers After a Step
------------------------------------------------------------

/- The reserving section of an agent's `loadReserve`. -/
def Reserves
    (s : State)
    (e : Event)
    (g : AgentId)
    (line : Nat) : Prop :=
  e.agent = g ∧ e.action = .reserve ∧
    ∃ req, s.pc g = .reserve req ∧ lineIndex req.va = line

/- An agent writes under no granule but its own. -/
theorem granule_ne
    (s : State)
    {g a : AgentId}
    (hNe : g ≠ a) :
    some g ≠ s.granule a := by
  unfold State.granule
  split
  · simpa using hNe
  · simp

/- The lines of a store are the ones `destroyExcept` gets. -/
theorem writesLine_of_store
    {len : AccessLen}
    {va : Ps3Uintptr}
    {value : Word len.bytes}
    (hVa : va.toNat < 0xe0000000)
    (line : Nat) :
    WritesLine s ⟨a, .store len va value, .none⟩ line ↔
      (line = (lockedLines len.bytes va).1 ∨
        some line = (lockedLines len.bytes va).2) := by
  have hOrdinary := (isSpecialVa_eq_false_iff va).mpr hVa
  have hPos := len.bytes_pos
  have hLe := len.bytes_le
  rw [mem_lockedLines_iff len.bytes va hPos
    (by simp only [cacheLine]; omega) (by omega)]
  constructor
  · rintro ⟨x, ⟨w, n, hRange, hNear⟩, hLine⟩
    simp only [writtenRange, hOrdinary, Bool.false_eq_true,
      if_false, Option.some.injEq, Prod.mk.injEq] at hRange
    obtain ⟨rfl, rfl⟩ := hRange
    exact ⟨x, hNear, hLine⟩
  · rintro ⟨x, hNear, hLine⟩
    refine ⟨x, ⟨va, len.bytes, ?_, hNear⟩, hLine⟩
    simp [writtenRange, hOrdinary]

/- A copied chunk lies on the line of its first byte. -/
theorem writesLine_of_copyChunk
    {va last : Ps3Uintptr}
    {src : List Byte}
    (hPc : s.pc a = .copy va last src)
    (hVa : va.toNat < 0xe0000000)
    (hLast : va.toNat < last.toNat)
    (line : Nat) :
    WritesLine s ⟨a, .copyChunk, .none⟩ line ↔
      line = lineIndex va := by
  have hRange :
      writtenRange s ⟨a, .copyChunk, .none⟩ =
        some (va,
          (MainMemory.chunkEnd va last - va).toNat) := by
    simp only [writtenRange, hPc]
  constructor
  · rintro ⟨x, ⟨w, n, hWritten, hNear⟩, hLine⟩
    rw [hRange] at hWritten
    obtain ⟨rfl, rfl⟩ :=
      Prod.mk.inj (Option.some.inj hWritten)
    rw [← hLine]
    exact MainMemory.lineIndex_of_chunk va last x hVa hLast
      hNear
  · rintro rfl
    refine ⟨va, ⟨va, _, hRange, ?_⟩, rfl⟩
    rw [MainMemory.toNat_chunkEnd_sub va last hVa hLast]
    simp only [distance, BitVec.sub_self, BitVec.toNat_zero]
    omega

/- A `writeCond` that stores stays on one line. -/
theorem writesLine_of_writeCond
    {len : ReserveLen}
    {unconditional : Bool}
    {va : Ps3Uintptr}
    {buf : List Byte}
    (hVa : va.toNat < 0xe0000000)
    (hNext : (lockedLines len.bytes va).2 = none)
    (line : Nat) :
    WritesLine s
        ⟨a, .writeCond len unconditional va buf,
          .stored true⟩ line ↔
      line = lineIndex va := by
  have hLocked :
      line = lineIndex va ↔
        (line = (lockedLines len.bytes va).1 ∨
          some line = (lockedLines len.bytes va).2) := by
    rw [hNext]
    simp [lockedLines]
  have hLe := len.bytes_le
  rw [hLocked, mem_lockedLines_iff len.bytes va
    len.bytes_pos (by simpa [cacheLine] using hLe) (by omega)]
  constructor
  · rintro ⟨x, ⟨w, n, hWritten, hNear⟩, hLine⟩
    simp only [writtenRange, if_true, Option.some.injEq,
      Prod.mk.injEq] at hWritten
    obtain ⟨rfl, rfl⟩ := hWritten
    exact ⟨x, hNear, hLine⟩
  · rintro ⟨x, hNear, hLine⟩
    exact ⟨x, ⟨va, len.bytes, by simp [writtenRange], hNear⟩,
      hLine⟩

/- An event clears a line in the destructor of a granule. -/
def Clears (s : State) (e : Event) (line : Nat) : Prop :=
  e.action = .clear ∧ s.pc e.agent = .clear line

/-
  The destructor of a granule finds another granule on the
  line it clears.
-/
def Disbands (s : State) (e : Event) : Prop :=
  ∃ line g,
    Clears s e line ∧
      g ≠ e.agent ∧ s.lineOf g = some line

theorem not_writesLine
    {e : Event}
    (hRange : writtenRange s e = none)
    (line : Nat) :
    ¬ WritesLine s e line := by
  rintro ⟨a, ⟨va, n, hWritten, -⟩, -⟩
  simp [hRange] at hWritten

/-
  What a step leaves of the reservations of the agents that
  do not take it, exactly: those on lines that it neither
  writes nor clears in a destructor.
-/
theorem lineOf_other
    {s t : State}
    (hInv : Inv s)
    (hStep : Step s e t)
    (g : AgentId)
    (hOther : g ≠ e.agent)
    (line : Nat) :
    t.lineOf g = some line ↔
      s.lineOf g = some line ∧
        ¬ WritesLine s e line ∧ ¬ Clears s e line := by
  rcases e with ⟨a, action, output⟩
  have hEffect : Effect s a action output t :=
    effect_of_step hStep
  have hOk : PcOk s a (s.pc a) := hInv.pc a
  have hCons := hInv.cons
  have hNe : g ≠ a := hOther
  have hQuiet :
      writtenRange s ⟨a, action, output⟩ = none →
        action ≠ .clear →
          t.lineOf g = s.lineOf g →
            (t.lineOf g = some line ↔
              s.lineOf g = some line ∧
                ¬ WritesLine s ⟨a, action, output⟩ line ∧
                  ¬ Clears s ⟨a, action, output⟩ line) := by
    intro hRange hAction hSame
    have hNot := not_writesLine hRange line
    simp [hSame, hNot, Clears, hAction]
  cases hEffect with
  | create hPc hAlive =>
      refine hQuiet rfl (by simp) ?_
      simp [State.lineOf, ReservationMap.lineOf, hNe]
  | destroyHeld => exact hQuiet rfl (by simp) rfl
  | destroyFree => exact hQuiet rfl (by simp) rfl
  | @clear cleared hPc =>
      have hNot :=
        @not_writesLine s ⟨a, .clear, .none⟩ rfl line
      have hLine :
          (((s.move a
              { s.mm with rmap := s.mm.rmap.clear cleared }
              .idle).release a).lineOf g = some line ↔
            s.lineOf g = some line ∧ cleared ≠ line) := by
        change (s.mm.rmap.clear cleared).lineOf g = _ ↔ _
        rw [hCons.lineOf_clear, State.lineOf]
        grind
      rw [hLine]
      simp [hNot, Clears, hPc]
  | loadReserveHeld => exact hQuiet rfl (by simp) rfl
  | loadReserveFree => exact hQuiet rfl (by simp) rfl
  | unreserve hPc =>
      refine hQuiet rfl (by simp) ?_
      change
        (s.mm.rmap.destroySingleReservation a).lineOf g = _
      simp [hCons.lineOf_destroySingleReservation, hNe,
        State.lineOf]
  | reserve hPc hNext hPtr =>
      refine hQuiet rfl (by simp) ?_
      change (s.mm.rmap.reserve a _ _ _ _).lineOf g = _
      simp [ReservationMap.lineOf_reserve, hNe,
        State.lineOf]
  | special hPc hAction =>
      rcases hAction with
        ⟨len, va, value, rfl, hSpecial⟩ |
        ⟨va, buf, rfl, hSpecial⟩
      · exact hQuiet (by simp [writtenRange, hSpecial])
          (by simp) rfl
      · exact hQuiet rfl (by simp) rfl
  | @store len va value ptr hPc hPtr =>
      have hVa := s.mm.toNat_lt_of_pointer hPtr
      rw [writesLine_of_store hVa line]
      change
        (s.mm.rmap.destroyExcept _ _ (s.granule a)).lineOf g =
          _ ↔ _
      rw [hCons.lineOf_destroyExcept]
      have hGranule := granule_ne s hNe
      simp only [Clears, State.lineOf]
      grind
  | writeMemory => exact hQuiet rfl (by simp) rfl
  | @copyChunk va last src ptr hPc hPtr =>
      rw [hPc] at hOk
      rcases hOk with ⟨hLength, hNonempty⟩
      have hPos := List.length_pos_iff.mpr hNonempty
      have hVa := s.mm.toNat_lt_of_pointer hPtr
      rw [writesLine_of_copyChunk hPc hVa (by omega) line]
      change
        (s.mm.rmap.destroyExcept (lineIndex va) none
          (s.granule a)).lineOf g = _ ↔ _
      rw [hCons.lineOf_destroyExcept]
      have hGranule := granule_ne s hNe
      simp only [Clears, State.lineOf]
      grind
  | mark => exact hQuiet rfl (by simp) rfl
  | @condStored len unconditional va buf ptr hPc hLength
      hNext hHeld hPtr =>
      have hVa := s.mm.toNat_lt_of_pointer hPtr
      rw [writesLine_of_writeCond hVa hNext line]
      change
        (s.mm.rmap.clear (lineIndex va)).lineOf g = _ ↔ _
      rw [hCons.lineOf_clear]
      simp only [Clears, State.lineOf]
      grind
  | condFailed =>
      exact hQuiet (by simp [writtenRange]) (by simp) rfl

/-
  The agent that takes a step has a reservation afterwards
  only if the step reserves, or it had it and the step is
  not one that reserves.
-/
theorem lineOf_own
    {s t : State}
    (hInv : Inv s)
    (hStep : Step s e t)
    (line : Nat)
    (hLine : t.lineOf e.agent = some line) :
    Reserves s e e.agent line ∨
      (s.lineOf e.agent = some line ∧
        e.action ≠ .reserve) := by
  rcases e with ⟨a, action, output⟩
  have hEffect : Effect s a action output t :=
    effect_of_step hStep
  have hCons := hInv.cons
  cases hEffect with
  | create hPc hAlive =>
      simp [State.lineOf, ReservationMap.lineOf] at hLine
  | destroyHeld => exact .inr ⟨hLine, by simp⟩
  | destroyFree => exact .inr ⟨hLine, by simp⟩
  | @clear cleared hPc =>
      refine .inr ⟨?_, by simp⟩
      change (s.mm.rmap.clear cleared).lineOf a = _ at hLine
      rw [hCons.lineOf_clear] at hLine
      exact (Option.ite_none_left_eq_some.mp hLine).2
  | loadReserveHeld => exact .inr ⟨hLine, by simp⟩
  | loadReserveFree => exact .inr ⟨hLine, by simp⟩
  | unreserve hPc =>
      change
        (s.mm.rmap.destroySingleReservation a).lineOf a = _
          at hLine
      simp [hCons.lineOf_destroySingleReservation] at hLine
  | @reserve req ptr hPc hNext hPtr =>
      refine .inl ⟨rfl, rfl, req, hPc, ?_⟩
      change (s.mm.rmap.reserve a _ _ _ _).lineOf a = _
        at hLine
      simpa [ReservationMap.lineOf_reserve] using hLine
  | special hPc hAction =>
      refine .inr ⟨hLine, ?_⟩
      rcases hAction with ⟨_, _, _, rfl, -⟩ | ⟨_, _, rfl, -⟩
      · simp
      · simp
  | store hPc hPtr =>
      refine .inr ⟨?_, by simp⟩
      change (s.mm.rmap.destroyExcept _ _ _).lineOf a = _
        at hLine
      rw [hCons.lineOf_destroyExcept] at hLine
      exact (Option.ite_none_left_eq_some.mp hLine).2
  | writeMemory => exact .inr ⟨hLine, by simp⟩
  | @copyChunk va last src ptr hPc hPtr =>
      refine .inr ⟨?_, by simp⟩
      change
        (s.mm.rmap.destroyExcept (lineIndex va) none
          (s.granule a)).lineOf a = _ at hLine
      rw [hCons.lineOf_destroyExcept] at hLine
      exact (Option.ite_none_left_eq_some.mp hLine).2
  | mark => exact .inr ⟨hLine, by simp⟩
  | @condStored len unconditional va buf ptr hPc hLength
      hNext hHeld hPtr =>
      refine .inr ⟨?_, by simp⟩
      change (s.mm.rmap.clear (lineIndex va)).lineOf a = _
        at hLine
      rw [hCons.lineOf_clear] at hLine
      exact (Option.ite_none_left_eq_some.mp hLine).2
  | condFailed => exact .inr ⟨hLine, by simp⟩

------------------------------------------------------------
-- Representation and Frame
------------------------------------------------------------

/-
  A step takes reservations from other agents only on lines
  that it writes.
-/
def Framed (s : State) (e : Event) (t : State) : Prop :=
  ∀ g line,
    g ≠ e.agent →
    s.lineOf g = some line →
    t.lineOf g = some line ∨ WritesLine s e line

theorem framed_iff
    {s t : State}
    (hInv : Inv s)
    (hStep : Step s e t) :
    Framed s e t ↔ ¬ Disbands s e := by
  have hOther := lineOf_other hInv hStep
  constructor
  · rintro hFramed ⟨line, g, hClears, hNe, hLine⟩
    rcases hFramed g line hNe hLine with hKept | hWrites
    · exact ((hOther g hNe line).mp hKept).2.2 hClears
    · refine not_writesLine ?_ line hWrites
      simp [writtenRange, hClears.1]
  · intro hNot g line hNe hLine
    by_cases hWrites : WritesLine s e line
    · exact .inr hWrites
    · refine .inl ((hOther g hNe line).mpr ?_)
      refine ⟨hLine, hWrites, ?_⟩
      intro hClears
      exact hNot ⟨line, g, hClears, hNe, hLine⟩

/-
  In every reachable state the back pointers and the lists
  of granules describe the same reservations, each listed
  once, and a dead granule has none.  A step takes another
  agent's reservation on a line it does not write only when
  it is a destructor that shares its line.
-/
theorem reservations_of_run
    {start s : State}
    {events : List Event}
    (hInitial : Initial start)
    (hRun : Transition.Run Step start events s) :
    (∀ g line,
      s.lineOf g = some line ↔
        some g ∈ s.mm.rmap.lines line) ∧
    (∀ g line,
      s.lineOf g = some line →
        (s.mm.rmap.lines line).count (some g) = 1 ∧
          ∀ other, other ≠ line →
            some g ∉ s.mm.rmap.lines other) ∧
    (∀ g, s.alive g = false → s.lineOf g = none) ∧
    ∀ e t, Step s e t → (Framed s e t ↔ ¬ Disbands s e) := by
  have hInv := Inv.run hInitial hRun
  refine ⟨hInv.cons.lineOf_iff, ?_, ?_, ?_⟩
  · intro g line hLine
    exact hInv.cons.unique hLine
  · intro g hDead
    cases hLine : s.lineOf g with
    | none => rfl
    | some line => simp [hInv.alive g line hLine] at hDead
  · intro e t hStep
    exact framed_iff hInv hStep

/- A memory of one page, before any agent has run. -/
def blank : State where
  mm :=
    { pages :=
        { ptr := fun p =>
            if p = 0 then some ⟨0, 0⟩ else none
          ordinary := by grind
          linear := by grind }
      host := fun _ _ => 0
      rmap := ReservationMap.empty
      mmap := fun _ => false }
  alive := fun _ => false
  pc := fun _ => .idle

theorem initial_blank : Initial blank :=
  ⟨rfl, fun _ => rfl, fun _ => rfl⟩

/- An agent comes to life and reserves the first line. -/
def reserveFirst (a : AgentId) : List (AgentId × Action) :=
  [(a, .create), (a, .loadReserve ⟨.four, 0#32, none, 0, 0⟩),
    (a, .reserve)]

theorem reservations_of_two :
    ∃ events s,
      Transition.Run Step blank events s ∧
        s.lineOf 1 = some 0 ∧
        s.lineOf 2 = some 0 ∧
        (s.mm.rmap.lines 0).count (some 1) = 1 := by
  have hExec :
      (exec blank (reserveFirst 1 ++ reserveFirst 2)).map
        (fun r => (r.2.lineOf 1, r.2.lineOf 2)) =
        some (some 0, some 0) := by decide
  rcases Option.map_eq_some_iff.mp hExec with
    ⟨⟨events, s⟩, hRun, hLines⟩
  obtain ⟨hOne, hTwo⟩ := Prod.mk.inj hLines
  have hReach := run_of_exec hRun
  have hAll := reservations_of_run initial_blank hReach
  exact
    ⟨events, s, hReach, hOne, hTwo, (hAll.2.1 1 0 hOne).1⟩

/-
  Two granules hold reservations on a line that nobody
  writes, and the destructor of one drops both.
-/
theorem destroy_not_framed :
    ¬ ∀ start events s e t,
        Initial start →
        Transition.Run Step start events s →
        Step s e t →
        Framed s e t := by
  intro hFramed
  have hExec :
      (exec blank
          (reserveFirst 1 ++ reserveFirst 2 ++
            [(1, .destroy)])).map
        (fun r => (r.2.pc 1, r.2.lineOf 2)) =
        some (.clear 0, some 0) := by decide
  rcases Option.map_eq_some_iff.mp hExec with
    ⟨⟨events, s⟩, hRun, hState⟩
  have hPc : s.pc 1 = .clear 0 := (Prod.mk.inj hState).1
  have hLine : s.lineOf 2 = some 0 :=
    (Prod.mk.inj hState).2
  have hReach := run_of_exec hRun
  have hStep :
      ∃ t, Step s ⟨1, .clear, .none⟩ t := by
    simp only [Step, step, hPc]
    exact ⟨_, rfl⟩
  rcases hStep with ⟨t, hStep⟩
  have hInv := Inv.run initial_blank hReach
  refine
    (framed_iff hInv hStep).mp
      (hFramed _ _ _ _ _ initial_blank hReach hStep) ?_
  exact ⟨0, 2, ⟨rfl, hPc⟩, by decide, hLine⟩

end Agents

end Ps3emu
