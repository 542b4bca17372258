import Ps3emu.Memory.Reservations

/-
  Load-reserve and store-conditional.  A conditional write
  that stores has had its line to itself since the agent's
  latest reservation, and agents that update a word in
  lwarx/stwcx. loops lose no update.

  Key definitions include:
    * `Agents.Undisturbed`
    * `Loop.State`, `Loop.Event`, `Loop.Step`
    * `Loop.applied`

  Key theorems include:
    * `Agents.since_reserve_of_stored`
    * `Loop.Inv.step`
    * `Loop.writeCond_sound`
-/

------------------------------------------------------------
-- Undisturbed Lines
------------------------------------------------------------

namespace Ps3emu

namespace Agents

/-
  The step is not a reservation of `g`, and a step of another
  agent writes no byte of the line and changes none.
-/
def Undisturbed
    (g : AgentId)
    (line : Nat)
    (s : State)
    (e : Event)
    (t : State) : Prop :=
  ¬ (e.agent = g ∧ e.action = .reserve) ∧
    (e.agent ≠ g →
      ¬ WritesLine s e line ∧
        ∀ a, lineIndex a = line → t.mm.byte a = s.mm.byte a)

variable {g : AgentId} {s t : State}

/- How an agent comes to hold a reservation after a step. -/
theorem reserves_or_undisturbed
    {e : Event}
    {line : Nat}
    (hInv : Inv s)
    (hStep : Step s e t)
    (hLine : t.lineOf g = some line) :
    Reserves s e g line ∨
      (s.lineOf g = some line ∧ Undisturbed g line s e t) := by
  by_cases hAgent : e.agent = g
  · subst hAgent
    rcases lineOf_own hInv hStep line hLine with
      hNew | ⟨hOld, hAction⟩
    · exact .inl hNew
    · refine .inr ⟨hOld, ?_, ?_⟩
      · rintro ⟨-, hReserve⟩
        exact hAction hReserve
      · intro hNe
        exact absurd rfl hNe
  · have hOther :=
      (lineOf_other hInv hStep g (Ne.symm hAgent) line).mp
        hLine
    rcases hOther with ⟨hOld, hWrites, -⟩
    refine .inr ⟨hOld, ?_, ?_⟩
    · rintro ⟨hEq, -⟩
      exact hAgent hEq
    · intro _
      refine ⟨hWrites, ?_⟩
      intro a hIndex
      apply byte_step hStep
      intro hWritten
      exact hWrites ⟨a, hWritten, hIndex⟩

/- An agent that holds a line has reserved it undisturbed. -/
theorem since_reserve
    {start s : State}
    {events : List Event}
    {line : Nat}
    (hInitial : Initial start)
    (hRun : Transition.Run Step start events s)
    (hLine : s.lineOf g = some line) :
    Transition.Since Step
      (fun s e _ => Reserves s e g line)
      (Undisturbed g line) start events s := by
  refine
    hRun.since Inv (fun s => s.lineOf g = some line)
      ?_ ?_ (Inv.initial hInitial) ?_ hLine
  · intro s e t hInv hStep
    exact hInv.step hStep
  · intro s e t hInv hStep hHeld
    exact reserves_or_undisturbed hInv hStep hHeld
  · simp [State.lineOf, hInitial.rmap,
      ReservationMap.lineOf, ReservationMap.empty]

variable {buf : List Byte} {len : ReserveLen} {va : Ps3Uintptr}

/- A conditional write that stores holds the line. -/
theorem lineOf_of_stored
    (hInv : Inv s)
    (hStep :
      Step s ⟨g, .writeCond len false va buf, .stored true⟩
        t) :
    s.lineOf g = some (lineIndex va) := by
  have hEffect :
      Effect s g (.writeCond len false va buf)
        (.stored true) t := effect_of_step hStep
  cases hEffect with
  | condStored hPc hLength hNext hHeld hPtr =>
      exact
        (hInv.cons.contains_iff _ _).mp (hHeld rfl)

variable {unconditional : Bool}

/- It leaves nobody a reservation on the line. -/
theorem lineOf_ne_of_stored
    (hInv : Inv s)
    (hStep :
      Step s
        ⟨g, .writeCond len unconditional va buf,
          .stored true⟩ t)
    (h : AgentId) :
    t.lineOf h ≠ some (lineIndex va) := by
  have hEffect :
      Effect s g (.writeCond len unconditional va buf)
        (.stored true) t := effect_of_step hStep
  cases hEffect with
  | condStored hPc hLength hNext hHeld hPtr =>
      change (s.mm.rmap.clear (lineIndex va)).lineOf h ≠ _
      rw [hInv.cons.lineOf_clear]
      grind

/- A conditional write that fails changes no memory. -/
theorem host_of_failed
    (hStep :
      Step s
        ⟨g, .writeCond len unconditional va buf,
          .stored false⟩ t) :
    t.mm = s.mm := by
  have hEffect :
      Effect s g (.writeCond len unconditional va buf)
        (.stored false) t := effect_of_step hStep
  cases hEffect with
  | condFailed hPc => rfl

/- What a conditional write that stores leaves in memory. -/
theorem read_of_stored
    (hStep :
      Step s
        ⟨g, .writeCond len unconditional va buf,
          .stored true⟩ t) :
    (t.mm.getMemoryPointer va).map
        (fun p => t.mm.host.read p len.bytes) =
      some buf := by
  have hEffect :
      Effect s g (.writeCond len unconditional va buf)
        (.stored true) t := effect_of_step hStep
  cases hEffect with
  | @condStored _ _ _ _ ptr hPc hLength hNext hHeld hPtr =>
      have hRead :=
        MainMemory.read_write_self s.mm.host ptr buf
      rw [hLength] at hRead
      change
        (s.mm.getMemoryPointer va).map
          (fun p => (s.mm.host.write ptr buf).read p _) = _
      rw [hPtr, Option.map_some, hRead]

end Agents

------------------------------------------------------------
-- Update Loops
------------------------------------------------------------

namespace Loop

open Agents (AgentId)

/- The memory system and the word each agent has loaded. -/
structure State where
  sys : Agents.State
  loaded : AgentId → Option (Word 4)

/- A stwcx. stores the loaded word with this change made. -/
structure Event where
  event : Agents.Event
  modify : Word 4 → Word 4

/- The data of a stwcx. on the word at `word`. -/
def stwcx
    (word : Ps3Uintptr)
    (e : Agents.Event) : Option (List Byte) :=
  match e.action with
  | .writeCond .four false va buf =>
      if va = word then some buf else none
  | _ => none

/- The value a lwarx on `word` brings, when `e` ends one. -/
def lwarx
    (word : Ps3Uintptr)
    (s : Agents.State)
    (e : Agents.Event) : Option (Word 4) :=
  match s.pc e.agent, e.output with
  | .reserve req, .loaded buf =>
      if req.len = .four ∧ req.va = word then
        some (Bytes.ofBigEndian 4 buf)
      else none
  | _, _ => none

/- Every reservation replaces the word its agent has. -/
def loadedAfter
    (word : Ps3Uintptr)
    (c : State)
    (e : Event) : AgentId → Option (Word 4) :=
  if e.event.action = .reserve then
    Function.update c.loaded e.event.agent
      (lwarx word c.sys e.event)
  else c.loaded

/-
  The agents may run anything beside their loops that does
  not write the bytes of the word.
-/
structure Step
    (word : Ps3Uintptr)
    (c : State)
    (e : Event)
    (d : State) : Prop where
  sys : Agents.Step c.sys e.event d.sys
  loaded : d.loaded = loadedAfter word c e
  update :
    ∀ buf, stwcx word e.event = some buf →
      ∃ v, c.loaded e.event.agent = some v ∧
        buf = Bytes.bigEndian (e.modify v)
  other :
    stwcx word e.event = none →
      ∀ a, distance word a < 4 →
        ¬ Agents.Writes c.sys e.event a

/- A stwcx. on the word has stored. -/
def succeeds (word : Ps3Uintptr) (e : Event) : Bool :=
  (stwcx word e.event).isSome &&
    e.event.output == .stored true

/- The changes made by the successful stwcx. of a run. -/
def applied
    (word : Ps3Uintptr)
    (events : List Event) : List (Word 4 → Word 4) :=
  (events.filter (succeeds word)).map Event.modify

/-
  The word has the value `v`, and an agent that holds the
  word's line has loaded that value, if it has loaded one.
-/
structure Inv
    (word : Ps3Uintptr)
    (v : Word 4)
    (c : State) : Prop where
  sys : Agents.Inv c.sys
  value : c.sys.mm.load .four word = some v
  fresh :
    ∀ g w,
      c.loaded g = some w →
      c.sys.lineOf g = some (lineIndex word) →
      w = v

variable {word : Ps3Uintptr}

theorem stwcx_eq_some
    {e : Agents.Event}
    {buf : List Byte}
    (hStwcx : stwcx word e = some buf) :
    e.action = .writeCond .four false word buf := by
  rcases e with ⟨agent, action, output⟩
  unfold stwcx at hStwcx
  split at hStwcx
  case h_1 va data hAction =>
    split at hStwcx
    case isTrue hVa =>
      obtain rfl := Option.some.inj hStwcx
      rw [hAction, hVa]
    case isFalse => cases hStwcx
  case h_2 => cases hStwcx

variable {v : Word 4} {e : Event}

/- A successful stwcx. makes its change and frees the line. -/
theorem Inv.store
    {c d : State}
    (hInv : Inv word v c)
    (hStep : Step word c e d)
    (hSucceeds : succeeds word e = true) :
    Inv word (e.modify v) d := by
  rcases e with ⟨⟨g, action, output⟩, modify⟩
  simp only [succeeds, Bool.and_eq_true, beq_iff_eq,
    Option.isSome_iff_exists] at hSucceeds
  rcases hSucceeds with ⟨⟨buf, hStwcx⟩, hOutput⟩
  have hAction : action = .writeCond .four false word buf :=
    stwcx_eq_some hStwcx
  have hSys :
      Agents.Step c.sys
        ⟨g, .writeCond .four false word buf, .stored true⟩
        d.sys := by
    have hRaw := hStep.sys
    rwa [hAction, hOutput] at hRaw
  rcases hStep.update buf hStwcx with ⟨w, hLoaded, hBuf⟩
  have hHeld := Agents.lineOf_of_stored hInv.sys hSys
  have hFresh : w = v := hInv.fresh g w hLoaded hHeld
  refine ⟨hInv.sys.step hSys, ?_, ?_⟩
  · rcases Option.map_eq_some_iff.mp
      (Agents.read_of_stored hSys) with ⟨p, hp, hBytes⟩
    have hOrdinary := d.sys.mm.toNat_lt_of_pointer hp
    have hWord := Bytes.ofBigEndian_bigEndian (modify w)
    rw [MainMemory.load_eq _ _ _ hOrdinary, hp]
    change some (Bytes.ofBigEndian 4 _) = some (modify v)
    rw [← hFresh, ← hWord, ← hBuf, ← hBytes]
    rfl
  · intro h x hLoadedAfter hLine
    have hFree :=
      Agents.lineOf_ne_of_stored hInv.sys hSys h
    exact absurd hLine hFree

/- A lwarx brings the value of the word. -/
theorem lwarx_value
    {v w : Word 4}
    {s t : Agents.State}
    {e : Agents.Event}
    (hStep : Agents.Step s e t)
    (hAction : e.action = .reserve)
    (hOrdinary : word.toNat < 0xe0000000)
    (hValue : s.mm.load .four word = some v)
    (hLwarx : lwarx word s e = some w) :
    w = v := by
  rcases e with ⟨g, action, output⟩
  obtain rfl : action = .reserve := hAction
  have hEffect : Agents.Effect s g .reserve output t :=
    Agents.effect_of_step hStep
  cases hEffect with
  | @reserve req ptr hPc hNext hPtr =>
      simp only [lwarx, hPc] at hLwarx
      split at hLwarx
      case isFalse => cases hLwarx
      case isTrue hWord =>
        rcases hWord with ⟨hLen, rfl⟩
        rw [MainMemory.load_eq _ _ _ hOrdinary, hPtr,
          Option.map_some] at hValue
        rw [hLen] at hLwarx
        exact
          Option.some.inj (hLwarx.symm.trans hValue)
  | special hPc hAction =>
      rcases hAction with ⟨_, _, _, hEq, -⟩ | ⟨_, _, hEq, -⟩
      · cases hEq
      · cases hEq

/- Any other step leaves the word and the loaded words be. -/
theorem Inv.keep
    {c d : State}
    (hInv : Inv word v c)
    (hStep : Step word c e d)
    (hFails : succeeds word e = false) :
    Inv word v d := by
  have hSys := hStep.sys
  have hWrites :
      ∀ a, distance word a < 4 →
        ¬ Agents.Writes c.sys e.event a := by
    cases hStwcx : stwcx word e.event with
    | none => exact hStep.other hStwcx
    | some buf =>
        have hAction := stwcx_eq_some hStwcx
        rintro a - ⟨va, n, hRange, -⟩
        simp only [Agents.writtenRange, hAction] at hRange
        simp [succeeds, hStwcx] at hFails
        simp [hFails] at hRange
  have hOrdinary : word.toNat < 0xe0000000 := by
    by_contra hNot
    have hRaw : isRawSpuVa word = true :=
      (isRawSpuVa_iff word).mpr (by omega)
    have hValue := hInv.value
    simp [MainMemory.load, hRaw] at hValue
  have hLoad :=
    Agents.load_step hSys .four word hOrdinary hWrites
  have hValue : d.sys.mm.load .four word = some v :=
    hLoad.trans hInv.value
  refine ⟨hInv.sys.step hSys, hValue, ?_⟩
  intro g w hLoaded hLine
  rw [hStep.loaded, loadedAfter] at hLoaded
  by_cases hReserve :
      e.event.action = .reserve ∧ e.event.agent = g
  · rcases hReserve with ⟨hAction, rfl⟩
    rw [if_pos hAction, Function.update_self] at hLoaded
    exact lwarx_value hSys hAction hOrdinary hInv.value
      hLoaded
  · have hOld : c.loaded g = some w := by
      split at hLoaded
      case isTrue hAction =>
        have hNe : g ≠ e.event.agent := by
          rintro rfl
          exact hReserve ⟨hAction, rfl⟩
        rwa [Function.update_of_ne hNe] at hLoaded
      case isFalse => exact hLoaded
    apply hInv.fresh g w hOld
    rcases Agents.reserves_or_undisturbed hInv.sys hSys
        hLine with ⟨hAgent, hAction, -⟩ | ⟨hHeld, -⟩
    · exact absurd ⟨hAction, hAgent⟩ hReserve
    · exact hHeld

theorem applied_append
    (word : Ps3Uintptr)
    (events : List Event)
    (e : Event) :
    applied word (events ++ [e]) =
      applied word events ++
        if succeeds word e then [e.modify] else [] := by
  unfold applied
  cases hSucceeds : succeeds word e with
  | false => simp [hSucceeds]
  | true => simp [hSucceeds]

/- The word after a run is the fold of the run's changes. -/
theorem Inv.run
    {c d : State}
    {events : List Event}
    (hInv : Inv word v c)
    (hRun : Transition.Run (Step word) c events d) :
    Inv word
      ((applied word events).foldl (fun w f => f w) v) d := by
  induction hRun with
  | nil => exact hInv
  | @snoc events middle finish event hRun hLast ih =>
      rw [applied_append, List.foldl_append]
      cases hSucceeds : succeeds word event with
      | false => exact ih.keep hLast hSucceeds
      | true => exact ih.store hLast hSucceeds

/- The loops start from a fresh system. -/
structure Initial (c : State) : Prop where
  sys : Agents.Initial c.sys
  loaded : ∀ g, c.loaded g = none

variable {c : State}

theorem Inv.initial
    (hInitial : Initial c)
    (hValue : c.sys.mm.load .four word = some v) :
    Inv word v c where
  sys := Agents.Inv.initial hInitial.sys
  value := hValue
  fresh := by
    intro g w hLoaded
    simp [hInitial.loaded] at hLoaded

------------------------------------------------------------
-- Soundness
------------------------------------------------------------

/-
  A conditional write reports exactly whether it stored its
  data, and it stores only if its line is the one of the
  agent's latest reservation and no other agent has changed
  a byte of it since.  A word that is updated in loops ends
  up as its initial value with every successful change made
  once, in order.
-/
theorem writeCond_sound :
    (∀ start events s g len va buf ok t,
      Agents.Initial start →
      Transition.Run Agents.Step start events s →
      Agents.Step s
        ⟨g, .writeCond len false va buf, .stored ok⟩ t →
      if ok then
        (t.mm.getMemoryPointer va).map
            (fun p => t.mm.host.read p len.bytes) =
          some buf ∧
        Transition.Since Agents.Step
          (fun s e _ =>
            Agents.Reserves s e g (lineIndex va))
          (Agents.Undisturbed g (lineIndex va))
          start events s
      else t.mm = s.mm) ∧
    ∀ word v c events d,
      Initial c →
      c.sys.mm.load .four word = some v →
      Transition.Run (Step word) c events d →
      d.sys.mm.load .four word =
        some
          ((applied word events).foldl
            (fun w f => f w) v) := by
  constructor
  · intro start events s g len va buf ok t hInitial hRun
      hStep
    cases ok with
    | false => exact Agents.host_of_failed hStep
    | true =>
        have hInv := Agents.Inv.run hInitial hRun
        have hHeld := Agents.lineOf_of_stored hInv hStep
        exact
          ⟨Agents.read_of_stored hStep,
            Agents.since_reserve hInitial hRun hHeld⟩
  · intro word v c events d hInitial hValue hRun
    have hInv := (Inv.initial hInitial hValue).run hRun
    exact hInv.value

/- A stwcx. stores the loaded word changed, the rest none. -/
def allowed
    (word : Ps3Uintptr)
    (c : State)
    (e : Event) : Bool :=
  match stwcx word e.event with
  | some buf =>
      (c.loaded e.event.agent).any (fun v =>
        buf == Bytes.bigEndian (e.modify v))
  | none => (Agents.writtenRange c.sys e.event).isNone

theorem step_of_allowed
    {t : Agents.State}
    (hSys : Agents.Step c.sys e.event t)
    (hAllowed : allowed word c e = true) :
    Step word c e ⟨t, loadedAfter word c e⟩ := by
  unfold allowed at hAllowed
  refine ⟨hSys, rfl, ?_, ?_⟩
  · intro buf hStwcx
    simp only [hStwcx] at hAllowed
    cases hLoaded : c.loaded e.event.agent with
    | none => simp [hLoaded] at hAllowed
    | some v =>
        refine ⟨v, rfl, ?_⟩
        simpa [hLoaded] using hAllowed
  · rintro hStwcx a - ⟨va, n, hRange, -⟩
    simp [hStwcx, hRange] at hAllowed

/-
  Run a schedule of actions and changes in which only the
  stwcx. on the word write memory.
-/
def exec
    (word : Ps3Uintptr)
    (c : State) :
    List (AgentId × Agents.Action × (Word 4 → Word 4)) →
      Option (List Event × State)
  | [] => some ([], c)
  | (g, action, modify) :: rest =>
      (Agents.step c.sys g action).bind (fun (t, output) =>
        let e : Event := ⟨⟨g, action, output⟩, modify⟩
        if allowed word c e then
          (exec word ⟨t, loadedAfter word c e⟩ rest).map
            (fun (events, d) => (e :: events, d))
        else none)

theorem run_of_exec
    {c d : State}
    {schedule :
      List (AgentId × Agents.Action × (Word 4 → Word 4))}
    {events : List Event}
    (hExec : exec word c schedule = some (events, d)) :
    Transition.Run (Step word) c events d := by
  induction schedule generalizing c events with
  | nil =>
      obtain ⟨rfl, rfl⟩ :=
        Prod.mk.inj (Option.some.inj hExec)
      exact .nil
  | cons head rest ih =>
      rcases head with ⟨g, action, modify⟩
      rcases Option.bind_eq_some_iff.mp hExec with
        ⟨⟨t, output⟩, hSys, hRest⟩
      simp only at hRest
      split at hRest
      case isFalse => cases hRest
      case isTrue hAllowed =>
        rcases Option.map_eq_some_iff.mp hRest with
          ⟨⟨more, finish⟩, hMore, hEq⟩
        obtain ⟨rfl, rfl⟩ := Prod.mk.inj hEq
        exact .cons (step_of_allowed hSys hAllowed) (ih hMore)

/-
  Two agents add one to the word.  The first loses the race
  and has to load again.
-/
def race : List (AgentId × Agents.Action ×
    (Word 4 → Word 4)) :=
  let load : Agents.Action :=
    .loadReserve ⟨.four, 0#32, none, 0, 0⟩
  let store (v : Word 4) : Agents.Action :=
    .writeCond .four false 0#32 (Bytes.bigEndian v)
  [(1, .create, id), (2, .create, id), (1, load, id),
    (2, load, id), (1, .reserve, id), (2, .reserve, id),
    (2, store 1, (· + 1)), (2, .mark, id),
    (1, store 1, (· + 1)), (1, load, id), (1, .reserve, id),
    (1, store 2, (· + 1))]

theorem writeCond_sound_race :
    ∃ events d,
      Transition.Run (Step 0#32) ⟨Agents.blank, fun _ => none⟩
          events d ∧
        (applied 0#32 events).length = 2 ∧
        d.sys.mm.load .four 0#32 =
          some
            ((applied 0#32 events).foldl
              (fun w f => f w) 0) := by
  have hExec :
      (exec 0#32 ⟨Agents.blank, fun _ => none⟩ race).map
        (fun r => (applied 0#32 r.1).length) = some 2 := by
    decide
  rcases Option.map_eq_some_iff.mp hExec with
    ⟨⟨events, d⟩, hRun, hLength⟩
  have hReach := run_of_exec hRun
  refine ⟨events, d, hReach, hLength, ?_⟩
  exact
    writeCond_sound.2 0#32 0 _ _ _
      ⟨Agents.initial_blank, fun _ => rfl⟩ (by decide) hReach

end Loop

end Ps3emu
