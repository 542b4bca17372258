import Ps3emu.Shaders.IfStubs

/-
  Which fragment programs `RewriteIfStubs` structures.

  Key definitions include:
    * `FirstIf`
    * `withoutBlocks`

  Key theorems include:
    * `FirstIf.fixable_iff`
    * `FirstIf.structured`
    * `structured_of_fixable`
    * `fixable_of_fixIfStubs`
    * `rewriteIfStubs_iff`
-/

------------------------------------------------------------
-- The First IF of a List
------------------------------------------------------------

namespace Ps3emu

namespace Shaders

namespace IfStubs

theorem ProperlyNested.sublist
    {sts part : List Statement}
    (hNested : ProperlyNested sts)
    (hPart : part.Sublist sts) :
    ProperlyNested part where
  flat st hst := hNested.flat st (hPart.subset hst)
  ordered := hNested.ordered.sublist hPart
  alone := hNested.alone.sublist hPart
  labels s hs := hNested.labels s (hPart.subset hs)
  nested := hNested.nested.sublist hPart

/-
  The first IF, with the statements before it, its regions
  and the statements after them.
-/
structure FirstIf
    (sts before : List Statement)
    (address : Nat) (condition : Expression) (e n : Nat)
    (T F after : List Statement) :
    Prop where
  eq :
    sts =
      stubList before address condition e n [] []
        (T ++ F ++ after)
  plain : ∀ s ∈ before, ifLabels? s = none
  before_le : ∀ s ∈ before, slot s ≤ address / 16
  lt_else : address / 16 < e
  le_endif : e ≤ n
  lt_rest : ∀ s ∈ T ++ F ++ after, address / 16 < slot s
  true_lt : ∀ s ∈ T, slot s < e
  le_false : ∀ s ∈ F, e ≤ slot s
  false_lt : ∀ s ∈ F, slot s < n
  le_after : ∀ s ∈ after, n ≤ slot s
  trueNested :
    ∀ s ∈ T, ∀ labels ∈ ifLabels? s, labels.2 ≤ e
  falseNested :
    ∀ s ∈ F, ∀ labels ∈ ifLabels? s, labels.2 ≤ n

theorem exists_first_stub (sts : List Statement) :
    (∀ s ∈ sts, ifLabels? s = none) ∨
      ∃ before address condition e n t f rest,
        sts = stubList before address condition e n t f rest ∧
          ∀ s ∈ before, ifLabels? s = none := by
  induction sts with
  | nil => exact .inl (by simp)
  | cons st rest ih =>
      cases hSt : ifLabels? st with
      | some labels =>
          cases st with
          | ifStub address condition e n t f =>
              exact
                .inr ⟨[], address, condition, e, n, t, f, rest,
                  rfl, by simp⟩
          | _ => cases hSt
      | none =>
          rcases ih with
            hNone | ⟨before, a, c, e, n, t, f, rest, rfl, hB⟩
          · exact .inl (by simpa using ⟨hSt, hNone⟩)
          · exact
              .inr ⟨st :: before, a, c, e, n, t, f, rest, rfl,
                by simpa using ⟨hSt, hB⟩⟩

theorem ProperlyNested.first
    {sts : List Statement}
    (hNested : ProperlyNested sts) :
    (∀ s ∈ sts, ifLabels? s = none) ∨
      ∃ before address condition e n T F after,
        FirstIf sts before address condition e n
          T F after := by
  rcases exists_first_stub sts with
    hNone | ⟨before, a, c, e, n, t, f, rest, rfl, hPlain⟩
  · exact .inl hNone
  · have hMem :
        Statement.ifStub a c e n t f ∈
          stubList before a c e n t f rest := by
      simp [stubList]
    obtain ⟨rfl, rfl⟩ := hNested.flat _ hMem
    have hLabels := hNested.labels _ hMem (e, n) rfl
    obtain ⟨-, hOrdered, hBefore⟩ :=
      List.pairwise_append.mp hNested.ordered
    obtain ⟨-, hAlone, -⟩ :=
      List.pairwise_append.mp hNested.alone
    obtain ⟨-, hInner, -⟩ :=
      List.pairwise_append.mp hNested.nested
    have hRest := (List.pairwise_cons.mp hOrdered).2
    obtain ⟨T, tail, rfl, hT, hTail⟩ := exists_split hRest e
    obtain ⟨-, hTailOrdered, -⟩ := List.pairwise_append.mp hRest
    obtain ⟨F, after, rfl, hF, hAfter⟩ :=
      exists_split hTailOrdered n
    have hIf := (List.pairwise_cons.mp hInner).1
    refine
      .inr ⟨before, a, c, e, n, T, F, after,
        { eq := by rw [List.append_assoc]
          plain := hPlain
          before_le := fun s hs =>
            hBefore s hs _ List.mem_cons_self
          lt_else := hLabels.1
          le_endif := hLabels.2
          lt_rest := fun s hs =>
            (List.pairwise_cons.mp hAlone).1 s
              (by simpa using hs) rfl
          true_lt := hT
          le_false := fun s hs => hTail s (by simp [hs])
          false_lt := hF
          le_after := hAfter
          trueNested := fun s hs labels hL =>
            (hIf s (by simp [hs]) (e, n) rfl labels hL).1
              (hT s hs)
          falseNested := fun s hs labels hL =>
            (hIf s (by simp [hs]) (e, n) rfl labels hL).2
              (hF s hs) }⟩

theorem isUnresolved_of_not_if
    {st : Statement}
    (hSt : ifLabels? st = none) :
    isUnresolved st = false := by
  cases st with
  | ifStub => cases hSt
  | _ => rfl

section

variable {sts before T F after : List Statement} {address e n : Nat}
variable {condition : Expression}

namespace FirstIf

variable (h : FirstIf sts before address condition e n T F after)

include h

/- Statements that are done may stand before the list. -/
theorem atStub
    (hNested : ProperlyNested sts)
    {done : List Statement}
    (hResolved : ∀ s ∈ done, isUnresolved s = false)
    (hDone : ∀ s ∈ done, ∀ t ∈ sts, slot s ≤ slot t) :
    AtStub (done ++ before) (address / 16) e n T F after where
  resolved s hs := by
    rcases List.mem_append.mp hs with hOld | hNew
    · exact hResolved s hOld
    · exact isUnresolved_of_not_if (h.plain s hNew)
  before_le s hs := by
    rcases List.mem_append.mp hs with hOld | hNew
    · refine hDone s hOld
        (.ifStub address condition e n [] []) ?_
      rw [h.eq]
      simp [stubList]
    · exact h.before_le s hNew
  lt_else := h.lt_else
  le_endif := h.le_endif
  true_lt := h.true_lt
  le_false := h.le_false
  false_lt := h.false_lt
  le_after := h.le_after
  ordered := by
    have hOrdered := hNested.ordered
    rw [h.eq, stubList, List.append_assoc] at hOrdered
    have hTail := (List.pairwise_append.mp hOrdered).2.1
    have hRest := (List.pairwise_cons.mp hTail).2
    exact (List.pairwise_append.mp hRest).2.1

theorem true_sublist :
    T.Sublist sts := by
  rw [h.eq, stubList, List.append_assoc]
  exact (List.sublist_append_left T _).trans
    ((List.sublist_cons_self _ _).trans
      (List.sublist_append_right before _))

theorem false_sublist :
    F.Sublist sts := by
  rw [h.eq, stubList, List.append_assoc]
  exact (List.sublist_append_left F after).trans
    ((List.sublist_append_right T _).trans
      ((List.sublist_cons_self _ _).trans
        (List.sublist_append_right before _)))

theorem after_sublist :
    after.Sublist sts := by
  rw [h.eq, stubList]
  exact (List.sublist_append_right _ after).trans
    ((List.sublist_cons_self _ _).trans
      (List.sublist_append_right before _))

theorem mem_iff
    {st : Statement} :
    st ∈ sts ↔
      st ∈ before ∨
        st = .ifStub address condition e n [] [] ∨
          st ∈ T ∨ st ∈ F ∨ st ∈ after := by
  rw [h.eq]
  simp [stubList]

end FirstIf

end

end IfStubs

------------------------------------------------------------
-- Regions of Parts
------------------------------------------------------------

namespace IfStubs

/- Regions that are over, or not begun, do not matter. -/
theorem inside_of_ended
    {sts : List Statement} {st : Statement} {label : Nat}
    (hEnded : ∀ outer ∈ sts, ∀ labels ∈ ifLabels? outer,
      labels.1 ≤ slot st ∧ labels.2 ≤ slot st) :
    Inside sts st label := by
  intro outer hOuter labels hLabels _
  have := hEnded outer hOuter labels hLabels
  constructor <;> intro <;> omega

theorem inside_of_le
    {sts : List Statement} {st : Statement} {label : Nat}
    (hLe : ∀ outer ∈ sts, slot st ≤ slot outer) :
    Inside sts st label := by
  intro outer hOuter labels _ hLt
  have := hLe outer hOuter
  omega

/-
  The question whether an IF can be structured is one about
  the region that it is in, which ends where `bound` does.
-/
theorem fixableAt_congr
    {sts part : List Statement} {st : Statement}
    {labels : Nat × Nat}
    (bound : Nat → Prop)
    (hSubset : ∀ t ∈ part, t ∈ sts)
    (hInside : ∀ label,
      Inside sts st label ↔ bound label ∧ Inside part st label)
    (hPart : ∀ t ∈ sts, slot st < slot t → bound (slot t) →
      t ∈ part)
    (hBound : ∀ t ∈ part, bound (slot t))
    (hBelow : ∀ label, label < labels.2 → bound label)
    (hLt : slot st < labels.1)
    (hLe : labels.1 ≤ labels.2) :
    FixableAt sts st labels ↔ FixableAt part st labels := by
  constructor
  · rintro ⟨⟨t, ht, hAfter, hBefore⟩, ⟨⟨u, hu, hElse⟩, hIn⟩,
      hEnd⟩
    have hIn' := (hInside _).mp hIn
    refine ⟨⟨t, ?_, hAfter, hBefore⟩, ⟨⟨u, ?_, hElse⟩, hIn'.2⟩,
      ?_⟩
    · exact hPart t ht hAfter (hBelow _ (by omega))
    · exact hPart u hu (by omega) (hElse ▸ hIn'.1)
    · rcases hEnd with ⟨⟨v, hv, hEndif⟩, hIn⟩ | hLast
      · have hIn' := (hInside _).mp hIn
        exact
          .inl ⟨⟨v, hPart v hv (by omega) (hEndif ▸ hIn'.1),
            hEndif⟩, hIn'.2⟩
      · exact .inr fun v hv hIn => hLast v (hSubset v hv)
          ((hInside _).mpr ⟨hBound v hv, hIn⟩)
  · rintro ⟨⟨t, ht, hAfter, hBefore⟩, ⟨⟨u, hu, hElse⟩, hIn⟩,
      hEnd⟩
    refine ⟨⟨t, hSubset t ht, hAfter, hBefore⟩,
      ⟨⟨u, hSubset u hu, hElse⟩, ?_⟩, ?_⟩
    · exact (hInside _).mpr ⟨hElse ▸ hBound u hu, hIn⟩
    · rcases hEnd with ⟨⟨v, hv, hEndif⟩, hIn⟩ | hLast
      · exact
          .inl ⟨⟨v, hSubset v hv, hEndif⟩,
            (hInside _).mpr ⟨hEndif ▸ hBound v hv, hIn⟩⟩
      · refine .inr fun v hv hIn => ?_
        obtain ⟨hB, hIn'⟩ := (hInside _).mp hIn
        rcases Nat.lt_or_ge (slot st) (slot v) with hLater | _
        · exact hLast v (hPart v hv hLater hB) hIn'
        · omega

section

variable {sts before T F after : List Statement} {address e n : Nat}
variable {condition : Expression}

namespace FirstIf

variable (h : FirstIf sts before address condition e n T F after)

include h

theorem inside_iff
    (st : Statement) (label : Nat) :
    Inside sts st label ↔
      (address / 16 < slot st →
        (slot st < e → label < e) ∧
          (slot st < n → label < n)) ∧
      Inside T st label ∧ Inside F st label ∧
        Inside after st label := by
  constructor
  · intro hIn
    refine ⟨?_, ?_, ?_, ?_⟩
    · exact hIn _ (h.mem_iff.mpr (.inr (.inl rfl))) (e, n) rfl
    · exact fun outer hOuter => hIn outer (by simp [h.mem_iff, *])
    · exact fun outer hOuter => hIn outer (by simp [h.mem_iff, *])
    · exact fun outer hOuter => hIn outer (by simp [h.mem_iff, *])
  · rintro ⟨hStub, hT, hF, hAfter⟩ outer hOuter labels hLabels
    rcases h.mem_iff.mp hOuter with hB | rfl | hO | hO | hO
    · simp [h.plain outer hB] at hLabels
    · cases hLabels
      exact hStub
    · exact hT outer hO labels hLabels
    · exact hF outer hO labels hLabels
    · exact hAfter outer hO labels hLabels

theorem fixableAt_true
    (hNested : ProperlyNested sts)
    {st : Statement} (hSt : st ∈ T)
    {labels : Nat × Nat} (hLabels : labels ∈ ifLabels? st) :
    FixableAt sts st labels ↔ FixableAt T st labels := by
  have hLt := h.true_lt st hSt
  have hAfter := h.lt_rest st (by simp [hSt])
  have hEnd := h.trueNested st hSt labels hLabels
  have hOwn := hNested.labels st
    (h.true_sublist.subset hSt) labels hLabels
  refine fixableAt_congr (fun label => label < e)
    (fun t ht => h.true_sublist.subset ht) ?_ ?_ h.true_lt
    (fun label hLabel => by omega) hOwn.1 hOwn.2
  · intro label
    rw [h.inside_iff]
    have hF : Inside F st label :=
      inside_of_le fun outer hO => by
        have := h.le_false outer hO
        omega
    have hA : Inside after st label :=
      inside_of_le fun outer hO => by
        have := h.le_after outer hO
        have := h.le_endif
        omega
    have hLe := h.le_endif
    constructor
    · rintro ⟨hStub, hT, -, -⟩
      exact ⟨(hStub hAfter).1 hLt, hT⟩
    · rintro ⟨hBound, hT⟩
      exact ⟨fun _ => ⟨fun _ => hBound, fun _ => by omega⟩,
        hT, hF, hA⟩
  · intro t ht hLater hBound
    rcases h.mem_iff.mp ht with hB | rfl | hO | hO | hO
    · have := h.before_le t hB
      omega
    · exact absurd hLater (Nat.not_lt.mpr (Nat.le_of_lt hAfter))
    · exact hO
    · have := h.le_false t hO
      omega
    · have := h.le_after t hO
      have := h.le_endif
      omega

theorem fixableAt_false
    (hNested : ProperlyNested sts)
    {st : Statement} (hSt : st ∈ F)
    {labels : Nat × Nat} (hLabels : labels ∈ ifLabels? st) :
    FixableAt sts st labels ↔ FixableAt F st labels := by
  have hLt := h.false_lt st hSt
  have hGe := h.le_false st hSt
  have hAfter := h.lt_rest st (by simp [hSt])
  have hEnd := h.falseNested st hSt labels hLabels
  have hOwn := hNested.labels st
    (h.false_sublist.subset hSt) labels hLabels
  refine fixableAt_congr (fun label => label < n)
    (fun t ht => h.false_sublist.subset ht) ?_ ?_ h.false_lt
    (fun label hLabel => by omega) hOwn.1 hOwn.2
  · intro label
    rw [h.inside_iff]
    have hT : Inside T st label :=
      inside_of_ended fun outer hO inner hInner => by
        have := h.trueNested outer hO inner hInner
        have := (hNested.labels outer
          (h.true_sublist.subset hO) inner hInner).2
        omega
    have hA : Inside after st label :=
      inside_of_le fun outer hO => by
        have := h.le_after outer hO
        omega
    constructor
    · rintro ⟨hStub, -, hF, -⟩
      exact ⟨(hStub hAfter).2 hLt, hF⟩
    · rintro ⟨hBound, hF⟩
      exact ⟨fun _ => ⟨fun hT => by omega, fun _ => hBound⟩,
        hT, hF, hA⟩
  · intro t ht hLater hBound
    rcases h.mem_iff.mp ht with hB | rfl | hO | hO | hO
    · have := h.before_le t hB
      omega
    · exact absurd hLater (Nat.not_lt.mpr (Nat.le_of_lt hAfter))
    · have := h.true_lt t hO
      omega
    · exact hO
    · have := h.le_after t hO
      omega

theorem fixableAt_after
    (hNested : ProperlyNested sts)
    {st : Statement} (hSt : st ∈ after)
    {labels : Nat × Nat} (hLabels : labels ∈ ifLabels? st) :
    FixableAt sts st labels ↔ FixableAt after st labels := by
  have hGe := h.le_after st hSt
  have hLe := h.le_endif
  have hAfter := h.lt_rest st (by simp [hSt])
  have hOwn := hNested.labels st
    (h.after_sublist.subset hSt) labels hLabels
  refine fixableAt_congr (fun _ => True)
    (fun t ht => h.after_sublist.subset ht) ?_ ?_
    (fun _ _ => trivial) (fun _ _ => trivial) hOwn.1 hOwn.2
  · intro label
    rw [h.inside_iff]
    have hT : Inside T st label :=
      inside_of_ended fun outer hO inner hInner => by
        have := h.trueNested outer hO inner hInner
        have := (hNested.labels outer
          (h.true_sublist.subset hO) inner hInner).2
        omega
    have hF : Inside F st label :=
      inside_of_ended fun outer hO inner hInner => by
        have := h.falseNested outer hO inner hInner
        have := (hNested.labels outer
          (h.false_sublist.subset hO) inner hInner).2
        omega
    constructor
    · rintro ⟨-, -, -, hA⟩
      exact ⟨trivial, hA⟩
    · rintro ⟨-, hA⟩
      exact ⟨fun _ => ⟨fun _ => by omega, fun _ => by omega⟩,
        hT, hF, hA⟩
  · intro t ht hLater _
    rcases h.mem_iff.mp ht with hB | rfl | hO | hO | hO
    · have := h.before_le t hB
      omega
    · exact absurd hLater (Nat.not_lt.mpr (Nat.le_of_lt hAfter))
    · have := h.true_lt t hO
      omega
    · have := h.false_lt t hO
      omega
    · exact hO

/- The regions around the first IF begin after it. -/
theorem inside_stub
    (label : Nat) :
    Inside sts (.ifStub address condition e n [] []) label := by
  rw [h.inside_iff]
  have hLe :
      ∀ s ∈ T ++ F ++ after, address / 16 ≤ slot s :=
    fun s hs => Nat.le_of_lt (h.lt_rest s hs)
  refine ⟨fun hLt => absurd hLt (Nat.lt_irrefl _), ?_, ?_, ?_⟩
  · exact inside_of_le fun s hs => hLe s (by simp [hs])
  · exact inside_of_le fun s hs => hLe s (by simp [hs])
  · exact inside_of_le fun s hs => hLe s (by simp [hs])

/- The statements up to the branch of the first IF. -/
theorem stub_lt_else :
    ∀ s ∈ stubList before address condition e n [] [] T,
      slot s < e := by
  have hLt := h.lt_else
  intro s hs
  rcases List.mem_append.mp hs with hOld | hNew
  · have := h.before_le s hOld
    omega
  · rcases List.mem_cons.mp hNew with rfl | hT
    · exact hLt
    · exact h.true_lt s hT

/- A statement begins where the false branch does. -/
theorem exists_else_iff
    (hNested : ProperlyNested sts) :
    (∃ t ∈ sts, slot t = e) ↔
      headSlot (F ++ after) = some e := by
  have hAt : AtStub ([] ++ before) (address / 16) e n
      T F after :=
    h.atStub hNested (by simp) (by simp)
  have hLe := h.le_endif
  have hList :
      sts =
        stubList before address condition e n [] [] T ++
          (F ++ after) := by
    rw [h.eq]
    simp [stubList]
  rw [hList]
  refine exists_slot_iff h.stub_lt_else hAt.ordered ?_
  intro s hs
  rcases List.mem_append.mp hs with hF | hA
  · exact h.le_false s hF
  · exact Nat.le_trans hLe (h.le_after s hA)

theorem exists_endif_iff
    (hNested : ProperlyNested sts) :
    (∃ t ∈ sts, slot t = n) ↔ headSlot after = some n := by
  have hAt : AtStub ([] ++ before) (address / 16) e n
      T F after :=
    h.atStub hNested (by simp) (by simp)
  have hLe := h.le_endif
  have hList :
      sts =
        (stubList before address condition e n [] [] T ++
          F) ++ after := by
    rw [h.eq]
    simp [stubList]
  rw [hList]
  refine exists_slot_iff ?_
    (List.pairwise_append.mp hAt.ordered).2.1 h.le_after
  intro s hs
  rcases List.mem_append.mp hs with hOld | hF
  · exact Nat.lt_of_lt_of_le (h.stub_lt_else s hOld) hLe
  · exact h.false_lt s hF

/- A statement of the true branch, if it has any. -/
theorem exists_true_iff :
    (∃ t ∈ sts, address / 16 < slot t ∧ slot t < e) ↔
      T ≠ [] := by
  have hLt := h.lt_else
  have hLe := h.le_endif
  constructor
  · rintro ⟨t, ht, hAfter, hBefore⟩ rfl
    rcases h.mem_iff.mp ht with hO | rfl | hO | hO | hO
    · have := h.before_le t hO
      omega
    · exact absurd hAfter (Nat.lt_irrefl _)
    · cases hO
    · have := h.le_false t hO
      omega
    · have := h.le_after t hO
      omega
  · intro hT
    obtain ⟨t, ht⟩ := List.exists_mem_of_ne_nil T hT
    exact
      ⟨t, h.true_sublist.subset ht,
        h.lt_rest t (by simp [ht]), h.true_lt t ht⟩

theorem all_lt_endif_iff :
    (∀ t ∈ sts, slot t < n) ↔ after = [] := by
  have hLt := h.lt_else
  have hLe := h.le_endif
  constructor
  · intro hLess
    refine List.eq_nil_iff_forall_not_mem.mpr fun t ht => ?_
    have := hLess t (h.after_sublist.subset ht)
    have := h.le_after t ht
    omega
  · rintro rfl t ht
    rcases h.mem_iff.mp ht with hO | rfl | hO | hO | hO
    · have := h.before_le t hO
      omega
    · exact Nat.lt_of_lt_of_le hLt hLe
    · have := h.true_lt t hO
      omega
    · exact h.false_lt t hO
    · cases hO

theorem fixableAt_stub
    (hNested : ProperlyNested sts) :
    FixableAt sts (.ifStub address condition e n [] [])
        (e, n) ↔
      T ≠ [] ∧ Found e n F after := by
  have hElse := h.exists_else_iff hNested
  have hEndif := h.exists_endif_iff hNested
  constructor
  · rintro ⟨hT, ⟨hE, -⟩, hN⟩
    refine ⟨h.exists_true_iff.mp hT, hElse.mp hE, ?_⟩
    rcases hN with ⟨hN, -⟩ | hN
    · exact .inr (hEndif.mp hN)
    · exact
        .inl (h.all_lt_endif_iff.mp
          fun t ht => hN t ht (h.inside_stub _))
  · rintro ⟨hT, hE, hN⟩
    refine
      ⟨h.exists_true_iff.mpr hT,
        ⟨hElse.mpr hE, h.inside_stub _⟩, ?_⟩
    rcases hN with hN | hN
    · exact .inr fun t ht _ => h.all_lt_endif_iff.mpr hN t ht
    · exact .inl ⟨hEndif.mpr hN, h.inside_stub _⟩

/- A list can be structured if its first IF and its parts can. -/
theorem fixable_iff
    (hNested : ProperlyNested sts) :
    Fixable sts ↔
      (T ≠ [] ∧ Found e n F after) ∧
        Fixable T ∧ Fixable F ∧ Fixable after := by
  constructor
  · intro hFixable
    refine ⟨(h.fixableAt_stub hNested).mp ?_, ?_, ?_, ?_⟩
    · exact hFixable _ (h.mem_iff.mpr (.inr (.inl rfl))) _ rfl
    · intro s hs labels hL
      exact (h.fixableAt_true hNested hs hL).mp
        (hFixable s (h.true_sublist.subset hs) labels hL)
    · intro s hs labels hL
      exact (h.fixableAt_false hNested hs hL).mp
        (hFixable s (h.false_sublist.subset hs) labels hL)
    · intro s hs labels hL
      exact (h.fixableAt_after hNested hs hL).mp
        (hFixable s (h.after_sublist.subset hs) labels hL)
  · rintro ⟨hStub, hT, hF, hA⟩ s hs labels hL
    rcases h.mem_iff.mp hs with hO | rfl | hO | hO | hO
    · simp [h.plain s hO] at hL
    · cases hL
      exact (h.fixableAt_stub hNested).mpr hStub
    · exact (h.fixableAt_true hNested hO hL).mpr
        (hT s hO labels hL)
    · exact (h.fixableAt_false hNested hO hL).mpr
        (hF s hO labels hL)
    · exact (h.fixableAt_after hNested hO hL).mpr
        (hA s hO labels hL)

end FirstIf

end

end IfStubs

------------------------------------------------------------
-- Blocks of the Result
------------------------------------------------------------

namespace IfStubs

theorem flattenAll_append (first second : List Statement) :
    flattenAll (first ++ second) =
      flattenAll first ++ flattenAll second := by
  induction first with
  | nil => rfl
  | cons st first ih => simp [flattenAll, ih]

theorem allIfs_append (first second : List Statement) :
    allIfs (first ++ second) =
      allIfs first ++ allIfs second := by
  induction first with
  | nil => rfl
  | cons st first ih => simp [allIfs, ih]

theorem flatten_of_not_if
    {st : Statement}
    (hSt : ifLabels? st = none) :
    flatten st = [st] ∧ ifs st = [] := by
  cases st with
  | ifStub => cases hSt
  | _ => exact ⟨rfl, rfl⟩

theorem flattenAll_of_not_if
    {sts : List Statement}
    (hSts : ∀ s ∈ sts, ifLabels? s = none) :
    flattenAll sts = sts ∧ allIfs sts = [] := by
  induction sts with
  | nil => exact ⟨rfl, rfl⟩
  | cons st rest ih =>
      rw [List.forall_mem_cons] at hSts
      obtain ⟨hSt, hRest⟩ := hSts
      obtain ⟨hFlat, hIfs⟩ := flatten_of_not_if hSt
      obtain ⟨hFlat', hIfs'⟩ := ih hRest
      simp [flattenAll, allIfs, hFlat, hIfs, hFlat', hIfs']

/- An IF without its blocks. -/
def withoutBlocks : Statement → Statement
  | .ifStub address condition elseLabel endifLabel _ _ =>
      .ifStub address condition elseLabel endifLabel [] []
  | st => st

mutual

theorem withoutBlocks_mem_flatten
    (st : Statement) :
    ∀ s ∈ ifs st, withoutBlocks s ∈ flatten st := by
  cases st with
  | ifStub address condition e n t f =>
      intro s hs
      rw [ifs, List.mem_cons, List.mem_append] at hs
      rw [flatten, List.mem_cons, List.mem_append]
      rcases hs with rfl | hs | hs
      · exact .inl rfl
      · exact .inr (.inl (withoutBlocks_mem_flattenAll t s hs))
      · exact .inr (.inr (withoutBlocks_mem_flattenAll f s hs))
  | _ => simp [ifs]

/- An IF of the result is one of the statements. -/
theorem withoutBlocks_mem_flattenAll
    (sts : List Statement) :
    ∀ s ∈ allIfs sts, withoutBlocks s ∈ flattenAll sts := by
  cases sts with
  | nil => simp [allIfs]
  | cons st rest =>
      intro s hs
      rw [allIfs, List.mem_append] at hs
      rw [flattenAll, List.mem_append]
      rcases hs with hs | hs
      · exact .inl (withoutBlocks_mem_flatten st s hs)
      · exact .inr (withoutBlocks_mem_flattenAll rest s hs)

end

theorem filter_middle
    {first part last : List Statement}
    {p : Statement → Bool}
    (hFirst : ∀ s ∈ first, p s = false)
    (hLast : ∀ s ∈ last, p s = false) :
    (first ++ part ++ last).filter p = part.filter p := by
  have hF : first.filter p = [] :=
    List.filter_eq_nil_iff.mpr (by simpa using hFirst)
  have hL : last.filter p = [] :=
    List.filter_eq_nil_iff.mpr (by simpa using hLast)
  rw [List.filter_append, List.filter_append, hF, hL,
    List.nil_append, List.append_nil]

/-
  What comes before an IF or after its end is in none of its
  regions.
-/
theorem HasRegions.widen
    {first part last : List Statement} {st : Statement}
    (hRegions : HasRegions part st)
    (hFirst : ∀ s ∈ first, slot s ≤ slot st)
    (hLast : ∀ labels ∈ ifLabels? st, ∀ s ∈ last,
      labels.2 ≤ slot s)
    (hLabels : ∀ labels ∈ ifLabels? st,
      slot st < labels.1 ∧ labels.1 ≤ labels.2) :
    HasRegions (first ++ part ++ last) st := by
  cases st with
  | ifStub address condition e n t f =>
      obtain ⟨hTrue, hFalse⟩ := hRegions
      obtain ⟨hLt, hLe⟩ := hLabels (e, n) rfl
      have hLast' := hLast (e, n) rfl
      have hFirst' : ∀ s ∈ first, slot s ≤ address / 16 := hFirst
      change address / 16 < e at hLt
      change e ≤ n at hLe
      constructor
      · rw [hTrue, between, between, filter_middle]
        · intro s hs
          have := hFirst' s hs
          simp
          omega
        · intro s hs
          have hAfter : n ≤ slot s := hLast' s hs
          simp
          omega
      · rw [hFalse, within, within, filter_middle]
        · intro s hs
          have := hFirst' s hs
          simp
          omega
        · intro s hs
          have hAfter : n ≤ slot s := hLast' s hs
          simp
          omega
  | _ => trivial

theorem slot_withoutBlocks (st : Statement) :
    slot (withoutBlocks st) = slot st := by
  cases st <;> rfl

theorem ifLabels?_withoutBlocks (st : Statement) :
    ifLabels? (withoutBlocks st) = ifLabels? st := by
  cases st <;> rfl

/- What the IFs of a part need to keep their regions. -/
theorem Structured.widen
    {first part last result : List Statement}
    (hStructured : Structured part result)
    (hNested : ProperlyNested part)
    (hFirst : ∀ s ∈ first, ∀ t ∈ part, slot s ≤ slot t)
    (hLast : ∀ t ∈ part, ∀ labels ∈ ifLabels? t,
      ∀ s ∈ last, labels.2 ≤ slot s) :
    ∀ st ∈ allIfs result,
      HasRegions (first ++ part ++ last) st := by
  intro st hSt
  have hMem := withoutBlocks_mem_flattenAll result st hSt
  rw [hStructured.flat] at hMem
  refine (hStructured.regions st hSt).widen ?_ ?_ ?_
  · intro s hs
    have hLe := hFirst s hs _ hMem
    rwa [slot_withoutBlocks] at hLe
  · intro labels hLabels
    rw [← ifLabels?_withoutBlocks] at hLabels
    exact hLast _ hMem labels hLabels
  · intro labels hLabels
    rw [← ifLabels?_withoutBlocks] at hLabels
    have hOwn := hNested.labels _ hMem labels hLabels
    rwa [slot_withoutBlocks] at hOwn

section

variable {sts before T F after : List Statement} {address e n : Nat}
variable {condition : Expression}

namespace FirstIf

/- The statements up to the first IF. -/
abbrev upTo
    (before : List Statement)
    (address : Nat) (condition : Expression) (e n : Nat) :
    List Statement :=
  before ++ [.ifStub address condition e n [] []]

variable (h : FirstIf sts before address condition e n T F after)

include h

theorem upTo_le :
    ∀ s ∈ upTo before address condition e n,
      slot s ≤ address / 16 := by
  intro s hs
  rcases List.mem_append.mp hs with hO | hO
  · exact h.before_le s hO
  · rw [List.mem_singleton.mp hO]
    exact Nat.le_refl _

theorem eq_true :
    sts =
      upTo before address condition e n ++ T ++
        (F ++ after) := by
  rw [h.eq]
  simp [stubList]

theorem eq_false :
    sts =
      (upTo before address condition e n ++ T) ++ F ++
        after := by
  rw [h.eq]
  simp [stubList]

theorem eq_after :
    sts =
      (upTo before address condition e n ++ T ++ F) ++
        after ++ [] := by
  rw [h.eq]
  simp [stubList]

theorem upTo_true_lt :
    ∀ s ∈ upTo before address condition e n ++ T,
      slot s < e := by
  intro s hs
  have hLt := h.lt_else
  rcases List.mem_append.mp hs with hO | hO
  · have := h.upTo_le s hO
    omega
  · exact h.true_lt s hO

/- The first IF itself has its regions as blocks. -/
theorem hasRegions
    {trueBlock falseBlock : List Statement}
    (hT : flattenAll trueBlock = T)
    (hF : flattenAll falseBlock = F) :
    HasRegions sts
      (.ifStub address condition e n trueBlock falseBlock) := by
  have hLe := h.le_endif
  constructor
  · rw [hT, h.eq_true, between, filter_middle,
      List.filter_eq_self.mpr]
    · intro s hs
      have := h.lt_rest s (by simp [hs])
      have := h.true_lt s hs
      simp
      omega
    · intro s hs
      have := h.upTo_le s hs
      simp
      omega
    · intro s hs
      have hGe : e ≤ slot s := by
        rcases List.mem_append.mp hs with hO | hO
        · exact h.le_false s hO
        · exact Nat.le_trans hLe (h.le_after s hO)
      simp
      omega
  · rw [hF, h.eq_false, within, filter_middle,
      List.filter_eq_self.mpr]
    · intro s hs
      have := h.le_false s hs
      have := h.false_lt s hs
      simp
      omega
    · intro s hs
      have := h.upTo_true_lt s hs
      simp
      omega
    · intro s hs
      have := h.le_after s hs
      simp
      omega

/-
  The parts structured, the list is, with the regions of its
  first IF as blocks.
-/
theorem structured
    (hNested : ProperlyNested sts)
    {trueBlock falseBlock rest : List Statement}
    (hT : Structured T trueBlock)
    (hF : Structured F falseBlock)
    (hAfter : Structured after rest) :
    Structured sts
      (stubList before address condition e n
        trueBlock falseBlock rest) := by
  obtain ⟨hFlat, hIfs⟩ := flattenAll_of_not_if h.plain
  have hLe := h.le_endif
  constructor
  case flat =>
    rw [h.eq, stubList, stubList, flattenAll_append, hFlat,
      flattenAll, flatten, hT.flat, hF.flat, hAfter.flat]
    simp
  case regions =>
    intro st hSt
    rw [stubList, allIfs_append, hIfs, List.nil_append, allIfs,
      ifs, List.cons_append, List.mem_cons, List.mem_append,
      List.mem_append] at hSt
    rcases hSt with rfl | (hSt | hSt) | hSt
    · exact h.hasRegions hT.flat hF.flat
    · rw [h.eq_true]
      refine hT.widen (hNested.sublist h.true_sublist)
        ?_ ?_ st hSt
      · intro s hs t ht
        have := h.upTo_le s hs
        have := h.lt_rest t (by simp [ht])
        omega
      · intro t ht labels hLabels s hs
        refine Nat.le_trans (h.trueNested t ht labels hLabels) ?_
        rcases List.mem_append.mp hs with hO | hO
        · exact h.le_false s hO
        · exact Nat.le_trans hLe (h.le_after s hO)
    · rw [h.eq_false]
      refine hF.widen (hNested.sublist h.false_sublist)
        ?_ ?_ st hSt
      · intro s hs t ht
        have := h.upTo_true_lt s hs
        have := h.le_false t ht
        omega
      · intro t ht labels hLabels s hs
        exact Nat.le_trans (h.falseNested t ht labels hLabels)
          (h.le_after s hs)
    · rw [h.eq_after]
      refine hAfter.widen (hNested.sublist h.after_sublist)
        ?_ (by simp) st hSt
      intro s hs t ht
      have := h.le_after t ht
      rcases List.mem_append.mp hs with hO | hO
      · have := h.upTo_true_lt s hO
        omega
      · have := h.false_lt s hO
        omega

end FirstIf

end

end IfStubs

------------------------------------------------------------
-- When the Rewriting Is Right
------------------------------------------------------------

namespace IfStubs

theorem ne_nil_of_fixFirstIfStub
    {fix : List Statement → Except Failure (List Statement)}
    {sts rest : List Statement}
    (hCall : fixFirstIfStub fix sts = .ok (some rest)) :
    rest ≠ [] := by
  dsimp only [fixFirstIfStub] at hCall
  split at hCall
  case h_2 => cases hCall
  case h_1 =>
    repeat' split at hCall
    all_goals cases hCall
    simp

/- The loops never make a list of statements empty. -/
theorem ne_nil_of_fixIfStubs
    {fuel : Nat} {sts result : List Statement}
    (hFix : fixIfStubs fuel sts = .ok result)
    (hSts : sts ≠ []) :
    result ≠ [] := by
  induction fuel generalizing sts with
  | zero => cases hFix
  | succ fuel ih =>
      rw [fixIfStubs] at hFix
      split at hFix
      case h_1 => cases hFix
      case h_2 =>
        cases hFix
        exact hSts
      case h_3 rest hCall =>
        exact ih hFix (ne_nil_of_fixFirstIfStub hCall)

/- An IF with a true block is done. -/
theorem isUnresolved_of_ne_nil
    {address e n : Nat} {condition : Expression}
    {t f : List Statement}
    (hTrue : t ≠ []) :
    isUnresolved (.ifStub address condition e n t f) =
      false := by
  cases t with
  | nil => exact absurd rfl hTrue
  | cons => rfl

section

variable {sts before T F after : List Statement} {address e n : Nat}
variable {condition : Expression}

/- What is done with the first IF stays before what follows. -/
theorem FirstIf.done
    (h : FirstIf sts before address condition e n T F after)
    {done t f : List Statement}
    (hResolved : ∀ s ∈ done, isUnresolved s = false)
    (hDone : ∀ s ∈ done, ∀ u ∈ sts, slot s ≤ slot u)
    (hTrue : t ≠ []) :
    (∀ s ∈ done ++ before ++ [.ifStub address condition e n t f],
      isUnresolved s = false) ∧
    ∀ s ∈ done ++ before ++ [.ifStub address condition e n t f],
      ∀ u ∈ after, slot s ≤ slot u := by
  constructor
  · intro s hs
    rw [List.append_assoc, List.mem_append, List.mem_append,
      List.mem_singleton] at hs
    rcases hs with hO | hO | rfl
    · exact hResolved s hO
    · exact isUnresolved_of_not_if (h.plain s hO)
    · exact isUnresolved_of_ne_nil hTrue
  · intro s hs u hu
    have hLt := h.lt_rest u (by simp [hu])
    rw [List.append_assoc, List.mem_append, List.mem_append,
      List.mem_singleton] at hs
    rcases hs with hO | hO | rfl
    · exact hDone s hO u (h.after_sublist.subset hu)
    · have := h.before_le s hO
      omega
    · exact Nat.le_of_lt hLt

end

/-
  Where each IF can be structured, the rewriting returns, and
  its result has the regions as blocks.  The induction is on
  the number of statements; those that are done stay before.
-/
theorem structured_of_fixable
    {sts : List Statement}
    (hNested : ProperlyNested sts)
    (hFixable : Fixable sts)
    (done : List Statement)
    (hResolved : ∀ s ∈ done, isUnresolved s = false)
    (hDone : ∀ s ∈ done, ∀ t ∈ sts, slot s ≤ slot t) :
    ∃ result, Rewrites (done ++ sts) (done ++ result) ∧
      Structured sts result := by
  induction hLength : sts.length using Nat.strongRecOn
    generalizing sts done with
  | ind length ih =>
      rcases hNested.first with
        hNone | ⟨before, a, c, e, n, T, F, after, h⟩
      · obtain ⟨hFlat, hIfs⟩ := flattenAll_of_not_if hNone
        refine ⟨sts, ⟨1, ?_⟩, ⟨hFlat, by simp [hIfs]⟩⟩
        rw [fixIfStubs, fixFirstIfStub_resolved]
        intro s hs
        rcases List.mem_append.mp hs with hO | hO
        · exact hResolved s hO
        · exact isUnresolved_of_not_if (hNone s hO)
      · obtain ⟨⟨hTrue, hFound⟩, hT, hF, hAfter⟩ :=
          (h.fixable_iff hNested).mp hFixable
        have hSize : sts.length =
            before.length + 1 + T.length + F.length +
              after.length := by
          rw [h.eq, stubList_length]
        obtain ⟨t, ⟨fuelT, hRunT⟩, hStructuredT⟩ :=
          ih T.length (by omega)
            (hNested.sublist h.true_sublist) hT [] (by simp)
            (by simp) rfl
        obtain ⟨f, ⟨fuelF, hRunF⟩, hStructuredF⟩ :=
          ih F.length (by omega)
            (hNested.sublist h.false_sublist) hF [] (by simp)
            (by simp) rfl
        rw [List.nil_append, List.nil_append] at hRunT hRunF
        have hBlock : t ≠ [] := ne_nil_of_fixIfStubs hRunT hTrue
        obtain ⟨hResolved', hDone'⟩ :=
          h.done (f := f) hResolved hDone hBlock
        obtain ⟨rest, ⟨fuelA, hRunA⟩, hStructuredA⟩ :=
          ih after.length (by omega)
            (hNested.sublist h.after_sublist) hAfter _
            hResolved' hDone' rfl
        refine
          ⟨stubList before a c e n t f rest,
            ⟨max fuelT (max fuelF fuelA) + 1, ?_⟩,
            h.structured hNested hStructuredT hStructuredF
              hStructuredA⟩
        have hAt := h.atStub hNested hResolved hDone
        have hList :
            done ++ sts =
              stubList (done ++ before) a c e n [] []
                (T ++ F ++ after) := by
          rw [h.eq]
          simp [stubList]
        rw [hList, fixIfStubs, fixFirstIfStub_stub hAt hFound,
          fixIfStubs_mono hRunT (by omega),
          fixIfStubs_mono hRunF (by omega)]
        have hFuel : fuelA ≤ max fuelT (max fuelF fuelA) := by
          omega
        have hMore := fixIfStubs_mono hRunA hFuel
        simpa [stubList] using hMore

/-
  The rewriting returns only where each IF can be structured.
  The induction is on the steps of the loops.
-/
theorem fixable_of_fixIfStubs
    {fuel : Nat}
    {sts done result : List Statement}
    (hNested : ProperlyNested sts)
    (hResolved : ∀ s ∈ done, isUnresolved s = false)
    (hDone : ∀ s ∈ done, ∀ t ∈ sts, slot s ≤ slot t)
    (hFix : fixIfStubs fuel (done ++ sts) = .ok result) :
    Fixable sts := by
  induction fuel generalizing sts done result with
  | zero => cases hFix
  | succ fuel ih =>
      rcases hNested.first with
        hNone | ⟨before, a, c, e, n, T, F, after, h⟩
      · intro s hs labels hLabels
        simp [hNone s hs] at hLabels
      · have hAt := h.atStub hNested hResolved hDone
        have hList :
            done ++ sts =
              stubList (done ++ before) a c e n [] []
                (T ++ F ++ after) := by
          rw [h.eq]
          simp [stubList]
        rw [hList] at hFix
        have hTrue : T ≠ [] := by
          rintro rfl
          exact fixIfStubs_ne_ok hAt _ _ hFix
        have hFound : Found e n F after := by
          by_contra hNot
          rw [fixIfStubs, fixFirstIfStub_assertion hAt hNot]
            at hFix
          cases hFix
        rw [fixIfStubs, fixFirstIfStub_stub hAt hFound] at hFix
        cases hT : fixIfStubs fuel T with
        | error failure =>
            rw [hT] at hFix
            cases hFix
        | ok t =>
            cases hF : fixIfStubs fuel F with
            | error failure =>
                rw [hT, hF] at hFix
                cases hFix
            | ok f =>
                rw [hT, hF] at hFix
                have hBlock : t ≠ [] :=
                  ne_nil_of_fixIfStubs hT hTrue
                obtain ⟨hResolved', hDone'⟩ :=
                  h.done (f := f) hResolved hDone hBlock
                refine (h.fixable_iff hNested).mpr
                  ⟨⟨hTrue, hFound⟩, ?_, ?_, ?_⟩
                · exact @ih _ [] _
                    (hNested.sublist h.true_sublist) (by simp)
                    (by simp) hT
                · exact @ih _ [] _
                    (hNested.sublist h.false_sublist) (by simp)
                    (by simp) hF
                · refine @ih _ _ result
                    (hNested.sublist h.after_sublist)
                    hResolved' hDone' ?_
                  simpa [stubList] using hFix

/-
  The rewriting returns the structured program exactly where
  each IF can be structured.
-/
theorem rewriteIfStubs_iff
    {sts : List Statement}
    (hNested : ProperlyNested sts) :
    (∃ result, Rewrites sts result ∧ Structured sts result) ↔
      Fixable sts := by
  constructor
  · rintro ⟨result, ⟨fuel, hFix⟩, -⟩
    exact @fixable_of_fixIfStubs _ _ [] _ hNested (by simp)
      (by simp) hFix
  · intro hFixable
    exact structured_of_fixable hNested hFixable [] (by simp)
      (by simp)

/- An IF with an else, and statements before and after it. -/
def oneIf : List Statement :=
  [.ifStub 0 (.invocation .any []) 2 3 [] [],
    .discardStatement 16,
    .discardStatement 32,
    .discardStatement 48]

theorem rewriteIfStubs_iff_oneIf :
    ProperlyNested oneIf ∧
      ((∃ result, Rewrites oneIf result ∧
        Structured oneIf result) ↔ Fixable oneIf) := by
  have hNested : ProperlyNested oneIf := by
    constructor <;> simp [oneIf, IsFlat, ifLabels?, slot,
      Statement.address]
  exact ⟨hNested, rewriteIfStubs_iff hNested⟩

/- An IF without an else that ends with the program. -/
def lastIf : List Statement :=
  [.ifStub 0 (.invocation .any []) 2 2 [] [],
    .discardStatement 16]

/- An IF with nothing in its true region. -/
def emptyIf : List Statement :=
  [.ifStub 0 (.invocation .any []) 1 1 [] [],
    .discardStatement 16]

/-
  Both are properly nested, and neither is rewritten: the
  first fails an assertion, the second goes on forever.
-/
theorem lastIf_not_rewritten :
    (ProperlyNested lastIf ∧
      ∀ result, ¬ Rewrites lastIf result) ∧
    ProperlyNested emptyIf ∧
      ∀ result, ¬ Rewrites emptyIf result := by
  have hLast : ProperlyNested lastIf := by
    constructor <;> simp [lastIf, IsFlat, ifLabels?, slot,
      Statement.address]
  have hEmpty : ProperlyNested emptyIf := by
    constructor <;> simp [emptyIf, IsFlat, ifLabels?, slot,
      Statement.address]
  refine ⟨⟨hLast, ?_⟩, hEmpty, ?_⟩
  · rintro result ⟨fuel, hFix⟩
    have hFixable := @fixable_of_fixIfStubs _ _ [] _ hLast
      (by simp) (by simp) hFix
    have hAt := hFixable _ List.mem_cons_self (2, 2) rfl
    obtain ⟨t, ht, hSlot⟩ := hAt.elseLabel.1
    simp only [lastIf, List.mem_cons, List.not_mem_nil,
      or_false] at ht
    rcases ht with rfl | rfl <;> cases hSlot
  · rintro result ⟨fuel, hFix⟩
    have hFixable := @fixable_of_fixIfStubs _ _ [] _ hEmpty
      (by simp) (by simp) hFix
    have hAt := hFixable _ List.mem_cons_self (1, 1) rfl
    obtain ⟨t, -, hAfter, hBefore⟩ := hAt.trueRegion
    change 0 < slot t at hAfter
    change slot t < 1 at hBefore
    omega

end IfStubs

end Shaders

end Ps3emu
