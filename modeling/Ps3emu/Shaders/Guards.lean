import Ps3emu.Shaders.Evaluation

/-
  What the condition of an instruction says, and how it guards
  an assignment.  Terms over the old values of the registers
  tell two computations apart that are not the same for every
  arithmetic.

  Key definitions include:
    * `Cond.holds`, `guardHolds`
    * `Sym`, `symbolic`

  Key theorems include:
    * `holdsAt_eq_guardHolds`
    * `apply_maskedWrites`
-/

------------------------------------------------------------
-- Guarded Writes
------------------------------------------------------------

namespace Ps3emu

namespace Shaders

variable {V : Type} {A : Arithmetic V} {s : Location → V}
variable {cond : Condition}
variable {k : Swizzle2bit}

/- The relation between a number and zero. -/
def Cond.holds (A : Arithmetic V) (rel : Cond) (v : V) : Bool :=
  match rel with
  | .FL => false
  | .LT => A.test (A.apply .lessThan [v, A.literal 0])
  | .EQ => A.test (A.apply .equal [v, A.literal 0])
  | .LE => A.test (A.apply .lessThanEqual [v, A.literal 0])
  | .GT => A.test (A.apply .greaterThan [v, A.literal 0])
  | .NE => A.test (A.apply .notEqual [v, A.literal 0])
  | .GE => A.test (A.apply .greaterThanEqual [v, A.literal 0])
  | .TR => true

/- The relation for the component that the swizzle selects. -/
def guardHolds
    (A : Arithmetic V)
    (s : Location → V)
    (cond : Condition)
    (k : Swizzle2bit) : Bool :=
  cond.relation.holds A
    (s ⟨"c", if cond.isC1 then 1 else 0, cond.swizzle.get k⟩)

/- Only the relation that never holds has another function. -/
theorem holdsAt_eq_guardHolds (hRel : cond.relation ≠ .FL) :
    holdsAt A s cond k = guardHolds A s cond k := by
  rw [holdsAt, guardHolds]
  cases hCond : cond.relation with
  | FL => exact absurd hCond hRel
  | _ => rfl

theorem guardHolds_of_FL (hRel : cond.relation = .FL) :
    guardHolds A s cond k = false := by
  rw [guardHolds, hRel]
  rfl

theorem guardHolds_of_TR (hRel : cond.relation = .TR) :
    guardHolds A s cond k = true := by
  rw [guardHolds, hRel]
  rfl

theorem holdsAt_of_TR (hRel : cond.relation = .TR) :
    holdsAt A s cond k = true := by
  rw [holdsAt, hRel]
  rfl

/- A number as a term over the old values. -/
inductive Sym where
  | old (l : Location)
  | literal (val : Rat)
  | integer (val : Int)
  | apply (name : FunctionName) (args : List Sym)
  | texture
      (name : FunctionName)
      (args : List Sym)
      (c : Swizzle2bit)

/- Terms are their own values; every test has one outcome. -/
def symbolic (outcome : Bool) : Arithmetic Sym where
  literal := .literal
  integer := .integer
  apply := .apply
  texture := .texture
  test := fun _ => outcome
  index := fun _ => 0

/- No term is a part of itself. -/
theorem Sym.apply_cons_ne
    (name : FunctionName)
    (v : Sym)
    (rest : List Sym) :
    Sym.apply name (v :: rest) ≠ v := by
  intro hEq
  have hSize := congrArg sizeOf hEq
  simp at hSize
  omega

variable {outcome : Bool} {s : Location → Sym} {cond : Condition}
variable {k : Swizzle2bit}

/- A modified value is not an old one. -/
theorem eq_old_of_modify
    {isAbs isNeg : Bool}
    {l l' : Location}
    (hOld :
      modify (symbolic outcome) isAbs isNeg (.old l) =
        .old l') :
    isNeg = false ∧ isAbs = false ∧ l = l' := by
  cases isNeg <;> cases isAbs <;>
    first
    | exact ⟨rfl, rfl, Sym.old.inj hOld⟩
    | cases hOld

theorem holdsAt_symbolic (hRel : cond.relation ≠ .TR) :
    holdsAt (symbolic outcome) s cond k = outcome := by
  rw [holdsAt]
  cases hCond : cond.relation with
  | TR => exact absurd hCond hRel
  | _ => rfl

/- Where every test fails, so does a guard with a test. -/
theorem guardHolds_symbolic_false
    (hRel : cond.relation ≠ .TR) :
    guardHolds (symbolic false) s cond k = false := by
  by_cases hFalse : cond.relation = .FL
  · exact guardHolds_of_FL hFalse
  · rw [← holdsAt_eq_guardHolds hFalse, holdsAt_symbolic hRel]

/- Where every test holds, so does every code of a relation. -/
theorem holdsAt_symbolic_true :
    holdsAt (symbolic true) s cond k = true := by
  by_cases hRel : cond.relation = .TR
  · exact holdsAt_of_TR hRel
  · exact holdsAt_symbolic hRel

theorem guardHolds_symbolic_true
    (hRel : cond.relation ≠ .FL) :
    guardHolds (symbolic true) s cond k = true := by
  rw [← holdsAt_eq_guardHolds hRel, holdsAt_symbolic_true]

theorem DestMask.mem_comps
    (mask : DestMask)
    (c : Swizzle2bit) :
    c ∈ mask.comps ↔ mask.has c = true := by
  rw [DestMask.comps, List.mem_filter]
  have hAll : c ∈ vec id := by
    cases c <;> decide
  exact and_iff_right hAll

theorem maskedWrites_congr
    {mask : DestMask}
    {key key' : Swizzle2bit → Location}
    {f g : Swizzle2bit → V}
    (hSame :
      ∀ k, mask.has k = true → key k = key' k ∧ f k = g k) :
    maskedWrites mask key f = maskedWrites mask key' g := by
  apply List.map_congr_left
  intro k hk
  obtain ⟨hKey, hValue⟩ := hSame k ((mask.mem_comps k).mp hk)
  rw [hKey, hValue]

/- The state after a register is written under a mask. -/
theorem apply_maskedWrites
    (s : Location → V)
    (mask : DestMask)
    (name : String)
    (index : Int)
    (f : Swizzle2bit → V)
    (l : Location) :
    Writes.apply s
        (maskedWrites mask (fun c => ⟨name, index, c⟩) f) l =
      if l.name = name ∧ l.index = index ∧
          mask.has l.comp = true then f l.comp
      else s l := by
  have hKey :
      Function.Injective
        (fun c : Swizzle2bit => Location.mk name index c) :=
    fun _ _ hEq => (Location.mk.inj hEq).2.2
  rw [maskedWrites]
  split
  case isTrue hMatch =>
    rcases l with ⟨name', index', c⟩
    obtain ⟨rfl, rfl, hMask⟩ := hMatch
    exact
      Parallel.apply_map_of_mem s f hKey
        ((mask.mem_comps c).mpr hMask)
  case isFalse hOther =>
    apply Parallel.apply_map_of_not_mem
    rintro c hc rfl
    exact hOther ⟨rfl, rfl, (mask.mem_comps c).mp hc⟩

end Shaders

end Ps3emu
