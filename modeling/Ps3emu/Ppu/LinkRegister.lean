import Ps3emu.Library.Fallible
import Ps3emu.Ppu.Branch

/-
  The instructions to which the link register is nothing but
  the address to return to.

  Key definitions include:
    * `readsLR`, `writesLR`, `returns`
    * `LinkFree`, `Env.LinkFree`, `Env.ReturnsFrom`

  Key theorems include:
    * `emulate_setLR`
    * `emulate_lr`
-/

------------------------------------------------------------
-- Registers and Integers
------------------------------------------------------------

namespace Ps3emu

namespace Ppu

variable {R : Type}

namespace Registers

def withLR
    (r : Registers R)
    (value : BitVec 64) : Registers R :=
  { r with lr := value }

@[simp] theorem withLR_lr
    (r : Registers R)
    (value : BitVec 64) :
    (r.withLR value).lr = value :=
  rfl

@[simp] theorem withLR_gpr
    (r : Registers R)
    (value : BitVec 64) :
    (r.withLR value).gpr = r.gpr :=
  rfl

@[simp] theorem setGPR_withLR
    (r : Registers R)
    (value : BitVec 64)
    (i : Gpr)
    (v : BitVec 64) :
    (r.withLR value).setGPR i v = (r.setGPR i v).withLR value :=
  rfl

end Registers

/- What an operation does has nothing to do with `LR`. -/
def LinkFree
    (f : Registers R → Except Fault (Registers R)) : Prop :=
  ∀ r value,
    f (r.withLR value) = (f r).map (·.withLR value)

/- So it leaves `LR` as it is. -/
theorem LinkFree.lr
    {f : Registers R → Except Fault (Registers R)}
    {r r' : Registers R}
    (hFree : LinkFree f)
    (hRun : f r = .ok r') :
    r'.lr = r.lr := by
  have hSame : f r = (f r).map (·.withLR r.lr) := hFree r r.lr
  rw [hRun] at hSame
  have hEq : r' = r'.withLR r.lr := Except.ok.inj hSame
  rw [hEq, Registers.withLR_lr]

theorem updateCR0OV_withLR
    (oe rc ov : Bool)
    (result : BitVec 64)
    (r : Registers R)
    (value : BitVec 64) :
    updateCR0OV oe rc ov result (r.withLR value) =
      (updateCR0OV oe rc ov result r).withLR value := by
  unfold updateCR0OV
  cases oe && ov <;> cases rc <;> rfl

theorem setRecorded_withLR
    (i : Gpr)
    (rc : Bool)
    (result : BitVec 64)
    (r : Registers R)
    (value : BitVec 64) :
    setRecorded i rc result (r.withLR value) =
      (setRecorded i rc result r).withLR value := by
  cases rc <;> rfl

theorem setShifted_withLR
    (i : Gpr)
    (rc ca : Bool)
    (result : BitVec 64)
    (r : Registers R)
    (value : BitVec 64) :
    setShifted i rc ca result (r.withLR value) =
      (setShifted i rc ca result r).withLR value := by
  cases rc <;> rfl

/- A quotient of what is not in `LR`, or none. -/
theorem linkFree_divide
    {w : Nat}
    {undefined : Registers R → Bool}
    {quotient : Registers R → Except Fault (BitVec w)}
    {zero : BitVec w}
    {put : BitVec w → Registers R → Registers R}
    (hUndefined :
      ∀ r value, undefined (r.withLR value) = undefined r)
    (hQuotient :
      ∀ r value, quotient (r.withLR value) = quotient r)
    (hPut :
      ∀ result r value,
        put result (r.withLR value) =
          (put result r).withLR value) :
    LinkFree (fun r =>
      if undefined r then .ok (put zero r)
      else (quotient r).bind (fun q => .ok (put q r))) := by
  intro r value
  simp only [hUndefined, hQuotient, hPut]
  cases undefined r with
  | true => rfl
  | false => cases quotient r <;> rfl

theorem linkFree_integer
    (i : IntegerInstr)
    (x : BitVec 32) :
    LinkFree (@emulateInteger R i x) := by
  cases i
  case divd | divw | divdu | divwu =>
    exact
      linkFree_divide (fun _ _ => rfl) (fun _ _ => rfl)
        (fun _ r value =>
          updateCR0OV_withLR _ _ _ _ (r.setGPR _ _) value)
  case add | addze | subf | neg | mulld | mullw =>
    exact fun r value =>
      congrArg Except.ok
        (updateCR0OV_withLR _ _ _ _ (r.setGPR _ _) value)
  case addc | subfc | subfe =>
    exact fun r value =>
      congrArg Except.ok
        (updateCR0OV_withLR _ _ _ _
          ((r.setCA _).setGPR _ _) value)
  case srad | sraw | srawi | sradi =>
    exact fun r value =>
      congrArg Except.ok (setShifted_withLR _ _ _ _ r value)
  case and | or | xor | nand | nor | eqv | andc | orc
      | cntlzd | cntlzw | rldicl | rldicr | rldimi | rldic
      | rldcl | rldcr | rlwinm | rlwnm | rlwimi | sld | slw
      | srd | srw | mulhd | mulhw | mulhwu | mulhdu =>
    exact fun r value =>
      congrArg Except.ok (setRecorded_withLR _ _ _ r value)
  -- the others write registers whatever is in them
  all_goals exact fun r value => rfl

------------------------------------------------------------
-- Other Instructions
------------------------------------------------------------

/- `mfspr` of the link register. -/
def readsLR (x : BitVec 32) : Bool :=
  match decode x with
  | some (.register .mfspr) => spr x == sprLr
  | _ => false

/- `mtspr` of the link register, or a branch that links. -/
def writesLR (x : BitVec 32) : Bool :=
  match decode x with
  | some (.register .mtspr) => spr x == sprLr
  | some (.branch _) => lk x
  | _ => false

/-
  The instructions that go on at the address in `LR`: a branch
  to it that is taken, and the call of a native function.
-/
def returns
    (x : BitVec 32)
    (r : Registers R) : Bool :=
  match decode x with
  | some (.branch .bclr) =>
      isTakenBo (bo0 x) (bo1 x) (bo2 x) (bo3 x) (counted x r)
        (bi x)
  | some (.system .ncall) => true
  | _ => false

theorem returns_withLR
    (x : BitVec 32)
    (r : Registers R)
    (value : BitVec 64) :
    returns x (r.withLR value) = returns x r :=
  rfl

/- The other units and the system calls do not know `LR`. -/
structure Env.LinkFree (env : Env R) : Prop where
  memory : ∀ i x, Ppu.LinkFree (env.memory i x)
  floating : ∀ i x, Ppu.LinkFree (env.floating i x)
  vector : ∀ i x, Ppu.LinkFree (env.vector i x)
  scall : Ppu.LinkFree env.scall

/- A thread that goes on at the address in `LR`. -/
def PPUThread.returnTo
    (t : PPUThread R)
    (value : BitVec 64) : PPUThread R :=
  { t.setLR value with nip := value.setWidth 32 }

/- To a native function, `LR` is where it returns. -/
def Env.ReturnsFrom
    (env : Env R)
    (index : BitVec 26) : Prop :=
  ∀ t value,
    env.ncall index (t.setLR value) =
      (env.ncall index t).map (·.returnTo value)

variable {spr : BitVec 10}

theorem linkFree_mfspr
    (hSpr : spr ≠ sprLr)
    (rs : Gpr) :
    LinkFree (@emulateMfspr R spr rs) := by
  intro r value
  unfold emulateMfspr
  simp only [if_neg hSpr]
  split_ifs <;> rfl

theorem emulateMfspr_lr
    {rs : Gpr}
    {r r' : Registers R}
    (hRun : emulateMfspr spr rs r = .ok r') :
    r'.lr = r.lr := by
  unfold emulateMfspr at hRun
  split_ifs at hRun <;> cases hRun <;> rfl

theorem linkFree_mtspr
    (hSpr : spr ≠ sprLr)
    (rs : Gpr) :
    LinkFree (@emulateMtspr R rs spr) := by
  intro r value
  unfold emulateMtspr
  simp only [if_neg hSpr]
  split_ifs <;> rfl

theorem onRegisters_setLR
    {f : Registers R → Except Fault (Registers R)}
    (hFree : LinkFree f)
    (t : PPUThread R)
    (value : BitVec 64) :
    onRegisters f (t.setLR value) =
      (onRegisters f t).map (·.setLR value) := by
  unfold onRegisters
  change
    (f (t.regs.withLR value)).map _ = ((f t.regs).map _).map _
  rw [hFree]
  cases f t.regs <;> rfl

theorem countDown_setLR
    (bo2 : Bool)
    (t : PPUThread R)
    (value : BitVec 64) :
    countDown bo2 (t.setLR value) =
      (countDown bo2 t).setLR value := by
  cases bo2 <;> rfl

/- The test of a branch does not look at `LR`. -/
theorem isTakenBo_setLR
    (bo0 bo1 bo2 bo3 : Bool)
    (t : PPUThread R)
    (value : BitVec 64)
    (bi : BitVec 5) :
    isTakenBo bo0 bo1 bo2 bo3 (t.setLR value).regs bi =
      isTakenBo bo0 bo1 bo2 bo3 t.regs bi :=
  rfl

theorem link_false
    (cia : BitVec 64)
    (t : PPUThread R) :
    link false cia t = t :=
  rfl

theorem emulateBc_setLR
    (bo0 bo1 bo2 bo3 : Bool)
    (bi : BitVec 5)
    (nia cia : BitVec 64)
    (t : PPUThread R)
    (value : BitVec 64) :
    emulateBc bo0 bo1 bo2 bo3 bi false nia cia
        (t.setLR value) =
      (emulateBc bo0 bo1 bo2 bo3 bi false nia cia t).setLR
        value := by
  let u := countDown bo2 t
  have hBoth (taken : Bool) :
      (if taken then (u.setLR value).setNIP nia
        else u.setLR value) =
        (if taken then u.setNIP nia else u).setLR value := by
    cases taken <;> rfl
  unfold emulateBc
  rw [countDown_setLR]
  exact hBoth (isTakenBo bo0 bo1 bo2 bo3 u.regs bi)

theorem emulateBcctr_setLR
    (bo0 bo1 : Bool)
    (bi : BitVec 5)
    (cia : BitVec 64)
    (t : PPUThread R)
    (value : BitVec 64) :
    emulateBcctr bo0 bo1 bi false cia (t.setLR value) =
      (emulateBcctr bo0 bo1 bi false cia t).setLR value := by
  have hCr : (t.setLR value).regs.cr = t.regs.cr := rfl
  unfold emulateBcctr
  simp only [hCr, link_false]
  split_ifs <;> rfl

/- A branch to `LR` that is taken follows a change of it. -/
theorem emulateBclr_setLR
    (x : BitVec 32)
    (cia : BitVec 64)
    (t : PPUThread R)
    {value : BitVec 64}
    (hAligned : value &&& ~~~3#64 = value) :
    emulateBclr (bo0 x) (bo1 x) (bo2 x) (bo3 x) (bi x) false
        cia (t.setLR value) =
      if isTakenBo (bo0 x) (bo1 x) (bo2 x) (bo3 x)
          (counted x t.regs) (bi x) then
        (emulateBclr (bo0 x) (bo1 x) (bo2 x) (bo3 x) (bi x)
          false cia t).returnTo value
      else
        (emulateBclr (bo0 x) (bo1 x) (bo2 x) (bo3 x) (bi x)
          false cia t).setLR value := by
  have hTaken := @isTakenBo_countDown R x false cia t
  rw [link_false] at hTaken
  unfold emulateBclr
  simp only [countDown_setLR, link_false, isTakenBo_setLR,
    hTaken]
  split_ifs
  · change PPUThread.setNIP _ (value &&& ~~~3#64) = _
    rw [hAligned]
    rfl
  · rfl

------------------------------------------------------------
-- Words
------------------------------------------------------------

section

variable {env : Env R} {x : BitVec 32}

/-
  A word that has nothing to do with `LR` but to return to it
  does the same with any other address there.
-/
theorem emulate_setLR
    (hEnv : env.LinkFree)
    (hReads : readsLR x = false)
    (hWrites : writesLR x = false)
    (hNcall :
      decode x = some (.system .ncall) →
        env.ReturnsFrom (idx x))
    (cia : BitVec 64)
    (t : PPUThread R)
    {value : BitVec 64}
    (hAligned : value &&& ~~~3#64 = value) :
    emulate env x cia (t.setLR value) =
      (emulate env x cia t).map (fun u =>
        if returns x t.regs then u.returnTo value
        else u.setLR value) := by
  unfold readsLR at hReads
  unfold writesLR at hWrites
  unfold returns emulate
  cases hDecode : decode x with
  | none => rfl
  | some i =>
      simp only [hDecode] at hReads hWrites ⊢
      cases i with
      | integer i =>
          exact onRegisters_setLR (linkFree_integer i x) t value
      | register i =>
          cases i with
          | mfspr =>
              exact
                onRegisters_setLR
                  (linkFree_mfspr (by simpa using hReads) _)
                  t value
          | mtspr =>
              exact
                onRegisters_setLR
                  (linkFree_mtspr (by simpa using hWrites) _)
                  t value
          | _ =>
              exact onRegisters_setLR (fun _ _ => rfl) t value
      | hint i => rfl
      | memory i =>
          exact onRegisters_setLR (hEnv.memory i x) t value
      | floating i =>
          exact onRegisters_setLR (hEnv.floating i x) t value
      | vector i =>
          exact onRegisters_setLR (hEnv.vector i x) t value
      | branch i =>
          simp only [emulateInstr, Except.map]
          congr 1
          cases i with
          | b =>
              simp only [emulateBranch, hWrites]
              rfl
          | bc =>
              simp only [emulateBranch, hWrites]
              exact emulateBc_setLR _ _ _ _ _ _ _ t value
          | bclr =>
              simp only [emulateBranch, hWrites]
              exact emulateBclr_setLR x cia t hAligned
          | bcctr =>
              simp only [emulateBranch, hWrites]
              exact emulateBcctr_setLR _ _ _ _ t value
      | system i =>
          cases i with
          | ncall => exact hNcall hDecode t value
          | bbcall => rfl
          | sc => exact onRegisters_setLR hEnv.scall t value
          | td =>
              simp only [emulateInstr, emulateSystem,
                emulateTrap]
              split <;> rfl
          | tw =>
              simp only [emulateInstr, emulateSystem,
                emulateTrap]
              split <;> rfl

/- A word that does not write `LR`, though it may read it. -/
theorem emulate_lr
    (hEnv : env.LinkFree)
    (hWrites : writesLR x = false)
    (hNcall :
      decode x = some (.system .ncall) →
        env.ReturnsFrom (idx x))
    {cia : BitVec 64}
    {t u : PPUThread R}
    (hAligned : t.regs.lr &&& ~~~3#64 = t.regs.lr)
    (hRun : emulate env x cia t = .ok u) :
    u.regs.lr = t.regs.lr ∧
      (returns x t.regs = true →
        u.nip = t.regs.lr.setWidth 32) := by
  cases hReads : readsLR x with
  | true =>
      unfold readsLR at hReads
      split at hReads
      · rename_i hDecode
        simp only [emulate, returns, hDecode] at hRun ⊢
        rcases Fallible.map_eq_ok.mp hRun with ⟨r, hMove, rfl⟩
        exact ⟨emulateMfspr_lr hMove, fun hNo => by cases hNo⟩
      · cases hReads
  | false =>
      have hSame :=
        emulate_setLR hEnv hReads hWrites hNcall cia t hAligned
      change emulate env x cia t = _ at hSame
      rw [hRun] at hSame
      have hEq :
          u =
            if returns x t.regs then u.returnTo t.regs.lr
            else u.setLR t.regs.lr :=
        Except.ok.inj hSame
      cases hReturns : returns x t.regs with
      | true =>
          rw [hReturns, if_pos rfl] at hEq
          rw [hEq]
          exact ⟨rfl, fun _ => rfl⟩
      | false =>
          rw [hReturns] at hEq
          rw [hEq]
          exact ⟨rfl, fun hNo => by cases hNo⟩

end

end Ppu

end Ps3emu
