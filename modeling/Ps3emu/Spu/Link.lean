import Ps3emu.Spu.Branch
import Ps3emu.Spu.Storage

/-
  The branches that leave a link, and the one that reads its
  target after it has written the link.

  Key definitions include:
    * `LinkInstr`
    * `BranchesAndLinks`
    * `TargetKept`

  Key theorems include:
    * `sets_link`
    * `setNip_iff`
    * `branchesAndLinks_iff`
-/

------------------------------------------------------------
-- The Architecture of Links
------------------------------------------------------------

namespace Ps3emu

namespace Spu

open Lanes Sse
open Ppu (LaneSpec words word)

variable {R : Type}

inductive LinkInstr where
  | brsl
  | brasl
  | bisl

namespace LinkInstr

def instr : LinkInstr → Instr
  | brsl => .direct .brsl
  | brasl => .direct .brasl
  | bisl => .indirect .bisl

/- The target, from the registers before the instruction. -/
def target
    (l : LinkInstr)
    (x cia : BitVec 32)
    (r : Registers R) : BitVec 32 :=
  match l with
  | brsl => (cia + offset x) &&& lslr
  | brasl => absolute x
  | bisl => address r (ra x)

end LinkInstr

/- The address of the next instruction, and three zeros. -/
def linkWords (cia : BitVec 32) : LaneSpec :=
  words fun n => if n = 0 then (cia + 4#32) &&& lslr else 0#32

/-
  The branch is to the target, and one register gets the
  link.
-/
def BranchesAndLinks
    (l : LinkInstr)
    (x cia : BitVec 32)
    (t : Thread R)
    (result : Except Fault (Thread R)) : Prop :=
  ∃ r',
    result =
        .ok ⟨l.target x cia t.regs, { t.regs with r := r' }⟩ ∧
      Sets (rt x) (linkWords cia) t.regs.r r'

/-
  The link does not replace another address, and the target
  is not the last byte of the local storage.
-/
def TargetKept
    (l : LinkInstr)
    (x cia : BitVec 32)
    (r : Registers R) : Prop :=
  match l with
  | .brsl => (cia + offset x) &&& lslr ≠ lslr
  | .brasl => True
  | .bisl =>
      rt x ≠ ra x ∨
        address r (ra x) =
          (cia + 4#32) &&& lslr &&& 0xfffffffc#32

/- The word of a link, in its lane. -/
theorem word_inW0
    (v : BitVec 32)
    {n : Nat}
    (hN : n < 4) :
    word (inW0 v) n = if n = 0 then v else 0#32 := by
  have hShift :=
    @lane_shiftLeft 128 32 3 (v.setWidth 128) (4 - 1 - n)
      (by omega)
  refine hShift.trans ?_
  rw [lane_setWidth v (by decide)]
  by_cases hFirst : n = 0
  · subst hFirst
    rfl
  · rw [if_pos (by omega), if_neg hFirst]

theorem link_eq
    (t : Thread R)
    (i : BitVec 7)
    (cia : BitVec 32) :
    t.link i (cia.setWidth 64) =
      { t with
        regs := t.regs.set i (inW0 ((cia + 4#32) &&& lslr)) } := by
  have hLink :
      ((cia.setWidth 64 + 4#64) &&&
          lslr.setWidth 64).setWidth 32 =
        (cia + 4#32) &&& lslr := by
    rw [BitVec.setWidth_and,
      BitVec.setWidth_add _ _ (by decide),
      BitVec.setWidth_setWidth_of_le cia (by decide)]
    rfl
  rw [Thread.link, hLink]

theorem set_r
    (r : Registers R)
    (i : BitVec 7)
    (value : R128) :
    (r.set i value).r = Function.update r.r i value := by
  funext j
  rw [Function.update_apply]
  rfl

theorem sets_link
    (r : Registers R)
    (i : BitVec 7)
    (cia : BitVec 32) :
    Sets i (linkWords cia) r.r
      (r.set i (inW0 ((cia + 4#32) &&& lslr))).r := by
  rw [set_r]
  exact sets_setXmm fun n hN => word_inW0 _ hN

------------------------------------------------------------
-- Branches
------------------------------------------------------------

/- A branch after the link is right if it is to the target. -/
theorem setNip_iff
    (l : LinkInstr)
    (x cia : BitVec 32)
    (t : Thread R)
    (nip : BitVec 32) :
    BranchesAndLinks l x cia t
        ((t.link (rt x) (cia.setWidth 64)).setNip nip) ↔
      nip < lslr ∧ nip = l.target x cia t.regs := by
  rw [link_eq, Thread.setNip]
  constructor
  · rintro ⟨r', hResult, _⟩
    split at hResult
    case isTrue hIn =>
      have hNip :=
        congrArg Thread.nip (Except.ok.inj hResult)
      exact ⟨hIn, hNip⟩
    case isFalse => cases hResult
  · rintro ⟨hIn, hTarget⟩
    rw [if_pos hIn, hTarget]
    exact ⟨_, rfl, sets_link t.regs (rt x) cia⟩

/- A word aligned address is not the last one. -/
theorem aligned_lt (v : BitVec 32) :
    v &&& lslr &&& 0xfffffffc#32 < lslr := by
  have hLow : (v &&& lslr).toNat = v.toNat % 2 ^ 18 :=
    Masks.toNat_and_low v 18 (by decide)
  have hHigh :
      (v &&& lslr &&& 0xfffffffc#32).toNat =
        (v &&& lslr).toNat / 4 * 4 :=
    Masks.toNat_and_high (v &&& lslr) 2 (by decide)
  have hLslr : lslr.toNat = 0x3ffff := rfl
  rw [BitVec.lt_def, hHigh, hLow, hLslr]
  omega

theorem and_lslr_lt_iff (v : BitVec 32) :
    v &&& lslr < lslr ↔ v &&& lslr ≠ lslr := by
  have hLow : (v &&& lslr).toNat = v.toNat % 2 ^ 18 :=
    Masks.toNat_and_low v 18 (by decide)
  have hLslr : lslr.toNat = 0x3ffff := rfl
  rw [BitVec.lt_def, Ne, ← BitVec.toNat_inj, hLow, hLslr]
  omega

theorem absolute_lt (x : BitVec 32) : absolute x < lslr := by
  have hLow :
      (offset x &&& lslr).toNat = (offset x).toNat % 2 ^ 18 :=
    Masks.toNat_and_low (offset x) 18 (by decide)
  have hLslr : lslr.toNat = 0x3ffff := rfl
  have hWords :
      (offset x).toNat =
        ((i16 x).signExtend 32).toNat * 4 % 2 ^ 32 := by
    rw [offset, BitVec.toNat_shiftLeft, Nat.shiftLeft_eq]
  rw [absolute, BitVec.lt_def, hLow, hLslr]
  omega

/- The address that is read after the link is written. -/
theorem address_link
    (r : Registers R)
    (i j : BitVec 7)
    (cia : BitVec 32) :
    address (r.set i (inW0 ((cia + 4#32) &&& lslr))) j =
      if j = i then (cia + 4#32) &&& lslr &&& 0xfffffffc#32
      else address r j := by
  unfold address Registers.set
  dsimp only
  split
  case isTrue =>
    have hWord : w0 (inW0 ((cia + 4#32) &&& lslr)) =
        (cia + 4#32) &&& lslr :=
      word_inW0 _ (show 0 < 4 by decide)
    rw [hWord, BitVec.and_assoc (cia + 4#32), BitVec.and_self]
  case isFalse => rfl

/-
  An instruction is right unless its link replaces the
  address it branches to.
-/
theorem branchesAndLinks_iff
    (env : Env R)
    (l : LinkInstr)
    (x cia : BitVec 32)
    (t : Thread R) :
    BranchesAndLinks l x cia t
        (emulateInstr env l.instr x (cia.setWidth 64) t) ↔
      TargetKept l x cia t.regs := by
  cases l with
  | brsl =>
      refine (setNip_iff .brsl x cia t _).trans ?_
      rw [relative_setWidth, and_lslr_lt_iff]
      exact and_iff_left rfl
  | brasl =>
      refine (setNip_iff .brasl x cia t _).trans ?_
      exact iff_of_true ⟨absolute_lt x, rfl⟩ trivial
  | bisl =>
      refine (setNip_iff .bisl x cia t _).trans ?_
      rw [link_eq, address_link]
      unfold LinkInstr.target TargetKept
      split
      case isTrue hSame =>
        constructor
        · rintro ⟨_, hTarget⟩
          exact .inr hTarget.symm
        · rintro (hOther | hTarget)
          · exact absurd hSame.symm hOther
          · exact ⟨aligned_lt _, hTarget.symm⟩
      case isFalse hOther =>
        exact
          iff_of_true ⟨aligned_lt _, rfl⟩
            (.inl (Ne.symm hOther))

/- `bisl $2, $2` goes on at the next instruction. -/
theorem not_branchesAndLinks :
    decode 0x35200102#32 = some LinkInstr.bisl.instr ∧
      ¬ BranchesAndLinks .bisl 0x35200102#32 0#32
        (threadOf fun _ => inW0 0x100#32)
        (emulateInstr bareEnv LinkInstr.bisl.instr
          0x35200102#32 0#64
          (threadOf fun _ => inW0 0x100#32)) := by
  refine ⟨by decide, ?_⟩
  intro hRight
  have hKept :=
    (branchesAndLinks_iff bareEnv .bisl 0x35200102#32 0#32
      (threadOf fun _ => inW0 0x100#32)).mp hRight
  rcases hKept with hOther | hAddress
  · exact absurd hOther (by decide)
  · exact absurd hAddress (by decide)

end Spu

end Ps3emu
