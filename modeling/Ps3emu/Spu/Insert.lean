import Ps3emu.Spu.Shuffle

/-
  The instructions that store a byte, halfword, word or
  doubleword: a load of its quadword, the control of an
  insertion, a shuffle and a store.

  Key definitions include:
    * `Element`
    * `Insertion`
    * `inserted`

  Key theorems include:
    * `control_row`
    * `setQuad_inserted`
    * `insert_exact`
-/

------------------------------------------------------------
-- Insertions
------------------------------------------------------------

namespace Ps3emu

namespace Spu

open Lanes Sse
open Ppu (LaneSpec bytes byte permByte)

inductive Element where
  | byte
  | halfword
  | word
  | doubleword

/- An address is a register and a number, or two registers. -/
inductive Form where
  | d
  | x
deriving DecidableEq

namespace Element

def size : Element → Nat
  | byte => 1
  | halfword => 2
  | word => 4
  | doubleword => 8

/- The first byte of the preferred slot. -/
def slot : Element → Nat
  | byte => 3
  | halfword => 2
  | word => 0
  | doubleword => 0

/- The instruction that makes the control. -/
def generator : Element → Form → ComputeInstr
  | byte, .d => .cbd
  | byte, .x => .cbx
  | halfword, .d => .chd
  | halfword, .x => .chx
  | word, .d => .cwd
  | word, .x => .cwx
  | doubleword, .d => .cdd
  | doubleword, .x => .cdx

end Element

/- The address of an insertion. -/
def effectiveAddress
    (f : Form)
    (x : BitVec 32)
    (r : RegisterFile) : BitVec 32 :=
  match f with
  | .d => (i7 x).signExtend 32 + (r (ra x)).w 0
  | .x => (r (ra x)).w 0 + (r (rb x)).w 0

/-
  The words of the four instructions.  The quadword is in
  `q`, the control in `m` and the value in `v`; no address
  register is overwritten before it is read.
-/
structure Insertion where
  element : Element
  form : Form
  load : BitVec 32
  control : BitVec 32
  shuffle : BitVec 32
  store : BitVec 32
  hLoad : decode load = some (.memory .lqd)
  hControl :
    decode control = some (.compute (element.generator form))
  hShuffle : decode shuffle = some (.compute .shufb)
  hStore : decode store = some (.memory .stqd)
  hQuad :
    rb shuffle = rt load ∧ rtAbc shuffle = rt load ∧
      rt store = rt load
  hMask : rc shuffle = rt control
  hDistinct :
    rt control ≠ rt load ∧ ra shuffle ≠ rt load ∧
      ra shuffle ≠ rt control
  hControlAddress :
    ra control ≠ rt load ∧
      (form = .x → rb control ≠ rt load)
  hStoreAddress :
    ra store ≠ rt load ∧ ra store ≠ rt control

namespace Insertion

variable (s : Insertion)

def words : List (BitVec 32) :=
  [s.load, s.control, s.shuffle, s.store]

def ea (r : RegisterFile) : BitVec 32 :=
  effectiveAddress s.form s.control r

/- The load and the store are from the same quadword. -/
def SameQuad (r : RegisterFile) : Prop :=
  lsaD s.load r = s.ea r &&& lslr &&& 0xfffffff0#32 ∧
    lsaD s.store r = s.ea r &&& lslr &&& 0xfffffff0#32

end Insertion

/- The bytes of the value are put at the aligned address. -/
def inserted
    (e : Element)
    (ea : BitVec 32)
    (v : R128)
    (ls : FlatMemory 18) : FlatMemory 18 :=
  ls.set (BitVec.ofNat 18 (ea.toNat / e.size * e.size))
    ((List.range e.size).map (fun n => v.b (e.slot + n)))

/- Interpret words that lie one after the other. -/
def interpretAll
    {R : Type}
    (env : Env R) :
    List (BitVec 32) → BitVec 32 → Thread R →
      Except Fault (Thread R)
  | [], _, t => .ok t
  | x :: xs, cia, t =>
      (interpret env x cia t).bind
        (interpretAll env xs (cia + 4#32))

------------------------------------------------------------
-- Controls
------------------------------------------------------------

namespace Element

variable (e : Element)

def table : Element → List (List (BitVec 8))
  | byte => generateControlByte
  | halfword => generateControlHw
  | word => generateControlW
  | doubleword => generateControlDw

/- The place of the element in its quadword. -/
def place (ea : BitVec 32) : Nat :=
  ea.toNat % 16 / e.size

/- And how the instructions compute it. -/
def index (t : BitVec 32) : BitVec 32 :=
  match e with
  | byte => t &&& 0xf#32
  | halfword => (t &&& 0xe#32) >>> 1
  | word => (t &&& 0xc#32) >>> 2
  | doubleword => (t &&& 0x8#32) >>> 3

theorem place_lt (ea : BitVec 32) :
    e.place ea < 16 / e.size := by
  unfold place
  cases e
  all_goals simp only [size]
  all_goals omega

theorem toNat_mask_shift
    (t : BitVec 32)
    {m : BitVec 32}
    {j k : Nat}
    (hMask : m >>> j = BitVec.ofNat 32 (2 ^ k - 1))
    (hK : k ≤ 32) :
    ((t &&& m) >>> j).toNat = t.toNat / 2 ^ j % 2 ^ k := by
  rw [BitVec.ushiftRight_and_distrib, hMask,
    Masks.toNat_and_low _ k hK, Masks.toNat_ushiftRight]

theorem toNat_index (t : BitVec 32) :
    (e.index t).toNat = e.place t := by
  unfold place
  cases e with
  | byte =>
      refine (Masks.toNat_and_low t 4 (by decide)).trans ?_
      exact (Nat.div_one _).symm
  | halfword =>
      refine
        (@toNat_mask_shift t 0xe#32 1 3 rfl
          (by decide)).trans ?_
      simp only [size]
      omega
  | word =>
      refine
        (@toNat_mask_shift t 0xc#32 2 2 rfl
          (by decide)).trans ?_
      simp only [size]
      omega
  | doubleword =>
      refine
        (@toNat_mask_shift t 0x8#32 3 1 rfl
          (by decide)).trans ?_
      simp only [size]
      omega

/- Every generator looks its place up in its table. -/
theorem emulateCompute_generator
    (f : Form)
    (x : BitVec 32) :
    emulateCompute (e.generator f) x =
      some (fun r =>
        r.setXmm (rt x)
          (Macro.control e.table
            (e.index (effectiveAddress f x r)))) := by
  cases e <;> cases f <;> rfl

/- The control takes the element from the preferred slot. -/
def controlByte (k n : Nat) : BitVec 8 :=
  if e.size * k ≤ n ∧ n < e.size * (k + 1) then
    BitVec.ofNat 8 (e.slot + (n - e.size * k))
  else BitVec.ofNat 8 (16 + n)

theorem table_row :
    ∀ k < 16 / e.size, ∀ n < 16,
      (e.table.getD k []).getD n 0 = e.controlByte k n := by
  cases e <;> decide

theorem byte_control
    (t : BitVec 32)
    {n : Nat}
    (hN : n < 16) :
    Ppu.byte (Macro.control e.table (e.index t)) n =
      e.controlByte (e.place t) n := by
  refine (Ppu.laneBE_setEpi8 _ hN).trans ?_
  rw [e.toNat_index]
  exact e.table_row _ (e.place_lt t) n hN

end Element

------------------------------------------------------------
-- Quadwords
------------------------------------------------------------

theorem shuffledByte_ofNat
    (a b : R128)
    {k : Nat}
    (hK : k < 32) :
    shuffledByte a b (BitVec.ofNat 8 k) =
      if k < 16 then a.b k else b.b (k - 16) := by
  have hMod : k % 256 % 32 = k := by omega
  have hMsb : (BitVec.ofNat 8 k).msb = false := by
    rw [BitVec.msb_eq_false_iff_two_mul_lt, BitVec.toNat_ofNat]
    omega
  rw [shuffledByte_eq, hMsb, if_neg Bool.false_ne_true,
    permByte, BitVec.toNat_ofNat, hMod]
  rfl

namespace Element

variable (e : Element)

/- The value is taken at its place, the rest as it was. -/
theorem shuffledByte_control
    (v old : R128)
    {k n : Nat}
    (hN : n < 16) :
    shuffledByte v old (e.controlByte k n) =
      if e.size * k ≤ n ∧ n < e.size * (k + 1) then
        v.b (e.slot + (n - e.size * k))
      else old.b n := by
  have hSlot : e.slot + e.size ≤ 8 := by
    cases e <;> decide
  unfold controlByte
  split
  case isTrue hIn =>
    rw [Nat.mul_succ] at hIn
    rw [shuffledByte_ofNat _ _ (by omega), if_pos (by omega)]
  case isFalse =>
    rw [shuffledByte_ofNat _ _ (by omega), if_neg (by omega),
      Nat.add_sub_cancel_left]

end Element

/- The address of a quadword in the local storage. -/
theorem toNat_quadAddress (ea : BitVec 32) :
    ((ea &&& lslr &&& 0xfffffff0#32).setWidth 18).toNat =
      ea.toNat % 2 ^ 18 / 16 * 16 := by
  have hLow :
      (ea &&& lslr).toNat = ea.toNat % 2 ^ 18 :=
    Masks.toNat_and_low ea 18 (by decide)
  have hHigh :
      (ea &&& lslr &&& 0xfffffff0#32).toNat =
        (ea &&& lslr).toNat / 16 * 16 :=
    Masks.toNat_and_high (ea &&& lslr) 4 (by decide)
  rw [BitVec.toNat_setWidth, hHigh, hLow]
  omega

theorem toNat_start
    (e : Element)
    (ea : BitVec 32) :
    (BitVec.ofNat 18 (ea.toNat / e.size * e.size)).toNat =
      ea.toNat % 2 ^ 18 / 16 * 16 + e.size * e.place ea := by
  rw [BitVec.toNat_ofNat]
  unfold Element.place
  cases e
  all_goals simp only [Element.size]
  all_goals omega

/- The element is inside its quadword. -/
theorem offset_in_element
    (e : Element)
    (ea : BitVec 32)
    (x : BitVec 18) :
    let lsa := (ea &&& lslr &&& 0xfffffff0#32).setWidth 18
    let start := BitVec.ofNat 18 (ea.toNat / e.size * e.size)
    ((x - start).toNat < e.size →
        (x - lsa).toNat < 16 ∧
          (x - lsa).toNat =
            e.size * e.place ea + (x - start).toNat) ∧
      (¬ (x - start).toNat < e.size →
        ¬ (e.size * e.place ea ≤ (x - lsa).toNat ∧
            (x - lsa).toNat < e.size * (e.place ea + 1))) := by
  have hPlace := e.place_lt ea
  have hX := x.isLt
  dsimp only
  rw [BitVec.toNat_sub, BitVec.toNat_sub, toNat_start,
    toNat_quadAddress]
  have hQuad : ea.toNat % 2 ^ 18 / 16 < 2 ^ 14 := by omega
  generalize e.place ea = k at *
  generalize ea.toNat % 2 ^ 18 / 16 = q at *
  cases e
  all_goals simp only [Element.size] at *
  all_goals omega

/- Where it was not in the element, the quadword is stored back. -/
theorem setQuad_inserted
    {e : Element}
    {ls : FlatMemory 18}
    {ea : BitVec 32}
    {v value : R128}
    (hValue :
      ∀ n < 16,
        value.b n =
          if e.size * e.place ea ≤ n ∧
              n < e.size * (e.place ea + 1) then
            v.b (e.slot + (n - e.size * e.place ea))
          else
            (quadAt ls (ea &&& lslr &&& 0xfffffff0#32)).b n) :
    setQuad ls (ea &&& lslr &&& 0xfffffff0#32) value =
      inserted e ea v ls := by
  funext x
  have hOffset := offset_in_element e ea x
  dsimp only at hOffset
  rw [setQuad_apply, inserted, FlatMemory.set, List.length_map,
    List.length_range]
  by_cases hIn :
      (x - BitVec.ofNat 18 (ea.toNat / e.size * e.size)).toNat <
        e.size
  · rcases hOffset.1 hIn with ⟨hQuad, hPlace⟩
    have hElement :
        e.size * e.place ea ≤
            (x - (ea &&& lslr &&& 0xfffffff0#32).setWidth
              18).toNat ∧
          (x - (ea &&& lslr &&& 0xfffffff0#32).setWidth
              18).toNat < e.size * (e.place ea + 1) := by
      rw [Nat.mul_succ, hPlace]
      omega
    rw [if_pos hQuad, if_pos hIn, hValue _ hQuad,
      if_pos hElement, hPlace, Nat.add_sub_cancel_left,
      List.getD_eq_getElem _ _ (by simpa using hIn)]
    simp
  · rw [if_neg hIn]
    split
    case isTrue hQuad =>
      rw [hValue _ hQuad, if_neg (hOffset.2 hIn),
        byte_quadAt _ _ hQuad, BitVec.ofNat_toNat,
        BitVec.setWidth_eq, BitVec.add_comm,
        BitVec.sub_add_cancel]
    case isFalse => rfl

------------------------------------------------------------
-- Instructions
------------------------------------------------------------

section Instructions

variable {base : Env (FlatMemory 18)} {x cia : BitVec 32}
  {t : Thread (FlatMemory 18)}

theorem interpret_memory
    {j : MemoryInstr}
    (hDecode : decode x = some (.memory j)) :
    interpret (spuEnv base) x cia t =
      .ok ⟨cia + 4#32,
        emulateMemory j x (cia.setWidth 64) t.regs⟩ := by
  rw [interpret, SPUDasm, hDecode]
  rfl

theorem interpret_compute
    {j : ComputeInstr}
    {f : RegisterFile → RegisterFile}
    (hDecode : decode x = some (.compute j))
    (hBody : emulateCompute j x = some f) :
    interpret (spuEnv base) x cia t =
      .ok ⟨cia + 4#32, { t.regs with r := f t.regs.r }⟩ := by
  rw [interpret, SPUDasm, hDecode]
  exact emulateInstr_compute base hBody _ _

end Instructions

namespace Insertion

variable (s : Insertion)

/- The registers after the load, the control and the shuffle. -/
def loaded (r : Registers (FlatMemory 18)) : RegisterFile :=
  (Spu.load (lsaD s.load r.r) s.load r).r

def controlled (r : Registers (FlatMemory 18)) : RegisterFile :=
  (s.loaded r).setXmm (rt s.control)
    (Macro.control s.element.table
      (s.element.index
        (effectiveAddress s.form s.control (s.loaded r))))

def shuffled (r : Registers (FlatMemory 18)) : RegisterFile :=
  Macro.shufb (ra s.shuffle) (rb s.shuffle) (rc s.shuffle)
    (rtAbc s.shuffle) (s.controlled r)

theorem interpretAll_words
    (base : Env (FlatMemory 18))
    (cia : BitVec 32)
    (t : Thread (FlatMemory 18)) :
    interpretAll (spuEnv base) s.words cia t =
      .ok ⟨cia + 4#32 + 4#32 + 4#32 + 4#32,
        Spu.store (lsaD s.store (s.shuffled t.regs)) s.store
          { t.regs with r := s.shuffled t.regs }⟩ := by
  simp only [words, interpretAll, Except.bind,
    interpret_memory s.hLoad,
    interpret_compute s.hControl
      (s.element.emulateCompute_generator _ _),
    interpret_compute s.hShuffle rfl,
    interpret_memory s.hStore]
  rfl

variable (r : Registers (FlatMemory 18))

theorem loaded_quad :
    s.loaded r (rt s.load) =
      quadAt r.rest (lsaD s.load r.r) :=
  if_pos rfl

variable {i : BitVec 7}

theorem loaded_of_ne (hQuad : i ≠ rt s.load) :
    s.loaded r i = r.r i :=
  if_neg hQuad

theorem controlled_of_ne
    (hQuad : i ≠ rt s.load)
    (hControl : i ≠ rt s.control) :
    s.controlled r i = r.r i :=
  (Function.update_of_ne hControl _ _).trans
    (s.loaded_of_ne r hQuad)

theorem shuffled_of_ne
    (hQuad : i ≠ rt s.load)
    (hControl : i ≠ rt s.control) :
    s.shuffled r i = r.r i := by
  have hTarget : i ≠ rtAbc s.shuffle := by
    rw [s.hQuad.2.1]
    exact hQuad
  exact
    (Function.update_of_ne hTarget _ _).trans
      (s.controlled_of_ne r hQuad hControl)

/- The load has left the address as it was. -/
theorem ea_loaded :
    effectiveAddress s.form s.control (s.loaded r) =
      s.ea r.r := by
  have hA := s.loaded_of_ne r s.hControlAddress.1
  have hB :
      s.form = .x →
        s.loaded r (rb s.control) = r.r (rb s.control) :=
    fun hForm =>
      s.loaded_of_ne r (s.hControlAddress.2 hForm)
  unfold ea effectiveAddress
  cases hForm : s.form with
  | d => rw [hA]
  | x => rw [hA, hB hForm]

/- The bytes that are stored. -/
theorem byte_shuffled
    {n : Nat}
    (hN : n < 16) :
    (s.shuffled r (rt s.store)).b n =
      shuffledByte (r.r (ra s.shuffle))
        (quadAt r.rest (lsaD s.load r.r))
        (s.element.controlByte
          (s.element.place (s.ea r.r)) n) := by
  have hTarget : rt s.store = rtAbc s.shuffle :=
    s.hQuad.2.2.trans s.hQuad.2.1.symm
  have hValue :
      s.controlled r (ra s.shuffle) = r.r (ra s.shuffle) :=
    s.controlled_of_ne r s.hDistinct.2.1 s.hDistinct.2.2
  have hQuad :
      s.controlled r (rb s.shuffle) =
        quadAt r.rest (lsaD s.load r.r) := by
    rw [s.hQuad.1, ← s.loaded_quad]
    exact Function.update_of_ne s.hDistinct.1.symm _ _
  have hControl :
      byte (s.controlled r (rc s.shuffle)) n =
        s.element.controlByte
          (s.element.place (s.ea r.r)) n := by
    rw [s.hMask, controlled, RegisterFile.setXmm,
      Function.update_self, s.ea_loaded]
    exact s.element.byte_control _ hN
  have hByte :=
    byte_shufb (ra s.shuffle) (rb s.shuffle) (rc s.shuffle)
      (rtAbc s.shuffle) (s.controlled r) hN
  rw [hValue, hQuad, hControl] at hByte
  rw [hTarget]
  exact hByte

end Insertion

/-
  The preferred slot of a register is put at the aligned
  address, and every other byte stays.
-/
theorem insert_exact
    (base : Env (FlatMemory 18))
    (s : Insertion)
    (cia : BitVec 32)
    (t : Thread (FlatMemory 18))
    (hSame : s.SameQuad t.regs.r) :
    ∃ t',
      interpretAll (spuEnv base) s.words cia t = .ok t' ∧
        t'.regs.rest =
          inserted s.element (s.ea t.regs.r)
            (t.regs.r (ra s.shuffle)) t.regs.rest := by
  refine ⟨_, s.interpretAll_words base cia t, ?_⟩
  have hStore :
      lsaD s.store (s.shuffled t.regs) =
        s.ea t.regs.r &&& lslr &&& 0xfffffff0#32 := by
    rw [lsaD,
      s.shuffled_of_ne _ s.hStoreAddress.1 s.hStoreAddress.2]
    exact hSame.2
  rw [hStore]
  apply setQuad_inserted
  intro n hN
  rw [s.byte_shuffled t.regs hN, hSame.1]
  exact s.element.shuffledByte_control _ _ hN

/-
  `lqd $1, 0($3)`, `cbd $2, 5($3)`, `shufb $1, $4, $1, $2`
  and `stqd $1, 0($3)`.
-/
def byteInsertion : Insertion where
  element := .byte
  form := .d
  load := 0x34000181#32
  control := 0x3e814182#32
  shuffle := 0xb0204202#32
  store := 0x24000181#32
  hLoad := by decide
  hControl := by decide
  hShuffle := by decide
  hStore := by decide
  hQuad := by decide
  hMask := by decide
  hDistinct := by decide
  hControlAddress := by decide
  hStoreAddress := by decide

/- One value, and address 0 elsewhere. -/
def valueFile : RegisterFile := fun i =>
  if i = 4#7 then set1 8 16 0x7f#8 else 0#128

/- A byte is put at address 5. -/
theorem insert_exact_cbd :
    ∃ t',
      interpretAll (spuEnv bareEnv) byteInsertion.words 0#32
          (threadOf valueFile) = .ok t' ∧
        t'.regs.rest =
          inserted .byte 5#32 (set1 8 16 0x7f#8)
            (fun _ => 0) :=
  insert_exact bareEnv byteInsertion 0#32
    (threadOf valueFile) ⟨by decide, by decide⟩

end Spu

end Ps3emu
