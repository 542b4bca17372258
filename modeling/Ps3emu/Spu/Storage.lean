import Ps3emu.Library.FlatMemory
import Ps3emu.Ppu.VectorUnaligned
import Ps3emu.Spu.Compute
import Ps3emu.Spu.Interpreter

/-
  The loads and stores of quadwords in the local storage,
  and the interpreter with them and with the instructions on
  registers.

  Key definitions include:
    * `quadAt`, `setQuad`
    * `emulateMemory`
    * `spuEnv`, `Yields`

  Key theorems include:
    * `byte_quadAt`
    * `setQuad_apply`
    * `yields_iff`
-/

------------------------------------------------------------
-- Quadwords, Loads and Stores
------------------------------------------------------------

namespace Ps3emu

namespace Spu

open Lanes Sse
open Ppu (LaneSpec ofHostBytes endianSwapMask128)

/- The bytes of a vector in host memory. -/
def hostBytes (value : R128) : List Byte :=
  (List.range 16).map (lane 8 value)

/- `_mm_lddqu_si128`, and the bytes in the opposite order. -/
def quadAt
    (ls : FlatMemory 18)
    (lsa : BitVec 32) : R128 :=
  shuffleEpi8 (ofHostBytes (ls.get (lsa.setWidth 18) 16))
    endianSwapMask128

def setQuad
    (ls : FlatMemory 18)
    (lsa : BitVec 32)
    (value : R128) : FlatMemory 18 :=
  ls.set (lsa.setWidth 18)
    (hostBytes (shuffleEpi8 value endianSwapMask128))

theorem byte_quadAt
    (ls : FlatMemory 18)
    (lsa : BitVec 32)
    {n : Nat}
    (hN : n < 16) :
    (quadAt ls lsa).b n =
      ls (lsa.setWidth 18 + BitVec.ofNat 18 n) := by
  refine (Ppu.laneBE_swapped _ hN).trans ?_
  rw [List.getD_eq_getElem _ _ (by simpa using hN)]
  simp [FlatMemory.get]

theorem getD_hostBytes
    (value : R128)
    {n : Nat}
    (hN : n < 16) :
    (hostBytes (shuffleEpi8 value endianSwapMask128)).getD n
        0 =
      value.b n := by
  have hSelect := select_ofNat (show 15 - n < 16 by omega)
  rw [List.getD_eq_getElem _ _ (by simpa [hostBytes] using hN)]
  simp only [hostBytes, List.getElem_map, List.getElem_range]
  rw [lane_shuffleEpi8 _ _ hN,
    Ppu.lane_endianSwapMask128 n hN, hSelect.1, hSelect.2]
  rfl

theorem setQuad_apply
    (ls : FlatMemory 18)
    (lsa : BitVec 32)
    (value : R128)
    (x : BitVec 18) :
    setQuad ls lsa value x =
      if (x - lsa.setWidth 18).toNat < 16 then
        value.b (x - lsa.setWidth 18).toNat
      else ls x := by
  have hLength :
      (hostBytes (shuffleEpi8 value endianSwapMask128)).length =
        16 := by
    simp [hostBytes]
  unfold setQuad FlatMemory.set
  rw [hLength]
  split
  case isTrue hIn => exact getD_hostBytes value hIn
  case isFalse => rfl

/- The addresses of the `d` and `x` forms. -/
def lsaD
    (x : BitVec 32)
    (r : RegisterFile) : BitVec 32 :=
  ((r (ra x)).w 0 + (i10 x).signExtend 32 <<< 4) &&&
    lslr &&& 0xfffffff0#32

def lsaX
    (x : BitVec 32)
    (r : RegisterFile) : BitVec 32 :=
  ((r (ra x)).w 0 + (r (rb x)).w 0) &&& lslr &&&
    0xfffffff0#32

def load
    (lsa x : BitVec 32)
    (r : Registers (FlatMemory 18)) :
    Registers (FlatMemory 18) :=
  r.set (rt x) (quadAt r.rest lsa)

def store
    (lsa x : BitVec 32)
    (r : Registers (FlatMemory 18)) :
    Registers (FlatMemory 18) :=
  { r with rest := setQuad r.rest lsa (r.r (rt x)) }

def emulateMemory
    (j : MemoryInstr)
    (x : BitVec 32)
    (cia : BitVec 64)
    (r : Registers (FlatMemory 18)) :
    Registers (FlatMemory 18) :=
  match j with
  | .lqd => load (lsaD x r.r) x r
  | .lqx => load (lsaX x r.r) x r
  | .lqa => load (abs_lsa x) x r
  | .lqr => load (cia_lsa x (cia.setWidth 32)) x r
  | .stqd => store (lsaD x r.r) x r
  | .stqx => store (lsaX x r.r) x r
  | .stqa => store (abs_lsa x) x r
  | .stqr => store (cia_lsa x (cia.setWidth 32)) x r

------------------------------------------------------------
-- Interpreter
------------------------------------------------------------

/-
  The interpreter with what is modelled here.  The rest, such
  as channels and floating point, is that of `base`.
-/
def spuEnv (base : Env (FlatMemory 18)) : Env (FlatMemory 18) :=
  { base with
    memory := fun j x cia r => .ok (emulateMemory j x cia r)
    compute := fun j x r =>
      match emulateCompute j x with
      | some f => .ok { r with r := f r.r }
      | none => base.compute j x r }

/- Nothing else is there. -/
def bareEnv : Env (FlatMemory 18) where
  memory := fun _ _ _ _ => .error .other
  compute := fun _ _ _ => .error .other
  read := fun _ _ => .error .other
  readCount := fun _ _ => .error .other
  write := fun _ _ _ => .error .other

/- A thread at address 0 with a cleared local storage. -/
def threadOf (r : RegisterFile) : Thread (FlatMemory 18) where
  nip := 0#32
  regs := ⟨r, 0#32, fun _ => 0⟩

variable (base : Env (FlatMemory 18))

theorem emulateInstr_compute
    {j : ComputeInstr}
    {x : BitVec 32}
    {f : RegisterFile → RegisterFile}
    (hBody : emulateCompute j x = some f)
    (cia : BitVec 64)
    (t : Thread (FlatMemory 18)) :
    emulateInstr (spuEnv base) (.compute j) x cia t =
      .ok { t with regs := { t.regs with r := f t.regs.r } } := by
  simp only [emulateInstr, onRegisters, spuEnv, hBody]
  rfl

/-
  The lanes of a specification are put in one register, and
  nothing else changes.
-/
def Yields
    (spec : Option LaneSpec)
    (rt : BitVec 7)
    (t : Thread (FlatMemory 18))
    (result : Except Fault (Thread (FlatMemory 18))) : Prop :=
  ∀ s, spec = some s →
    ∃ r',
      result = .ok { t with regs := { t.regs with r := r' } } ∧
        Sets rt s t.regs.r r'

theorem yields_iff
    {j : ComputeInstr}
    {x : BitVec 32}
    {f : RegisterFile → RegisterFile}
    (hBody : emulateCompute j x = some f)
    (cia : BitVec 64)
    (t : Thread (FlatMemory 18))
    (spec : Option LaneSpec)
    (rt : BitVec 7) :
    Yields spec rt t
        (emulateInstr (spuEnv base) (.compute j) x cia t) ↔
      ∀ s, spec = some s → Sets rt s t.regs.r (f t.regs.r) := by
  rw [emulateInstr_compute base hBody]
  constructor
  · intro hYields s hSpec
    rcases hYields s hSpec with ⟨r', hResult, hSets⟩
    have hFile : f t.regs.r = r' :=
      congrArg (fun t => t.regs.r) (Except.ok.inj hResult)
    rwa [hFile]
  · intro hSets s hSpec
    exact ⟨_, rfl, hSets s hSpec⟩

end Spu

end Ps3emu
