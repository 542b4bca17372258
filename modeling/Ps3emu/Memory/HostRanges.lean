import Ps3emu.Memory.GuestBytes
import Ps3emu.Spu.Image

/-
  Guest ranges that are given to the host by a pointer: the
  memory functions and the terminal of `sys.cpp`, and strings.

  Key definitions include:
    * `sysMemcpy`, `sysMemset`, `sysTtyWrite`
    * `Flat.Together`
    * `Copies`, `Sets`, `Passes`, `Reads`

  Key theorems include:
    * `copyLoop_eq`
    * `Flat.together_iff`
    * `readString_iff`
    * `ranges_iff`
-/

------------------------------------------------------------
-- Functions
------------------------------------------------------------

namespace Ps3emu

namespace MainMemory

/-
  The loop of `writeMemory` on a source that is read as it
  goes.
-/
def copyLoop
    (last : Ps3Uintptr)
    (granule : Option GranuleId) :
    Nat → MainMemory → Ps3Uintptr → HostPointer →
      Option MainMemory
  | 0, m, va, _ => if va = last then some m else none
  | fuel + 1, m, va, src =>
      if va = last then some m
      else
        let next := chunkEnd va last
        let size := (next - va).toNat
        (m.writeChunk va last (m.host.read src size) granule).bind
          (fun m' =>
            copyLoop last granule fuel m' next (src.add size))

def sysMemcpy
    (m : MainMemory)
    (dest src size : BitVec 64)
    (granule : Option GranuleId) : Option MainMemory :=
  let va : Ps3Uintptr := dest.setWidth 32
  let len : Ps3Uintptr := size.setWidth 32
  (m.getMemoryPointer (src.setWidth 32)).bind (fun srcptr =>
    if isSpecialVa va then some m
    else
      copyLoop (va + len) granule len.toNat (m.mark va len) va
        srcptr)

def sysMemset
    (m : MainMemory)
    (dest value size : BitVec 64)
    (granule : Option GranuleId) : Option MainMemory :=
  m.setMemory (dest.setWidth 32) (value.setWidth 8)
    (size.setWidth 32) granule

end MainMemory

/- The callbacks that a terminal channel goes to. -/
inductive TtyCallback where
  | stdout | stderr | spustdout
deriving DecidableEq

def ttyCallback (ch : BitVec 32) : Option TtyCallback :=
  if ch = 0#32 then some .stdout
  else if ch = 1#32 then some .stderr
  else if ch = 2#32 then some .spustdout
  else none

/- The call that is made, if any. -/
def sysTtyWrite
    (m : MainMemory)
    (ch buf len : BitVec 32) :
    Option (Option (TtyCallback × List Byte)) :=
  if len = 0#32 then some none
  else
    (m.getMemoryPointer buf).bind (fun p =>
      (ttyCallback ch).map (fun callback =>
        some (callback, m.host.read p len.toNat)))

------------------------------------------------------------
-- Ranges of Host Memory
------------------------------------------------------------

namespace Flat

/-
  The bytes of the range lie together in host memory, from
  the pointer of the first one on.
-/
def Together
    (m : MainMemory)
    (va : Ps3Uintptr)
    (n : Nat) : Prop :=
  ∀ i < n,
    m.getMemoryPointer (va + BitVec.ofNat 32 i) =
      (m.getMemoryPointer va).map (fun p => p.add i)

variable {va : Ps3Uintptr} {p : HostPointer} {m : MainMemory}

theorem read_eq_bytesAt
    {n : Nat}
    (hP : m.getMemoryPointer va = some p)
    (hTogether : Together m va n) :
    m.host.read p n = m.bytesAt va n := by
  apply List.map_congr_left
  intro i hI
  have hHere := hTogether i (List.mem_range.mp hI)
  rw [MainMemory.flat, MainMemory.byte, hHere, hP]
  rfl

/-
  Host memory is read where the guest bytes are, whatever
  they are, only if they lie together.
-/
theorem together_of_reads
    {n : Nat}
    (hRam : InRam m va n)
    (hP : m.getMemoryPointer va = some p)
    (hAll :
      ∀ host : HostMemory,
        host.read p n =
          MainMemory.bytesAt { m with host := host } va n) :
    Together m va n := by
  intro i hI
  rcases Option.isSome_iff_exists.mp (hRam i hI) with ⟨q, hQ⟩
  rw [hQ, hP, Option.map_some, Option.some.injEq]
  have hFits := hRam.fits (by omega)
  have hNat := toNat_add_ofNat va i (by omega)
  by_cases hBlock : q.block = p.block
  · have hLinear := m.getMemoryPointer_linear hP hQ hBlock.symm
    rcases p with ⟨b, o⟩
    rcases q with ⟨b', o'⟩
    obtain rfl : b' = b := hBlock
    rw [HostPointer.add, HostPointer.mk.injEq]
    rw [hNat] at hLinear
    dsimp only at hLinear ⊢
    exact ⟨rfl, by omega⟩
  · -- memory that tells the first block from all others
    obtain ⟨host, hHost⟩ :
        ∃ host : HostMemory, ∀ b o,
          host b o = if b = p.block then 0#8 else 1#8 :=
      ⟨fun b _ => if b = p.block then 0#8 else 1#8,
        fun _ _ => rfl⟩
    have hByte := congrArg (fun bytes => bytes[i]?) (hAll host)
    have hOther :
        MainMemory.byte { m with host := host }
            (va + BitVec.ofNat 32 i) =
          some 1#8 := by
      change (m.getMemoryPointer _).map _ = _
      rw [hQ, Option.map_some]
      dsimp only
      rw [hHost, if_neg hBlock]
    rw [MainMemory.getElem?_bytesAt _ _ hI, hOther] at hByte
    simp [HostMemory.read, hI, hHost] at hByte

/- The pointer of a range serves exactly such ranges. -/
theorem together_iff
    {n : Nat}
    (hRam : InRam m va n)
    (hP : m.getMemoryPointer va = some p) :
    (∀ host : HostMemory,
        host.read p n =
          MainMemory.bytesAt { m with host := host } va n) ↔
      Together m va n := by
  constructor
  · exact together_of_reads hRam hP
  · intro hTogether host
    exact
      read_eq_bytesAt (m := { m with host := host }) hP
        hTogether

end Flat

namespace HostMemory

theorem drop_read
    (h : HostMemory)
    (p : HostPointer)
    (k n : Nat) :
    (h.read p (k + n)).drop k = h.read (p.add k) n := by
  apply List.ext_getElem
  · simp
  · intro i hI hI'
    simp [HostMemory.read, HostPointer.add, Nat.add_assoc]

theorem take_read
    (h : HostMemory)
    (p : HostPointer)
    (k n : Nat) :
    (h.read p (k + n)).take k = h.read p k := by
  apply List.ext_getElem
  · simp
  · intro i hI hI'
    simp [HostMemory.read]

end HostMemory

namespace MainMemory

theorem writeChunk_congr
    (m : MainMemory)
    (va last : Ps3Uintptr)
    {src src' : List Byte}
    (granule : Option GranuleId)
    (hSame :
      src.take (chunkEnd va last - va).toNat =
        src'.take (chunkEnd va last - va).toNat) :
    m.writeChunk va last src granule =
      m.writeChunk va last src' granule := by
  unfold writeChunk
  dsimp only
  rw [hSame]

/-
  A source apart from the range that is written may as well
  be read before.
-/
theorem copyLoop_eq
    {last : Ps3Uintptr}
    {granule : Option GranuleId}
    (fuel : Nat)
    {m : MainMemory}
    {va w : Ps3Uintptr}
    {p : HostPointer}
    {n k : Nat}
    (hP : m.getMemoryPointer w = some p)
    (hWrap : w.toNat + (k + n) ≤ 2 ^ 32)
    (hRam : Flat.InRam m va n)
    (hLast : va.toNat + n = last.toNat)
    (hFar :
      ∀ a, distance w a < k + n → ¬ distance va a < n) :
    copyLoop last granule fuel m va (p.add k) =
      writeLoop last granule fuel m va
        (m.host.read (p.add k) n) := by
  induction fuel generalizing m va k n with
  | zero => rfl
  | succ fuel ih =>
      by_cases hEnd : va = last
      · rw [copyLoop, writeLoop, if_pos hEnd, if_pos hEnd]
      · have hPos : 0 < n := by
          by_contra hZero
          exact hEnd (BitVec.eq_of_toNat_eq (by omega))
        have hBound := hRam.fits hPos
        have hChunk := Flat.chunkSize (by omega) hPos hLast
        rw [copyLoop, writeLoop, if_neg hEnd, if_neg hEnd]
        dsimp only
        generalize hSize :
          (MainMemory.chunkEnd va last - va).toNat = size
            at hChunk ⊢
        have hLe := hChunk.le
        have hChunkPos := hChunk.pos
        have hRest : size + (n - size) = n := by omega
        have hTake :
            (m.host.read (p.add k) size).take size =
              (m.host.read (p.add k) n).take size := by
          rw [← hRest, HostMemory.take_read,
            List.take_of_length_le (by simp)]
        have hWhole :
            ∀ h : HostMemory,
              (h.read p (k + n)).drop (k + size) =
                h.read (p.add (k + size)) (n - size) := by
          intro h
          rw [← hRest, ← Nat.add_assoc, HostMemory.drop_read,
            Nat.add_sub_cancel_left]
        have hDrop :
            (m.host.read (p.add k) n).drop size =
              m.host.read (p.add (k + size)) (n - size) := by
          rw [← HostMemory.drop_read, List.drop_drop, hWhole]
        have hChunks :
            m.writeChunk va last
                (m.host.read (p.add k) size) granule =
              m.writeChunk va last (m.host.read (p.add k) n)
                granule :=
          m.writeChunk_congr va last granule
            (by rw [hSize]; exact hTake)
        rw [hChunks, hDrop]
        cases hWrite :
            m.writeChunk va last (m.host.read (p.add k) n)
              granule with
        | none => rfl
        | some m' =>
            have hPages : m'.pages = m.pages := by
              rcases Option.map_eq_some_iff.mp hWrite with
                ⟨q, -, rfl⟩
              rfl
            have hKept :
                m'.host.read p (k + n) =
                  m.host.read p (k + n) := by
              rcases Option.map_eq_some_iff.mp hWrite with
                ⟨q, hQ, rfl⟩
              apply m.read_write_of_far _ _ hQ hP hWrap
              intro a hNear hIn
              rw [List.length_take, HostMemory.length_read]
                at hIn
              exact hFar a hNear (by omega)
            have hNext := hChunk.toNat_next
            have hAdd : (p.add k).add size = p.add (k + size) := by
              rw [HostPointer.add, HostPointer.add,
                HostPointer.add, Nat.add_assoc]
            rw [Option.bind_some, Option.bind_some, hAdd,
              ← hWhole, ← hKept, hWhole]
            refine
              @ih m' (chunkEnd va last) (n - size) (k + size) ?_
                (by omega) ?_ (by omega) ?_
            · rw [getMemoryPointer, hPages]
              exact hP
            · rw [hChunk.next]
              exact (hRam.drop size).congr hPages
            · intro a hNear hIn
              apply hFar a (by omega)
              rw [distance, BitVec.toNat_sub] at hIn ⊢
              omega

end MainMemory

------------------------------------------------------------
-- Copies, Fills and the Terminal
------------------------------------------------------------

namespace HostRanges

variable {m : MainMemory} {granule : Option GranuleId}
variable {dest src size : BitVec 64}

def Apart (a b : Ps3Uintptr) (n : Nat) : Prop :=
  ∀ va, distance a va < n → ¬ distance b va < n

def Copies
    (m : MainMemory)
    (dest src size : BitVec 64)
    (granule : Option GranuleId) : Prop :=
  ∃ m',
    m.sysMemcpy dest src size granule = some m' ∧
      m.Puts m' (dest.setWidth 32)
        (m.bytesAt (src.setWidth 32) size.toNat)

def Sets
    (m : MainMemory)
    (dest value size : BitVec 64)
    (granule : Option GranuleId) : Prop :=
  ∃ m',
    m.sysMemset dest value size granule = some m' ∧
      m.Puts m' (dest.setWidth 32)
        (List.replicate size.toNat (value.setWidth 8))

def Passes
    (m : MainMemory)
    (ch buf len : BitVec 32) : Prop :=
  sysTtyWrite m ch buf len =
    some
      (if len = 0#32 then none
        else
          (ttyCallback ch).map (fun callback =>
            (callback, m.bytesAt buf len.toNat)))

/- A size that fits ordinary memory is not cut. -/
theorem toNat_size
    {va : Ps3Uintptr}
    (hRam : Flat.InRam m va size.toNat) :
    (size.setWidth 32).toNat = size.toNat := by
  rw [BitVec.toNat_setWidth]
  apply Nat.mod_eq_of_lt
  rcases Nat.eq_zero_or_pos size.toNat with hZero | hPos
  · omega
  · have hFits := hRam.fits hPos
    omega

theorem sysMemcpy_eq
    {p : HostPointer}
    (hDest : Flat.InRam m (dest.setWidth 32) size.toNat)
    (hSrc : Flat.InRam m (src.setWidth 32) size.toNat)
    (hApart :
      Apart (src.setWidth 32) (dest.setWidth 32) size.toNat)
    (hP : m.getMemoryPointer (src.setWidth 32) = some p) :
    m.sysMemcpy dest src size granule =
      m.writeMemory (dest.setWidth 32)
        (m.host.read p size.toNat) granule := by
  unfold MainMemory.sysMemcpy MainMemory.writeMemory
  dsimp only
  rw [hP, Option.bind_some, HostMemory.length_read,
    toNat_size hDest]
  split
  case isTrue => rfl
  case isFalse hOrdinary =>
    have hLen :
        BitVec.ofNat 32 size.toNat = size.setWidth 32 := by
      apply BitVec.eq_of_toNat_eq
      rw [BitVec.toNat_ofNat, BitVec.toNat_setWidth]
    rw [isSpecialVa_iff] at hOrdinary
    have hBounds :
        (src.setWidth 32).toNat + size.toNat ≤ 2 ^ 32 ∧
          (dest.setWidth 32).toNat + size.toNat < 2 ^ 32 := by
      rcases Nat.eq_zero_or_pos size.toNat with hZero | hPos
      · have hLt := (src.setWidth 32).isLt
        omega
      · have hFits := hDest.fits hPos
        have hFits' := hSrc.fits hPos
        omega
    rw [hLen]
    exact
      MainMemory.copyLoop_eq (k := 0) (w := src.setWidth 32)
        size.toNat hP (by omega) (hDest.congr rfl)
        (by
          rw [← hLen]
          exact (toNat_add_ofNat _ _ hBounds.2).symm)
        (by rw [Nat.zero_add]; exact hApart)

theorem copies_iff_from
    (hDest : Flat.InRam m (dest.setWidth 32) size.toNat)
    (hSrc : Flat.InRam m (src.setWidth 32) size.toNat)
    (hApart :
      Apart (src.setWidth 32) (dest.setWidth 32) size.toNat) :
    (∀ host,
        Copies { m with host := host } dest src size granule) ↔
      (m.getMemoryPointer (src.setWidth 32)).isSome ∧
        Flat.Together m (src.setWidth 32) size.toNat := by
  have hPuts :
      ∀ (host : HostMemory) (p : HostPointer),
        m.getMemoryPointer (src.setWidth 32) = some p →
          ∃ m',
            MainMemory.sysMemcpy { m with host := host } dest
                src size granule =
              some m' ∧
            MainMemory.Puts { m with host := host } m'
              (dest.setWidth 32) (host.read p size.toNat) := by
    intro host p hP
    rw [sysMemcpy_eq (m := { m with host := host }) hDest hSrc
      hApart hP]
    apply Flat.writeMemory_puts
    rw [HostMemory.length_read]
    exact hDest
  constructor
  · intro hAll
    rcases hAll m.host with ⟨m', hCopy, -⟩
    rcases Option.bind_eq_some_iff.mp hCopy with ⟨p, hP, -⟩
    refine
      ⟨Option.isSome_iff_exists.mpr ⟨p, hP⟩,
        Flat.together_of_reads hSrc hP (fun host => ?_)⟩
    rcases hPuts host p hP with ⟨m₁, hCopy₁, -, hBytes₁, -⟩
    rcases hAll host with ⟨m₂, hCopy₂, -, hBytes₂, -⟩
    rw [hCopy₁, Option.some.injEq] at hCopy₂
    rw [HostMemory.length_read] at hBytes₁
    rw [MainMemory.length_bytesAt, ← hCopy₂, hBytes₁] at hBytes₂
    exact hBytes₂
  · rintro ⟨hPointer, hTogether⟩ host
    rcases Option.isSome_iff_exists.mp hPointer with ⟨p, hP⟩
    rcases hPuts host p hP with ⟨m', hCopy, hPut⟩
    rw [(Flat.together_iff hSrc hP).mpr hTogether host] at hPut
    exact ⟨m', hCopy, hPut⟩

theorem sets
    (value : BitVec 64)
    (hDest : Flat.InRam m (dest.setWidth 32) size.toNat) :
    Sets m dest value size granule := by
  unfold Sets MainMemory.sysMemset MainMemory.setMemory
  rw [toNat_size hDest]
  apply Flat.writeMemory_puts
  rw [List.length_replicate]
  exact hDest

theorem passes_iff
    {ch buf len : BitVec 32}
    (hChannel : (ttyCallback ch).isSome)
    (hBuf : Flat.InRam m buf len.toNat) :
    (∀ host, Passes { m with host := host } ch buf len) ↔
      Flat.Together m buf len.toNat := by
  by_cases hZero : len = 0#32
  · subst hZero
    exact
      iff_of_true (fun host => rfl)
        (fun i hI => absurd hI (Nat.not_lt_zero i))
  · have hPos : 0 < len.toNat := by
      apply Nat.pos_of_ne_zero
      exact fun h => hZero (BitVec.eq_of_toNat_eq h)
    rcases hBuf.pointer hPos with ⟨p, hP⟩
    rcases Option.isSome_iff_exists.mp hChannel with
      ⟨callback, hCallback⟩
    rw [← Flat.together_iff hBuf hP]
    apply forall_congr'
    intro host
    have hPointer :
        MainMemory.getMemoryPointer { m with host := host }
          buf = some p := hP
    rw [Passes, sysTtyWrite, if_neg hZero, if_neg hZero,
      hPointer, hCallback, Option.bind_some, Option.map_some,
      Option.map_some]
    simp only [Option.some.injEq, Prod.mk.injEq, true_and]

------------------------------------------------------------
-- Strings
------------------------------------------------------------

/- Only allocated pages are read. -/
theorem inRam_of_readLoop
    {last : Ps3Uintptr}
    (fuel : Nat)
    {va : Ps3Uintptr}
    {n : Nat}
    {dest out : List Byte}
    (hLast : va.toNat + n = last.toNat)
    (hRead : m.readLoop last fuel va dest = some out) :
    Flat.InRam m va n := by
  induction fuel generalizing va n dest with
  | zero =>
      rw [MainMemory.readLoop] at hRead
      split at hRead
      case isTrue hEnd =>
        intro i hI
        rw [hEnd] at hLast
        omega
      case isFalse => cases hRead
  | succ fuel ih =>
      rw [MainMemory.readLoop] at hRead
      split at hRead
      case isTrue hEnd =>
        intro i hI
        rw [hEnd] at hLast
        omega
      case isFalse hNot =>
        have hPos : 0 < n := by
          by_contra hZero
          exact hNot (BitVec.eq_of_toNat_eq (by omega))
        rcases Option.bind_eq_some_iff.mp hRead with
          ⟨p, hP, hRest⟩
        have hLt := m.toNat_lt_of_pointer hP
        have hChunk := Flat.chunkSize hLt hPos hLast
        have hTogether :=
          @Flat.chunk_together m p va last hP (by omega)
        generalize
          (MainMemory.chunkEnd va last - va).toNat = k
            at hChunk hTogether hRest
        have hNext := hChunk.toNat_next
        have hLe := hChunk.le
        have hTail := ih (n := n - k) (by omega) hRest
        intro i hI
        by_cases hHere : i < k
        · rw [hTogether i hHere]
          rfl
        · have hSome := hTail (i - k) (by omega)
          rw [hChunk.next, BitVec.add_assoc, ← BitVec.ofNat_add,
            Nat.add_sub_cancel' (by omega)] at hSome
          exact hSome

theorem of_readMemory
    {va : Ps3Uintptr}
    {bytes : List Byte}
    (hWrap : va.toNat + 16 < 2 ^ 32)
    (hRead : m.readMemory va 16#32 = some bytes) :
    Flat.InRam m va 16 ∧ bytes = m.bytesAt va 16 := by
  have hLast := toNat_add_ofNat va 16 hWrap
  have hRam : Flat.InRam m va 16 := by
    unfold MainMemory.readMemory at hRead
    rw [if_neg (fun h => absurd h.1 (by decide))] at hRead
    exact inRam_of_readLoop _ hLast.symm hRead
  rw [Flat.readMemory_eq (Flat.agrees_flat m) va 16#32 hRam]
    at hRead
  exact ⟨hRam, (Option.some.inj hRead).symm⟩

theorem inRam_add
    {va : Ps3Uintptr}
    {a b : Nat}
    (hFirst : Flat.InRam m va a)
    (hSecond : Flat.InRam m (va + BitVec.ofNat 32 a) b) :
    Flat.InRam m va (a + b) := by
  intro i hI
  by_cases hHere : i < a
  · exact hFirst i hHere
  · have hSome := hSecond (i - a) (by omega)
    rwa [BitVec.add_assoc, ← BitVec.ofNat_add,
      Nat.add_sub_cancel' (by omega)] at hSome

/- A string of `n` bytes and the zero that ends it. -/
structure IsString
    (m : MainMemory)
    (va : Ps3Uintptr)
    (n : Nat) : Prop where
  inRam : Flat.InRam m va (n + 1)
  before :
    ∀ i < n, m.flat (va + BitVec.ofNat 32 i) ≠ 0
  zero : m.flat (va + BitVec.ofNat 32 n) = 0

def Reads
    (m : MainMemory)
    (va : Ps3Uintptr)
    (n : Nat) : Prop :=
  SysSpu.readString m va = some (m.bytesAt va n)

variable {va : Ps3Uintptr} {n : Nat}

section

variable (hString : IsString m va n)

include hString

theorem zero_mem_bytesAt
    (k : Nat) :
    0 ∈ m.bytesAt va k ↔ n < k := by
  rw [MainMemory.bytesAt, FlatMemory.get, List.mem_map]
  constructor
  · rintro ⟨i, hI, hZero⟩
    have hLt := List.mem_range.mp hI
    by_contra hNot
    exact hString.before i (by omega) hZero
  · intro hLt
    exact ⟨n, List.mem_range.mpr hLt, hString.zero⟩

theorem takeWhile_bytesAt
    {k : Nat}
    (hLt : n < k) :
    (m.bytesAt va k).takeWhile (fun c => c ≠ 0) =
      m.bytesAt va n := by
  have hBefore :
      ∀ c ∈ m.bytesAt va n, decide (c ≠ 0) = true := by
    intro c hC
    rw [decide_eq_true_eq]
    rintro rfl
    exact absurd ((zero_mem_bytesAt hString n).mp hC) (by omega)
  have hSplit :
      m.bytesAt va k =
        m.bytesAt va n ++
          0 :: m.bytesAt (va + BitVec.ofNat 32 n + 1#32)
            (k - n - 1) := by
    have hLen : k = n + (1 + (k - n - 1)) := by omega
    have hHere :
        m.bytesAt (va + BitVec.ofNat 32 n) 1 = [0] := by
      have hZero := hString.zero
      rw [← BitVec.add_zero (va + BitVec.ofNat 32 n)] at hZero
      exact congrArg (fun c => [c]) hZero
    conv_lhs => rw [hLen]
    rw [MainMemory.bytesAt, FlatMemory.get_add,
      FlatMemory.get_add]
    exact congrArg (fun l => _ ++ (l ++ _)) hHere
  rw [hSplit, List.takeWhile_append_of_pos hBefore,
    List.takeWhile_cons_of_neg (by decide), List.append_nil]

/- The loop at a chunk that starts before the zero. -/
theorem readStringLoop_iff
    (fuel : Nat)
    {c : Nat}
    (hC : c ≤ n / 16)
    (hFuel : n / 16 < c + fuel)
    (hIn : Flat.InRam m va (16 * c)) :
    SysSpu.readStringLoop m va fuel
          (BitVec.ofNat 32 (16 * c)) (m.bytesAt va (16 * c)) =
        some (m.bytesAt va n) ↔
      Flat.InRam m va (16 * (n / 16 + 1)) := by
  induction fuel generalizing c with
  | zero => omega
  | succ fuel ih =>
      have hFits := hString.inRam.fits (Nat.succ_pos n)
      have hStart := toNat_add_ofNat va (16 * c) (by omega)
      rw [SysSpu.readStringLoop]
      cases hRead :
          m.readMemory (va + BitVec.ofNat 32 (16 * c)) 16#32 with
      | none =>
          refine iff_of_false (fun h => by cases h) ?_
          intro hWhole
          have hChunk :
              Flat.InRam m (va + BitVec.ofNat 32 (16 * c)) 16 := by
            intro i hI
            exact hWhole.drop (16 * c) i (by omega)
          rw [Flat.readMemory_eq (Flat.agrees_flat m) _ 16#32
            hChunk] at hRead
          cases hRead
      | some chunk =>
          rcases of_readMemory (by omega) hRead with
            ⟨hChunk, rfl⟩
          have hNext : Flat.InRam m va (16 * (c + 1)) :=
            inRam_add hIn hChunk
          have hBytes :
              m.bytesAt va (16 * c) ++
                  m.bytesAt (va + BitVec.ofNat 32 (16 * c)) 16 =
                m.bytesAt va (16 * (c + 1)) :=
            (FlatMemory.get_add _ _ _ _).symm
          rw [Option.bind_some, hBytes]
          by_cases hEnd : n < 16 * (c + 1)
          · obtain rfl : c = n / 16 := by omega
            rw [if_pos ((zero_mem_bytesAt hString _).mpr hEnd),
              takeWhile_bytesAt hString hEnd]
            exact iff_of_true rfl hNext
          · rw [if_neg
              (fun h => hEnd ((zero_mem_bytesAt hString _).mp h))]
            have hPos :
                BitVec.ofNat 32 (16 * c) + 16#32 =
                  BitVec.ofNat 32 (16 * (c + 1)) :=
              (BitVec.ofNat_add _ _).symm
            rw [hPos]
            exact ih (by omega) (by omega) hNext

/- A string is read if the chunk of its zero is allocated. -/
theorem reads_iff :
    Reads m va n ↔ Flat.InRam m va (16 * (n / 16 + 1)) := by
  have hFits := hString.inRam.fits (Nat.succ_pos n)
  exact
    readStringLoop_iff hString (2 ^ 28) (c := 0)
      (Nat.zero_le _) (by omega)
      (fun i hI => absurd hI (Nat.not_lt_zero i))

end

------------------------------------------------------------
-- Correctness
------------------------------------------------------------

/-
  Whatever memory holds, the functions do what they are for
  when the ranges that are given by one pointer lie together
  in host memory and the last chunk of the string is on
  allocated pages.
-/
theorem ranges_iff
    (m : MainMemory)
    (granule : Option GranuleId)
    (dest src size value : BitVec 64)
    (ch buf len : BitVec 32)
    (va : Ps3Uintptr)
    (n : Nat)
    (hDest : Flat.InRam m (dest.setWidth 32) size.toNat)
    (hSrc : Flat.InRam m (src.setWidth 32) size.toNat)
    (hApart :
      Apart (src.setWidth 32) (dest.setWidth 32) size.toNat)
    (hChannel : (ttyCallback ch).isSome)
    (hBuf : Flat.InRam m buf len.toNat)
    (hString : IsString m va n) :
    (∀ host,
          Copies { m with host := host } dest src size granule ∧
            Sets { m with host := host } dest value size
                granule ∧
              Passes { m with host := host } ch buf len) ∧
        Reads m va n ↔
      ((m.getMemoryPointer (src.setWidth 32)).isSome ∧
          Flat.Together m (src.setWidth 32) size.toNat) ∧
        Flat.Together m buf len.toNat ∧
          Flat.InRam m va (16 * (n / 16 + 1)) := by
  have hCopies :=
    @copies_iff_from m granule dest src size hDest hSrc hApart
  rw [← hCopies,
    ← passes_iff hChannel hBuf, ← reads_iff hString]
  constructor
  · rintro ⟨hAll, hReads⟩
    exact
      ⟨fun host => (hAll host).1,
        fun host => (hAll host).2.2, hReads⟩
  · rintro ⟨hCopies, hPasses, hReads⟩
    refine
      ⟨fun host => ⟨hCopies host, ?_, hPasses host⟩, hReads⟩
    exact sets (m := { m with host := host }) value hDest

theorem isString_reset :
    IsString MainMemory.reset 0x100000#32 0 where
  inRam := by
    unfold Flat.InRam
    decide
  before i hI := absurd hI (Nat.not_lt_zero i)
  zero := rfl

/- Four bytes from one page to another, and an empty string. -/
theorem ranges_iff_words :
    (∀ host,
          Copies { MainMemory.reset with host := host }
              0x200000#64 0x100000#64 4#64 none ∧
            Sets { MainMemory.reset with host := host }
                0x200000#64 0#64 4#64 none ∧
              Passes { MainMemory.reset with host := host } 0#32
                0x100000#32 4#32) ∧
        Reads MainMemory.reset 0x100000#32 0 ↔
      ((MainMemory.reset.getMemoryPointer
            ((0x100000#64).setWidth 32)).isSome ∧
          Flat.Together MainMemory.reset
            ((0x100000#64).setWidth 32) (4#64).toNat) ∧
        Flat.Together MainMemory.reset 0x100000#32
            (4#32).toNat ∧
          Flat.InRam MainMemory.reset 0x100000#32
            (16 * (0 / 16 + 1)) :=
  ranges_iff MainMemory.reset none 0x200000#64 0x100000#64 4#64
    0#64 0#32 0x100000#32 4#32 0x100000#32 0
    (by unfold Flat.InRam; decide)
    (by unfold Flat.InRam; decide)
    (by
      intro a hNear hIn
      rw [distance, BitVec.toNat_sub] at hNear hIn
      simp only [BitVec.toNat_setWidth, BitVec.toNat_ofNat]
        at hNear hIn
      omega)
    (by decide) (by unfold Flat.InRam; decide) isString_reset

/- Memory with a one at the start of the third page. -/
def marked : MainMemory :=
  { MainMemory.reset with
    host := fun b o => if b = 2 ∧ o = 0 then 1#8 else 0#8 }

/- The fourth byte of the source is on the next page. -/
theorem memcpy_not_copies :
    ¬ ∀ (m : MainMemory)
        (granule : Option GranuleId)
        (dest src size : BitVec 64),
        Flat.InRam m (dest.setWidth 32) size.toNat →
          Flat.InRam m (src.setWidth 32) size.toNat →
            Apart (src.setWidth 32) (dest.setWidth 32)
                size.toNat →
              Copies m dest src size granule := by
  intro hAll
  have hDest :
      Flat.InRam marked ((0x300000#64).setWidth 32)
        (4#64).toNat := by
    unfold Flat.InRam
    decide
  have hSrc :
      Flat.InRam marked ((0x1ffffd#64).setWidth 32)
        (4#64).toNat := by
    unfold Flat.InRam
    decide
  have hApart :
      Apart ((0x1ffffd#64).setWidth 32)
        ((0x300000#64).setWidth 32) (4#64).toNat := by
    intro a hNear hIn
    rw [distance, BitVec.toNat_sub] at hNear hIn
    simp only [BitVec.toNat_setWidth, BitVec.toNat_ofNat]
      at hNear hIn
    omega
  rcases hAll marked none 0x300000#64 0x1ffffd#64 4#64 hDest
      hSrc hApart with
    ⟨m', hCopy, -, hBytes, -⟩
  rw [sysMemcpy_eq (p := ⟨1, 0xffffd⟩) hDest hSrc hApart rfl]
    at hCopy
  rcases @Flat.writeMemory_puts marked
      ((0x300000#64).setWidth 32)
      (marked.host.read ⟨1, 0xffffd⟩ (4#64).toNat) none
      (by rw [HostMemory.length_read]; exact hDest) with
    ⟨m'', hWrite, -, hRead, -⟩
  rw [hCopy, Option.some.injEq] at hWrite
  rw [MainMemory.length_bytesAt, hWrite] at hBytes
  rw [HostMemory.length_read, hBytes] at hRead
  revert hRead
  decide

end HostRanges

end Ps3emu
