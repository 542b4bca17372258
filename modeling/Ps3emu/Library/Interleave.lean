import Mathlib.Data.Nat.Bitwise
import Mathlib.Logic.Function.Basic

/-
  Numbers made of the bits of several coordinates, in an order
  in which the coordinates take turns.  A list names, from the
  lowest bit on, the coordinate whose next bit is taken.

  Key definitions include:
    * `Interleave.encode`, `Interleave.decode`

  Key theorems include:
    * `Interleave.encode_decode`, `Interleave.decode_encode`
    * `Interleave.encode_injective`
    * `Interleave.encode_append`
    * `Interleave.testBit_encode`
-/

------------------------------------------------------------
-- Turns and Bits
------------------------------------------------------------

namespace Ps3emu

namespace Interleave

variable {ι : Type} [DecidableEq ι]

/- Take the lowest bit of each coordinate whose turn it is. -/
def encode : List ι → (ι → Nat) → Nat
  | [], _ => 0
  | c :: turns, f =>
      f c % 2 + 2 * encode turns (Function.update f c (f c / 2))

/- Give each bit to the coordinate whose turn it is. -/
def decode : List ι → Nat → ι → Nat
  | [], _ => fun _ => 0
  | c :: turns, n =>
      let f := decode turns (n / 2)
      Function.update f c (n % 2 + 2 * f c)

theorem encode_lt
    (turns : List ι)
    (f : ι → Nat) :
    encode turns f < 2 ^ turns.length := by
  induction turns generalizing f with
  | nil => exact Nat.one_pos
  | cons c turns ih =>
      have hRest := ih (Function.update f c (f c / 2))
      rw [encode, List.length_cons, Nat.pow_succ]
      omega

theorem decode_lt
    (turns : List ι)
    (n : Nat)
    (i : ι) :
    decode turns n i < 2 ^ turns.count i := by
  induction turns generalizing n with
  | nil => exact Nat.one_pos
  | cons c turns ih =>
      have hRest := ih (n / 2)
      rw [decode, List.count_cons]
      by_cases hSame : i = c
      · rw [hSame] at hRest ⊢
        rw [Function.update_self, if_pos (beq_self_eq_true c),
          Nat.pow_succ]
        omega
      · rw [Function.update_of_ne hSame,
          if_neg (fun hEq => hSame (beq_iff_eq.mp hEq).symm)]
        exact hRest

/- Every number with as many bits is made of coordinates. -/
theorem encode_decode
    (turns : List ι)
    {n : Nat}
    (hN : n < 2 ^ turns.length) :
    encode turns (decode turns n) = n := by
  induction turns generalizing n with
  | nil => exact (Nat.lt_one_iff.mp hN).symm
  | cons c turns ih =>
      rw [List.length_cons, Nat.pow_succ] at hN
      have hRest := @ih (n / 2) (by omega)
      have hHalf :
          (n % 2 + 2 * decode turns (n / 2) c) / 2 =
            decode turns (n / 2) c := by
        omega
      rw [encode, decode, Function.update_self, hHalf,
        Function.update_idem, Function.update_eq_self, hRest]
      omega

/- Coordinates of as many bits as turns are found again. -/
theorem decode_encode
    {turns : List ι}
    {f : ι → Nat}
    (hF : ∀ i, f i < 2 ^ turns.count i) :
    decode turns (encode turns f) = f := by
  induction turns generalizing f with
  | nil =>
      funext i
      exact (Nat.lt_one_iff.mp (hF i)).symm
  | cons c turns ih =>
      have hRest :
          ∀ i,
            Function.update f c (f c / 2) i <
              2 ^ turns.count i := by
        intro i
        have hI := hF i
        rw [List.count_cons] at hI
        by_cases hSame : i = c
        · rw [hSame] at hI ⊢
          rw [if_pos (beq_self_eq_true c), Nat.pow_succ] at hI
          rw [Function.update_self]
          omega
        · rw [if_neg
            (fun hEq => hSame (beq_iff_eq.mp hEq).symm)] at hI
          rw [Function.update_of_ne hSame]
          exact hI
      have hHalf :
          (f c % 2 +
              2 * encode turns (Function.update f c (f c / 2))) /
              2 =
            encode turns (Function.update f c (f c / 2)) := by
        omega
      have hLow :
          (f c % 2 +
              2 * encode turns (Function.update f c (f c / 2))) %
              2 =
            f c % 2 := by
        omega
      rw [encode, decode, hHalf, hLow, ih hRest,
        Function.update_self, Function.update_idem,
        Nat.mod_add_div, Function.update_eq_self]

theorem encode_injective
    {turns : List ι}
    {f g : ι → Nat}
    (hF : ∀ i, f i < 2 ^ turns.count i)
    (hG : ∀ i, g i < 2 ^ turns.count i)
    (hEq : encode turns f = encode turns g) :
    f = g := by
  rw [← decode_encode hF, hEq, decode_encode hG]

/- Later turns find the coordinates shifted. -/
theorem encode_append
    (turns turns' : List ι)
    (f : ι → Nat) :
    encode (turns ++ turns') f =
      encode turns f +
        2 ^ turns.length *
          encode turns' (fun i => f i / 2 ^ turns.count i) := by
  induction turns generalizing f with
  | nil =>
      simp only [List.nil_append, encode, List.length_nil,
        List.count_nil, Nat.pow_zero, Nat.div_one, Nat.one_mul,
        Nat.zero_add]
  | cons c turns ih =>
      have hShift :
          (fun i =>
              Function.update f c (f c / 2) i /
                2 ^ turns.count i) =
            fun i => f i / 2 ^ (c :: turns).count i := by
        funext i
        rw [List.count_cons]
        by_cases hSame : i = c
        · rw [hSame, Function.update_self,
            if_pos (beq_self_eq_true c), Nat.div_div_eq_div_mul,
            Nat.pow_succ']
        · rw [Function.update_of_ne hSame,
            if_neg (fun hEq => hSame (beq_iff_eq.mp hEq).symm)]
          rfl
      rw [List.cons_append, encode, encode, ih, hShift,
        List.length_cons, Nat.pow_succ', Nat.mul_add,
        ← Nat.mul_assoc, Nat.add_assoc]

/- The bit of a turn, after as many others of its coordinate. -/
theorem testBit_encode
    (turns turns' : List ι)
    (c : ι)
    (f : ι → Nat) :
    (encode (turns ++ c :: turns') f).testBit turns.length =
      (f c).testBit (turns.count c) := by
  have hLt := encode_lt turns f
  rw [encode_append, Nat.add_comm,
    Nat.testBit_two_pow_mul_add _ hLt,
    if_neg (Nat.lt_irrefl _), Nat.sub_self, encode,
    Nat.testBit_zero, Nat.add_mul_mod_self_left, Nat.mod_mod,
    Nat.testBit_eq_decide_div_mod_eq]

end Interleave

end Ps3emu
