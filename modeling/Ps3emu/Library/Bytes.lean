import Mathlib.Data.Nat.Digits.Defs

/-
  Fixed-width words and their byte sequences in both byte
  orders.  A word of `w` bytes is a bit vector of width
  `8 * w`; byte sequences are lists of 8-bit vectors.

  Key definitions include:
    * `Bytes.littleEndian`, `Bytes.ofLittleEndian`
    * `Bytes.bigEndian`, `Bytes.ofBigEndian`
    * `Bytes.reverseWord`

  Key theorems include:
    * `Bytes.ofLittleEndian_littleEndian`
    * `Bytes.littleEndian_ofLittleEndian`
    * `Bytes.littleEndian_reverseWord`
    * `Bytes.reverseWord_ofLittleEndian`
    * `Bytes.getElem?_littleEndian`
    * `Bytes.setWidth_reverseWord`
-/

------------------------------------------------------------
-- Digits and Byte Orders
------------------------------------------------------------

namespace Ps3emu

/- One byte of memory. -/
abbrev Byte := BitVec 8

/- A word of `w` bytes. -/
abbrev Word (w : Nat) := BitVec (8 * w)

namespace Bytes

/- The `w` low-order base-256 digits of `n`, lowest first. -/
def digits : Nat → Nat → List Byte
  | 0, _ => []
  | w + 1, n => BitVec.ofNat 8 n :: digits w (n / 256)

/- The number with the given base-256 digits, lowest first. -/
def value (bytes : List Byte) : Nat :=
  Nat.ofDigits 256 (bytes.map BitVec.toNat)

@[simp] theorem length_digits
    (w n : Nat) :
    (digits w n).length = w := by
  induction w generalizing n with
  | zero => rfl
  | succ w ih => simp [digits, ih]

@[simp] theorem value_nil : value [] = 0 := rfl

@[simp] theorem value_cons
    (byte : Byte)
    (bytes : List Byte) :
    value (byte :: bytes) = byte.toNat + 256 * value bytes := by
  simp [value, Nat.ofDigits_cons]

variable (bytes : List Byte)

theorem value_lt :
    value bytes < 256 ^ bytes.length := by
  induction bytes with
  | nil => simp
  | cons byte bytes ih =>
      have hByte := byte.isLt
      simp only [value_cons, List.length_cons, pow_succ]
      omega

theorem value_digits
    (w n : Nat) :
    value (digits w n) = n % 256 ^ w := by
  induction w generalizing n with
  | zero => simp [digits, Nat.mod_one]
  | succ w ih =>
      have hHead : (BitVec.ofNat 8 n).toNat = n % 256 :=
        BitVec.toNat_ofNat n 8
      rw [digits, value_cons, ih, hHead, pow_succ',
        Nat.mod_mul]

theorem digits_value :
    digits bytes.length (value bytes) = bytes := by
  induction bytes with
  | nil => rfl
  | cons byte bytes ih =>
      have hByte := byte.isLt
      have hDiv :
          (byte.toNat + 256 * value bytes) / 256 =
            value bytes := by
        omega
      have hHead :
          BitVec.ofNat 8 (byte.toNat + 256 * value bytes) =
            byte := by
        apply BitVec.eq_of_toNat_eq
        rw [BitVec.toNat_ofNat]
        omega
      simp only [List.length_cons, value_cons, digits, hDiv,
        hHead, ih]

variable {w : Nat}

/- The bytes of a word, least significant first. -/
def littleEndian (v : Word w) : List Byte :=
  digits w v.toNat

/- The word with the given bytes, least significant first. -/
def ofLittleEndian (w : Nat) (bytes : List Byte) : Word w :=
  BitVec.ofNat (8 * w) (value bytes)

/- The bytes of a word, most significant first. -/
def bigEndian (v : Word w) : List Byte :=
  (littleEndian v).reverse

/- The word with the given bytes, most significant first. -/
def ofBigEndian (w : Nat) (bytes : List Byte) : Word w :=
  ofLittleEndian w bytes.reverse

/- The word with the bytes of `v` in the opposite order. -/
def reverseWord (v : Word w) : Word w :=
  ofLittleEndian w (littleEndian v).reverse

variable (v : Word w)

@[simp] theorem length_littleEndian :
    (littleEndian v).length = w := by
  simp [littleEndian]

@[simp] theorem length_bigEndian :
    (bigEndian v).length = w := by
  simp [bigEndian]

theorem two_pow_eq (w : Nat) : 2 ^ (8 * w) = 256 ^ w := by
  rw [pow_mul]
  norm_num

theorem ofLittleEndian_littleEndian :
    ofLittleEndian w (littleEndian v) = v := by
  have hLt := v.isLt
  apply BitVec.eq_of_toNat_eq
  rw [ofLittleEndian, littleEndian, value_digits,
    BitVec.toNat_ofNat, ← two_pow_eq, Nat.mod_mod,
    Nat.mod_eq_of_lt hLt]

theorem littleEndian_ofLittleEndian
    (hLength : bytes.length = w) :
    littleEndian (ofLittleEndian w bytes) = bytes := by
  have hLt := value_lt bytes
  rw [hLength, ← two_pow_eq] at hLt
  rw [littleEndian, ofLittleEndian, BitVec.toNat_ofNat,
    Nat.mod_eq_of_lt hLt, ← hLength, digits_value]

theorem ofBigEndian_bigEndian :
    ofBigEndian w (bigEndian v) = v := by
  rw [ofBigEndian, bigEndian, List.reverse_reverse,
    ofLittleEndian_littleEndian]

theorem bigEndian_ofBigEndian
    (hLength : bytes.length = w) :
    bigEndian (ofBigEndian w bytes) = bytes := by
  rw [ofBigEndian, bigEndian,
    littleEndian_ofLittleEndian _ (by simpa using hLength),
    List.reverse_reverse]

/-
  Writing a reversed word lowest byte first writes the word
  highest byte first.
-/
theorem littleEndian_reverseWord :
    littleEndian (reverseWord v) = bigEndian v := by
  rw [reverseWord, bigEndian,
    littleEndian_ofLittleEndian _ (by simp)]

/-
  Reversing a word read lowest byte first reads it highest
  byte first.
-/
theorem reverseWord_ofLittleEndian
    (hLength : bytes.length = w) :
    reverseWord (ofLittleEndian w bytes) =
      ofBigEndian w bytes := by
  rw [reverseWord, littleEndian_ofLittleEndian _ hLength,
    ofBigEndian]

------------------------------------------------------------
-- Single Bytes
------------------------------------------------------------

theorem getElem?_digits
    (w n : Nat)
    {i : Nat}
    (hI : i < w) :
    (digits w n)[i]? = some (BitVec.ofNat 8 (n / 256 ^ i)) := by
  induction w generalizing n i with
  | zero => omega
  | succ w ih =>
      cases i with
      | zero => simp [digits]
      | succ i =>
          rw [digits, List.getElem?_cons_succ,
            ih (n / 256) (by omega), Nat.div_div_eq_div_mul,
            pow_succ']

/- Byte `i` of a word, counted from the low end. -/
theorem getElem?_littleEndian
    (v : Word w)
    {i : Nat}
    (hI : i < w) :
    (littleEndian v)[i]? = some (v.extractLsb' (8 * i) 8) := by
  rw [littleEndian, getElem?_digits w v.toNat hI,
    Option.some.injEq]
  apply BitVec.eq_of_toNat_eq
  rw [BitVec.extractLsb'_toNat, BitVec.toNat_ofNat,
    Nat.shiftRight_eq_div_pow, two_pow_eq]

theorem littleEndian_injective
    {v v' : Word w}
    (hBytes : littleEndian v = littleEndian v') :
    v = v' := by
  rw [← ofLittleEndian_littleEndian v, hBytes,
    ofLittleEndian_littleEndian]

/- The low part of a reversed word is its high part reversed. -/
theorem setWidth_reverseWord
    {n : Nat}
    (v : Word w)
    (hN : n ≤ w) :
    (reverseWord v).setWidth (8 * n) =
      reverseWord
        (v.extractLsb' (8 * (w - n)) (8 * n) : Word n) := by
  apply littleEndian_injective
  apply List.ext_getElem?
  intro i
  by_cases hI : i < n
  · have hLow :
        ((reverseWord v).setWidth (8 * n)).extractLsb'
            (8 * i) 8 =
          (reverseWord v).extractLsb' (8 * i) 8 := by
      apply BitVec.eq_of_getLsbD_eq
      intro j hJ
      have hLt : 8 * i + j < 8 * n := by omega
      simp [hJ, hLt]
    have hHigh :
        (v.extractLsb' (8 * (w - n)) (8 * n)).extractLsb'
            (8 * (n - 1 - i)) 8 =
          v.extractLsb' (8 * (w - 1 - i)) 8 := by
      apply BitVec.eq_of_getLsbD_eq
      intro j hJ
      have hLt : 8 * (n - 1 - i) + j < 8 * n := by omega
      have hPos :
          8 * (w - n) + (8 * (n - 1 - i) + j) =
            8 * (w - 1 - i) + j := by
        omega
      simp [hJ, hLt, hPos]
    rw [getElem?_littleEndian _ hI, hLow,
      ← getElem?_littleEndian (reverseWord v) (by omega),
      littleEndian_reverseWord, littleEndian_reverseWord,
      bigEndian, bigEndian,
      List.getElem?_reverse (by simpa using by omega),
      List.getElem?_reverse (by simpa using hI),
      length_littleEndian, length_littleEndian,
      getElem?_littleEndian _ (by omega),
      getElem?_littleEndian _ (by omega), hHigh]
  · rw [List.getElem?_eq_none (by simpa using hI),
      List.getElem?_eq_none (by simpa using hI)]

end Bytes

end Ps3emu
