import Mathlib

/-!
# Numbers on the command line

`strtoul` and the integers that it stands for. A number that is too large becomes the largest one,
and a sign is applied modulo `2 ^ 64`; what is stored in a field of 32 bits is then the integer if
that fits, and another one if not.

## Main definitions

* `scanNumber`: the integer at the start of a text, with what follows it.
* `strtoul`: what the C library makes of it.

## Main results

* `narrow_eq`: an integer is kept modulo the width of the field, unless it is too large.
* `narrow_mul_toInt`: an integer that fits a field with its unit is stored as it is.
-/

namespace Dummynet.Tool

/-- The value of a digit. -/
def digitValue (c : Char) : ℕ :=
  if c.isDigit then c.toNat - '0'.toNat
  else if 'a' ≤ c ∧ c ≤ 'z' then c.toNat - 'a'.toNat + 10
  else if 'A' ≤ c ∧ c ≤ 'Z' then c.toNat - 'A'.toNat + 10
  else 36

/-- The longest sequence of digits, with the number that it stands for. -/
def scanDigits (base : ℕ) : List Char → ℕ → ℕ × List Char
  | [], n => (n, [])
  | c :: cs, n => if digitValue c < base then scanDigits base cs (n * base + digitValue c)
    else (n, c :: cs)

/-- A number without a sign, in the base that its prefix tells. No digits are no number. -/
def scanUnsigned : List Char → Option (ℕ × List Char)
  | '0' :: x :: c :: cs =>
    if (x = 'x' ∨ x = 'X') ∧ digitValue c < 16 then some (scanDigits 16 (c :: cs) 0)
    else some (scanDigits 8 (x :: c :: cs) 0)
  | '0' :: cs => some (scanDigits 8 cs 0)
  | c :: cs => if digitValue c < 10 then some (scanDigits 10 (c :: cs) 0) else none
  | [] => none

/-- The number at the start of a text, and the text after it. -/
def scanNumber (s : List Char) : ℤ × List Char :=
  match s.dropWhile Char.isWhitespace with
  | '-' :: t => match scanUnsigned t with
    | some (n, e) => (-n, e)
    | none => (0, s)
  | '+' :: t => match scanUnsigned t with
    | some (n, e) => (n, e)
    | none => (0, s)
  | t => match scanUnsigned t with
    | some (n, e) => (n, e)
    | none => (0, s)

/-- `strtoul`, with the base 0. -/
def strtoul (s : List Char) : BitVec 64 × List Char :=
  let (n, e) := scanNumber s
  (if n.natAbs < 2 ^ 64 then BitVec.ofInt 64 n else BitVec.allOnes 64, e)

variable {s : List Char} {v u : ℤ} {x : BitVec 64} {w : BitVec 32}

/-- The integer fits a field of type `int`. -/
def FitsSigned (v : ℤ) : Prop := -2 ^ 31 ≤ v ∧ v < 2 ^ 31

/-- The integer fits a field of type `uint32_t`. -/
def FitsUnsigned (v : ℤ) : Prop := 0 ≤ v ∧ v < 2 ^ 32

instance (v : ℤ) : Decidable (FitsSigned v) := inferInstanceAs (Decidable (_ ∧ _))

instance (v : ℤ) : Decidable (FitsUnsigned v) := inferInstanceAs (Decidable (_ ∧ _))

theorem strtoul_snd : (strtoul s).2 = (scanNumber s).2 := rfl

theorem strtoul_eq (h : (scanNumber s).1.natAbs < 2 ^ 64) :
    (strtoul s).1 = BitVec.ofInt 64 (scanNumber s).1 := if_pos h

/-- What is stored in 32 bits. -/
theorem narrow_eq (h : (scanNumber s).1.natAbs < 2 ^ 64) :
    (strtoul s).1.setWidth 32 = BitVec.ofInt 32 (scanNumber s).1 := by
  rw [strtoul_eq h]
  apply BitVec.eq_of_toNat_eq
  rw [BitVec.toNat_setWidth, BitVec.toNat_ofInt, BitVec.toNat_ofInt]
  omega

theorem FitsSigned.toInt_ofInt (h : FitsSigned v) : (BitVec.ofInt 32 v).toInt = v := by
  obtain ⟨hlo, hhi⟩ := h
  rw [BitVec.toInt_ofInt, Int.bmod_def]
  omega

theorem fitsSigned_toInt : FitsSigned w.toInt := ⟨BitVec.le_toInt w, BitVec.toInt_lt⟩

theorem FitsUnsigned.toNat_ofInt (h : FitsUnsigned v) : (BitVec.ofInt 32 v).toNat = v := by
  obtain ⟨hlo, hhi⟩ := h
  rw [BitVec.toNat_ofInt]
  omega

/-- A number that is stored with a unit. -/
theorem narrow_mul_toInt (hu : 0 < u) (h : FitsSigned ((scanNumber s).1 * u)) :
    ((strtoul s).1.setWidth 32 * BitVec.ofInt 32 u).toInt = (scanNumber s).1 * u := by
  obtain ⟨hlo, hhi⟩ := h
  have hle : (scanNumber s).1.natAbs ≤ ((scanNumber s).1 * u).natAbs := by
    rw [Int.natAbs_mul]
    exact Nat.le_mul_of_pos_right _ (Int.natAbs_pos.2 hu.ne')
  rw [narrow_eq (by omega), ← BitVec.ofInt_mul]
  exact FitsSigned.toInt_ofInt ⟨hlo, hhi⟩

end Dummynet.Tool
