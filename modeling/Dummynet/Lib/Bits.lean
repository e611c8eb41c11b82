import Mathlib

/-!
# Words as sets of small numbers

A word of `w` bits is read as a set of numbers below `w`. Here are the operations on such sets
that schedulers use, insertion, removal and search for the first and the last element, each with
the lemma that says which bits it leaves.

## Main definitions

* `Bits.ffs`: the number of the first bit that is set, counted from 1, and 0 if there is none.
* `Bits.first`: the number of the first bit that is set, counted from 0.
* `Bits.last`, `Bits.fls`: the same for the last bit that is set.
* `Bits.below`: the set of the numbers below a bound.

## Main results

* `Bits.first_spec`, `Bits.last_spec`: the first bit is set and none before it, and the last bit
  is set and none after it.
* `Bits.getLsbD_set`, `Bits.getLsbD_clear`: membership after insertion and removal.
-/

namespace Bits

variable {w : ℕ}

/-- The number of the first bit that is set, counted from 0. -/
def first (b : BitVec w) : ℕ := b.ctz.toNat

/-- The number of the first bit that is set, counted from 1; 0 if no bit is set. -/
def ffs (b : BitVec w) : ℕ := if b = 0 then 0 else first b + 1

/-- The first bit is set, and none before it. -/
theorem first_spec {b : BitVec w} (hb : b ≠ 0) :
    first b < w ∧ b.getLsbD (first b) = true ∧ ∀ i < first b, b.getLsbD i = false := by
  have hset := BitVec.getLsbD_true_ctz_of_ne_zero hb
  exact ⟨BitVec.lt_of_getLsbD hset, hset, fun i hi => BitVec.getLsbD_false_of_lt_ctz hi⟩

theorem eq_zero_iff {b : BitVec w} : b = 0 ↔ ∀ i < w, b.getLsbD i = false := by
  constructor
  · rintro rfl i -
    simp
  · intro h
    refine BitVec.eq_of_getLsbD_eq fun i hi => ?_
    rw [h i hi]
    simp

theorem getLsbD_set (b : BitVec w) {i : ℕ} (hi : i < w) (j : ℕ) :
    (b ||| BitVec.twoPow w i).getLsbD j = (b.getLsbD j || decide (i = j)) := by
  simp [BitVec.getLsbD_twoPow, hi]

theorem getLsbD_clear (b : BitVec w) (i : ℕ) {j : ℕ} (hj : j < w) :
    (b &&& ~~~ BitVec.twoPow w i).getLsbD j = (b.getLsbD j && decide (i ≠ j)) := by
  rcases eq_or_ne i j with rfl | hne
  · simp [hj]
  · simp [hj, hne, hne.symm]

theorem and_twoPow_eq_zero (b : BitVec w) {i : ℕ} (hi : i < w) :
    b &&& BitVec.twoPow w i = 0 ↔ b.getLsbD i = false := by
  rw [BitVec.and_twoPow]
  rcases b.getLsbD i with _ | _
  · simp
  · simp only [if_true, Bool.true_eq_false, iff_false]
    intro h0
    have := congrArg (fun x : BitVec w => x.getLsbD i) h0
    simp [hi] at this

/-- The number of the last bit that is set, counted from 0. -/
def last (b : BitVec w) : ℕ := b.toNat.log2

/-- The number of the last bit that is set, counted from 1; 0 if no bit is set. -/
def fls (b : BitVec w) : ℕ := if b = 0 then 0 else last b + 1

/-- The last bit is set, and none after it. -/
theorem last_spec {b : BitVec w} (hb : b ≠ 0) :
    last b < w ∧ b.getLsbD (last b) = true ∧ ∀ i, last b < i → b.getLsbD i = false := by
  have h0 : b.toNat ≠ 0 := fun h => hb (BitVec.eq_of_toNat_eq (by simpa using h))
  have hset : b.getLsbD (last b) = true := Nat.testBit_log2 h0
  refine ⟨BitVec.lt_of_getLsbD hset, hset, fun i hi => ?_⟩
  refine Nat.testBit_lt_two_pow (Nat.lt_log2_self.trans_le ?_)
  exact Nat.pow_le_pow_right (by omega) hi

/-- The numbers below `n`. -/
def below (w n : ℕ) : BitVec w := (1#w <<< n) - 1#w

theorem getLsbD_below {n : ℕ} (hn : n < w) (i : ℕ) :
    (below w n).getLsbD i = decide (i < n) := by
  have hpow : 1 < 2 ^ w := Nat.one_lt_two_pow (by omega)
  have hlt : 2 ^ n < 2 ^ w := Nat.pow_lt_pow_right (by omega) hn
  have hpos : 0 < 2 ^ n := Nat.two_pow_pos n
  have htoNat : (below w n).toNat = 2 ^ n - 1 := by
    rw [below, BitVec.toNat_sub, BitVec.toNat_shiftLeft, BitVec.toNat_ofNat, Nat.shiftLeft_eq,
      Nat.mod_eq_of_lt hpow, one_mul, Nat.mod_eq_of_lt hlt,
      show 2 ^ w - 1 + 2 ^ n = 2 ^ n - 1 + 2 ^ w by omega, Nat.add_mod_right,
      Nat.mod_eq_of_lt (by omega)]
  rw [BitVec.getLsbD, htoNat, Nat.testBit_two_pow_sub_one]

end Bits
