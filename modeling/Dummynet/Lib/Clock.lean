import Mathlib
import Dummynet.Lib.Bits

/-!
# Clocks

A machine word that is used as a clock shows an integer time modulo a power of 2. As long as two
times are close to each other, the words that show them can be compared by the sign of their
difference, and rounding a word down to a power of 2 is rounding the time.

## Main definitions

* `Clock.Shows`: a word shows a time.
* `Clock.floor`: a time rounded down to a multiple of `2 ^ r`.

## Main results

* `Clock.Shows.toInt_sub`: the signed difference of words is the difference of the times.
* `Clock.Shows.floor`: clearing the low bits of a word rounds the time down.
* `Clock.Shows.exists_bit_ne_iff`: the words differ in a higher bit when the rounded times differ.
-/

namespace Clock

variable {w : ℕ} {x y : BitVec w} {n k : ℤ} {r r' : ℕ}

/-! ### Rounding -/

/-- The time `n` rounded down to a multiple of `2 ^ r`. -/
def floor (r : ℕ) (n : ℤ) : ℤ := n / 2 ^ r * 2 ^ r

theorem floor_le (r : ℕ) (n : ℤ) : floor r n ≤ n := Int.ediv_mul_le n (by positivity)

theorem lt_floor_add (r : ℕ) (n : ℤ) : n < floor r n + 2 ^ r := by
  have := Int.lt_ediv_add_one_mul_self n (show (0 : ℤ) < 2 ^ r by positivity)
  rwa [add_mul, one_mul] at this

theorem dvd_floor (r : ℕ) (n : ℤ) : (2 : ℤ) ^ r ∣ floor r n := dvd_mul_left _ _

theorem floor_mono (r : ℕ) (h : n ≤ k) : floor r n ≤ floor r k :=
  mul_le_mul_of_nonneg_right (Int.ediv_le_ediv (by positivity) h) (by positivity)

/-- A multiple of `2 ^ r` is its own floor. -/
theorem floor_eq_self (h : (2 : ℤ) ^ r ∣ n) : floor r n = n := Int.ediv_mul_cancel h

/-- A multiple that is at most `n` is at most its floor. -/
theorem le_floor (h : (2 : ℤ) ^ r ∣ k) (hle : k ≤ n) : k ≤ floor r n := by
  rw [← floor_eq_self h]
  exact floor_mono r hle

/-- A multiple that is above `n` is a whole step above its floor. -/
theorem floor_add_le (h : (2 : ℤ) ^ r ∣ k) (hlt : n < k) : floor r n + 2 ^ r ≤ k := by
  obtain ⟨c, rfl⟩ := h
  have hc : n / 2 ^ r < c := Int.ediv_lt_of_lt_mul (by positivity) (by rwa [mul_comm])
  calc floor r n + 2 ^ r = (n / 2 ^ r + 1) * 2 ^ r := by rw [floor, add_mul, one_mul]
    _ ≤ c * 2 ^ r := mul_le_mul_of_nonneg_right hc (by positivity)
    _ = 2 ^ r * c := mul_comm _ _

theorem add_le_of_dvd (hn : (2 : ℤ) ^ r ∣ n) (hk : (2 : ℤ) ^ r ∣ k) (hlt : n < k) :
    n + 2 ^ r ≤ k := by
  have := floor_add_le hk hlt
  rwa [floor_eq_self hn] at this

theorem dvd_of_le (h : r ≤ r') (hn : (2 : ℤ) ^ r' ∣ n) : (2 : ℤ) ^ r ∣ n :=
  (pow_dvd_pow 2 h).trans hn

/-! ### Words that show a time -/

/-- The word `x` shows the time `n`. -/
def Shows (x : BitVec w) (n : ℤ) : Prop := x = BitVec.ofInt w n

namespace Shows

theorem toNat (x : BitVec w) : Shows x x.toNat := by
  rw [Shows, BitVec.ofInt_natCast, BitVec.ofNat_toNat, BitVec.setWidth_eq]

theorem add (hx : Shows x n) (hy : Shows y k) : Shows (x + y) (n + k) := by
  rw [Shows, hx, hy, BitVec.ofInt_add]

theorem sub (hx : Shows x n) (hy : Shows y k) : Shows (x - y) (n - k) := by
  rw [Shows, hx, hy, BitVec.sub_eq_add_neg, ← BitVec.ofInt_neg, ← BitVec.ofInt_add, sub_eq_add_neg]

/-- A difference that is not too large is the difference of the times. -/
theorem toNat_sub (hx : Shows x n) (hy : Shows y k) (hle : k ≤ n) (hlt : n - k < 2 ^ w) :
    ((x - y).toNat : ℤ) = n - k := by
  rw [hx.sub hy, BitVec.toNat_ofInt, Int.toNat_of_nonneg (Int.emod_nonneg _ (by positivity))]
  exact Int.emod_eq_of_lt (by omega) (by exact_mod_cast hlt)

/-- **Signed differences** of words are the differences of their times. -/
theorem toInt_sub (hx : Shows x n) (hy : Shows y k) (hlo : -2 ^ w ≤ 2 * (n - k))
    (hhi : 2 * (n - k) < 2 ^ w) : (x - y).toInt = n - k := by
  rw [hx.sub hy, BitVec.toInt_ofInt]
  have h : ((2 ^ w : ℕ) : ℤ) = 2 ^ w := by push_cast; rfl
  exact Int.bmod_eq_of_le_mul_two (by omega) (by omega)

theorem toNat_emod (hx : Shows x n) : (x.toNat : ℤ) = n % 2 ^ w := by
  rw [hx, BitVec.toNat_ofInt, Int.toNat_of_nonneg (Int.emod_nonneg _ (by positivity))]
  push_cast
  rfl

/-- The quotient by a smaller power of 2. -/
theorem ediv_eq (n : ℤ) (h : r ≤ w) : n / 2 ^ r = n % 2 ^ w / 2 ^ r + 2 ^ (w - r) * (n / 2 ^ w) := by
  have hw : (2 : ℤ) ^ w = 2 ^ r * 2 ^ (w - r) := by rw [← pow_add, Nat.add_sub_cancel' h]
  calc n / 2 ^ r = (n % 2 ^ w + 2 ^ r * (2 ^ (w - r) * (n / 2 ^ w))) / 2 ^ r := by
        rw [← mul_assoc, ← hw, Int.emod_add_mul_ediv]
    _ = _ := Int.add_mul_ediv_left _ _ (by positivity)

/-- The quotient by a power of 2, modulo what is left of the word. -/
theorem toNat_div_emod (hx : Shows x n) {a : ℕ} (h : r + a ≤ w) :
    ((x.toNat / 2 ^ r % 2 ^ a : ℕ) : ℤ) = n / 2 ^ r % 2 ^ a := by
  have hpow : (2 : ℤ) ^ (w - r) = 2 ^ a * 2 ^ (w - r - a) := by
    rw [← pow_add, show a + (w - r - a) = w - r by omega]
  push_cast
  rw [hx.toNat_emod, ediv_eq n (show r ≤ w by omega), hpow, mul_assoc, Int.add_mul_emod_self_left]

/-- **Rounding.** Clearing the low bits rounds the time down. -/
theorem floor (hx : Shows x n) (h : r < w) : Shows (x &&& ~~~ Bits.below w r) (floor r n) := by
  have hbits : x &&& ~~~ Bits.below w r = (x >>> r) <<< r := by
    refine BitVec.eq_of_getLsbD_eq fun i hi => ?_
    rw [BitVec.getLsbD_and, BitVec.getLsbD_not, Bits.getLsbD_below h, BitVec.getLsbD_shiftLeft,
      BitVec.getLsbD_ushiftRight]
    by_cases hir : i < r
    · simp [hir]
    · simp [hir, hi, show r + (i - r) = i by omega]
  have hnat : (x &&& ~~~ Bits.below w r).toNat = x.toNat / 2 ^ r * 2 ^ r := by
    have hlt : x.toNat / 2 ^ r * 2 ^ r < 2 ^ w := (Nat.div_mul_le_self _ _).trans_lt x.isLt
    rw [hbits, BitVec.toNat_shiftLeft, BitVec.toNat_ushiftRight, Nat.shiftRight_eq_div_pow,
      Nat.shiftLeft_eq, Nat.mod_eq_of_lt hlt]
  have hcong : Clock.floor r n = (x &&& ~~~ Bits.below w r).toNat + 2 ^ w * (n / 2 ^ w) := by
    have hw : (2 : ℤ) ^ w = 2 ^ (w - r) * 2 ^ r := by rw [← pow_add, Nat.sub_add_cancel h.le]
    rw [Clock.floor, ediv_eq n h.le, add_mul, hnat, ← hx.toNat_emod]
    push_cast
    rw [hw]
    ring
  have hzero : BitVec.ofInt w (2 ^ w) = 0#w := BitVec.eq_of_toNat_eq (by simp)
  rw [Shows, hcong, BitVec.ofInt_add, BitVec.ofInt_mul, BitVec.ofInt_natCast, BitVec.ofNat_toNat,
    BitVec.setWidth_eq, hzero, BitVec.zero_mul, BitVec.add_zero]

/-- **Higher bits.** Among the bits of a word that `a` places above the lowest `r` hold, one from
`g` on differs exactly if the times differ at that place, unless they are too far apart. -/
theorem exists_bit_ne_iff (hx : Shows x n) (hy : Shows y k) {a g : ℕ} (hg : g ≤ a) (ha : r + a ≤ w)
    (hle : k ≤ n) (hlt : n - k < 2 ^ (r + a) - 2 ^ (r + g)) :
    (∃ i, g ≤ i ∧ i < a ∧ x.getLsbD (r + i) ≠ y.getLsbD (r + i)) ↔
      Clock.floor (r + g) k < Clock.floor (r + g) n := by
  have hmod : (∃ i, g ≤ i ∧ i < a ∧ x.getLsbD (r + i) ≠ y.getLsbD (r + i)) ↔
      x.toNat / 2 ^ (r + g) % 2 ^ (a - g) ≠ y.toNat / 2 ^ (r + g) % 2 ^ (a - g) := by
    rw [not_iff_not.symm]
    push Not
    constructor
    · intro h
      refine Nat.eq_of_testBit_eq fun i => ?_
      rw [Nat.testBit_mod_two_pow, Nat.testBit_mod_two_pow, Nat.testBit_div_two_pow,
        Nat.testBit_div_two_pow]
      by_cases hi : i < a - g
      · have := h (g + i) (by omega) (by omega)
        rw [BitVec.getLsbD, BitVec.getLsbD] at this
        simpa [hi, show i + (r + g) = r + (g + i) by omega] using this
      · simp [hi]
    · intro h i hgi hia
      have := congrArg (fun m => m.testBit (i - g)) h
      simp only [Nat.testBit_mod_two_pow, Nat.testBit_div_two_pow, show i - g < a - g by omega,
        decide_true, Bool.true_and, show i - g + (r + g) = r + i by omega] at this
      exact this
  rw [hmod, ne_eq, ← @Nat.cast_inj ℤ, hx.toNat_div_emod (show r + g + (a - g) ≤ w by omega),
    hy.toNat_div_emod (show r + g + (a - g) ≤ w by omega)]
  have hmono : k / 2 ^ (r + g) ≤ n / 2 ^ (r + g) := Int.ediv_le_ediv (by positivity) hle
  have hclose : n / 2 ^ (r + g) - k / 2 ^ (r + g) < 2 ^ (a - g) := by
    have h1 := floor_le (r + g) n
    have h2 := lt_floor_add (r + g) k
    have hpow : (2 : ℤ) ^ (r + a) = 2 ^ (a - g) * 2 ^ (r + g) := by
      rw [← pow_add, show a - g + (r + g) = r + a by omega]
    refine lt_of_mul_lt_mul_right ?_ (show (0 : ℤ) ≤ 2 ^ (r + g) by positivity)
    rw [sub_mul, ← hpow]
    simp only [Clock.floor] at h1 h2
    omega
  rw [Clock.floor, Clock.floor, mul_lt_mul_iff_left₀ (show (0 : ℤ) < 2 ^ (r + g) by positivity)]
  constructor
  · intro hne
    exact lt_of_le_of_ne hmono fun h => hne (by rw [h])
  · intro hlt' h
    have hdvd := Int.dvd_of_emod_eq_zero (Int.emod_eq_emod_iff_emod_sub_eq_zero.1 h)
    have := Int.le_of_dvd (sub_pos.2 hlt') hdvd
    omega

end Shows

end Clock
