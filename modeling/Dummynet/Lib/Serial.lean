import Mathlib

/-!
# Serial numbers

A serial number is a machine word that is only ever compared with words close to it: `a` is
before `b` when the difference `a - b`, read as a signed number, is negative. This is a linear
order on every set of words that fits in half of the circle of all words, and on no larger one.

* `Serial.rank c x` is the distance from the base `c` up to `x`, going round the circle.
* `Serial.InWindow c x` says that this distance is below half of the circle; a window is the
  set of all words with this property.
* Inside a window the signed difference of two words is the difference of their ranks
  (`toInt_sub_eq`), so that comparing words is comparing ranks (`lt_iff`, `le_iff`), and a sum
  that stays in the window has the sum of the ranks (`rank_add`).

## Main definitions

* `Serial.lt`, `Serial.le`: the signed comparisons.
* `Serial.rank`, `Serial.InWindow`: distance from a base, and the window above a base.

## Main results

* `Serial.toInt_sub_eq`: signed differences inside a window.
* `Serial.rank_injOn`: a word of a window is determined by its rank.
* `Serial.rank_add`: addition that does not leave the window.
-/

namespace Serial

variable {w : ℕ}

/-- `a` is before `b`: the difference `a - b` is negative as a signed word. -/
def lt (a b : BitVec w) : Bool := decide ((a - b).toInt < 0)

/-- `a` is not after `b`: the difference `a - b` is not positive as a signed word. -/
def le (a b : BitVec w) : Bool := decide ((a - b).toInt ≤ 0)

/-- The distance from the base `c` up to `x`, going round the circle of words. -/
def rank (c x : BitVec w) : ℕ := (x - c).toNat

/-- The words less than half of the circle above the base `c`. -/
def InWindow (c x : BitVec w) : Prop := 2 * rank c x < 2 ^ w

instance (c x : BitVec w) : Decidable (InWindow c x) :=
  inferInstanceAs (Decidable (_ < _))

theorem rank_lt (c x : BitVec w) : rank c x < 2 ^ w := (x - c).isLt

@[simp] theorem rank_self (c : BitVec w) : rank c c = 0 := by simp [rank]

/-- The difference of two words only depends on their distances from a base. -/
theorem sub_eq_sub_rank (c x y : BitVec w) :
    x - y = BitVec.ofNat w (rank c x) - BitVec.ofNat w (rank c y) := by
  simp only [rank, BitVec.ofNat_toNat, BitVec.setWidth_eq, sub_sub_sub_cancel_right]

theorem toNat_sub_of_rank_le {c x y : BitVec w} (h : rank c y ≤ rank c x) :
    (x - y).toNat = rank c x - rank c y := by
  have hx := rank_lt c x
  rw [sub_eq_sub_rank c x y, BitVec.toNat_sub, BitVec.toNat_ofNat, BitVec.toNat_ofNat,
    Nat.mod_eq_of_lt hx, Nat.mod_eq_of_lt (rank_lt c y)]
  have hy := rank_lt c y
  rw [show 2 ^ w - rank c y + rank c x = (rank c x - rank c y) + 2 ^ w by omega,
    Nat.add_mod_right, Nat.mod_eq_of_lt (by omega)]

theorem toNat_sub_of_rank_lt {c x y : BitVec w} (h : rank c x < rank c y) :
    (x - y).toNat = 2 ^ w - (rank c y - rank c x) := by
  have hx := rank_lt c x
  rw [sub_eq_sub_rank c x y, BitVec.toNat_sub, BitVec.toNat_ofNat, BitVec.toNat_ofNat,
    Nat.mod_eq_of_lt hx, Nat.mod_eq_of_lt (rank_lt c y)]
  have hy := rank_lt c y
  rw [Nat.mod_eq_of_lt (by omega)]
  omega

/-- **Signed differences inside a window** are differences of ranks. -/
theorem toInt_sub_eq {c x y : BitVec w} (hx : InWindow c x) (hy : InWindow c y) :
    (x - y).toInt = (rank c x : ℤ) - rank c y := by
  unfold InWindow at hx hy
  rw [BitVec.toInt_eq_toNat_cond]
  rcases Nat.lt_or_ge (rank c x) (rank c y) with h | h
  · rw [toNat_sub_of_rank_lt h, if_neg (by omega)]
    have := rank_lt c y
    push_cast [show rank c y - rank c x ≤ 2 ^ w by omega, h.le]
    ring
  · rw [toNat_sub_of_rank_le h, if_pos (by omega)]
    push_cast [h]
    ring

theorem lt_iff {c x y : BitVec w} (hx : InWindow c x) (hy : InWindow c y) :
    lt x y = true ↔ rank c x < rank c y := by
  rw [lt, decide_eq_true_eq, toInt_sub_eq hx hy]
  omega

theorem le_iff {c x y : BitVec w} (hx : InWindow c x) (hy : InWindow c y) :
    le x y = true ↔ rank c x ≤ rank c y := by
  rw [le, decide_eq_true_eq, toInt_sub_eq hx hy]
  omega

/-- A word of a window is determined by its rank. -/
theorem rank_injOn (c : BitVec w) {x y : BitVec w} (h : rank c x = rank c y) : x = y := by
  have := BitVec.eq_of_toNat_eq h
  rw [← sub_add_cancel x c, this, sub_add_cancel]

/-- A sum that stays in the window has the sum of the ranks. -/
theorem rank_add {c x d : BitVec w} (hx : InWindow c x) (hd : 2 * d.toNat < 2 ^ w) :
    rank c (x + d) = rank c x + d.toNat := by
  unfold InWindow at hx
  have hsum : rank c (x + d) = (rank c x + d.toNat) % 2 ^ w := by
    rw [rank, add_sub_right_comm, BitVec.toNat_add]
    rfl
  rw [hsum, Nat.mod_eq_of_lt (by omega)]

@[simp] theorem lt_self (x : BitVec w) : lt x x = false := by simp [lt]

@[simp] theorem le_self (x : BitVec w) : le x x = true := by simp [le]

/-- A word is before the word obtained by adding less than half of the circle. -/
theorem lt_add_of_pos {x d : BitVec w} (hpos : 0 < d.toNat) (hd : 2 * d.toNat < 2 ^ w) :
    lt x (x + d) = true := by
  have hx : InWindow x x := by simp only [InWindow, rank_self]; omega
  have hr := rank_add hx hd
  rw [rank_self, zero_add] at hr
  rw [lt_iff hx (by rw [InWindow, hr]; exact hd), rank_self, hr]
  exact hpos

end Serial
