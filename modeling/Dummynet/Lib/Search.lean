import Mathlib

/-!
# Binary search

The search for the first position at which a property fails, where the positions at which it holds
come before the others.

## Main definitions

* `binarySearch`: the search in an interval of positions.

## Main results

* `binarySearch_spec`: it finds the first position, or the end of the interval.
-/

variable {below : ℕ → Bool} {n lo hi : ℕ}

/-- The search between `lo` and `hi`. The first argument bounds `hi - lo`. -/
def binarySearch (below : ℕ → Bool) : ℕ → (lo hi : ℕ) → ℕ
  | 0, _, hi => hi
  | n + 1, lo, hi =>
    if lo < hi then
      let i := (lo + hi) / 2
      if below i then binarySearch below n (i + 1) hi else binarySearch below n lo i
    else hi

/-- **Binary search.** The property holds before the position that is found, and not there, unless
it is the end of the interval. -/
theorem binarySearch_spec (hlo : lo ≤ hi) (hn : hi - lo ≤ n)
    (hmono : ∀ i j, i ≤ j → j < hi → below j = true → below i = true)
    (hbelow : ∀ i < lo, below i = true) :
    binarySearch below n lo hi ≤ hi ∧ (∀ i < binarySearch below n lo hi, below i = true) ∧
      (binarySearch below n lo hi < hi → below (binarySearch below n lo hi) = false) := by
  induction n generalizing lo hi with
  | zero =>
    obtain rfl : lo = hi := by omega
    exact ⟨le_rfl, hbelow, fun h => absurd h (lt_irrefl _)⟩
  | succ n ih =>
    unfold binarySearch
    by_cases hlt : lo < hi
    · rw [if_pos hlt]
      have hmid : (lo + hi) / 2 < hi := by omega
      have hmid' : lo ≤ (lo + hi) / 2 := by omega
      dsimp only
      cases hb : below ((lo + hi) / 2) with
      | true =>
        rw [if_pos rfl]
        refine ih (by omega) (by omega) hmono fun i hi' => ?_
        exact hmono i _ (by omega) hmid hb
      | false =>
        rw [if_neg (by simp)]
        obtain ⟨hle, hall, hlast⟩ := ih hmid' (by omega)
          (fun i j hij hj => hmono i j hij (by omega)) hbelow
        refine ⟨by omega, hall, fun _ => ?_⟩
        rcases hle.eq_or_lt with heq | hlt'
        · rw [heq]
          exact hb
        · exact hlast hlt'
    · rw [if_neg hlt]
      obtain rfl : lo = hi := by omega
      exact ⟨le_rfl, hbelow, fun h => absurd h (lt_irrefl _)⟩
