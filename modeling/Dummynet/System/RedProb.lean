import Dummynet.System.Red

/-!
# The drop probability of RED

`red_drops` computes a probability `p_b` from the average queue size, with a line between the
thresholds and, for gentle RED, a second one above them. The slopes `c_1` and `c_3` are truncated to
16 fractional bits, and the constants `c_2` and `c_4` are kept in 32 bits without a sign.

The product in `c_2` overflows for steep lines, `c_4` is negative for `max_p` above 1/2, and the two
truncated lines need not fit together at `max_th`.

## Main definitions

* `redPb`: the probability, before the corrections for the packet size and the packet count.
* `redCurve`: the documented function.
* `RedProb`: what `redPb` should be.
* `RedExact`: the parameters for which it is.

## Main results

* `redLine_close`, `gentleLine_close`: the errors of the two lines.
* `RedExact.linesOk`: the lines are right for the exact parameters.
* `redPb_iff`: when the probability is right.
-/

namespace Dummynet

/-! ### The probability -/

/-- The probability `p_b` of `red_drops` for an average, where it is computed. -/
def redPb (fs : DnFsk) (avg : BitVec 32) : Option (BitVec 64) :=
  if avg.slt fs.minTh then none
  else if !avg.slt fs.maxTh && fs.fs.flags &&& dnIsGentleRed = 0 then none
  else some <|
    if !avg.slt fs.maxTh then
      scaleMul (fs.c3.setWidth 64) (avg.signExtend 64) - fs.c4.setWidth 64
    else if fs.minTh.slt avg then
      scaleMul (fs.c1.setWidth 64) (avg.signExtend 64) - fs.c2.setWidth 64
    else 0

/-- `red_drops` accepts or drops the packet where it computes no probability. -/
theorem redDrops_eq (cfg : DnCfg) (q : DnQueue) (len random : BitVec 32) :
    redDrops cfg q len random =
      match redPb q.fs (redAverage cfg q) with
      | none => (!(redAverage cfg q).slt q.fs.minTh,
          { q.red with avg := redAverage cfg q, count := -1 })
      | some pB =>
        let st := { q.red with avg := redAverage cfg q }
        let pB := if q.fs.fs.flags &&& dnQsizeBytes ≠ 0 then
          (pB * len.signExtend 64).sdiv (q.fs.maxPktSize.signExtend 64) else pB
        let count : BitVec 32 := st.count + 1
        if count = 0 then (false, { st with count := count, random := random &&& 0xffff })
        else if (st.random.signExtend 64).slt (scaleMul pB (count.signExtend 64 <<< 16)) then
          (true, { st with count := 0, random := random &&& 0xffff })
        else (false, { st with count := count }) := by
  unfold redDrops redPb
  dsimp only
  by_cases hmin : (redAverage cfg q).slt q.fs.minTh
  · rw [if_pos hmin, if_pos hmin, hmin]
    rfl
  · rw [if_neg hmin, if_neg hmin]
    by_cases hmax : (!(redAverage cfg q).slt q.fs.maxTh &&
        q.fs.fs.flags &&& dnIsGentleRed = 0) = true
    · rw [if_pos hmax, if_pos hmax, Bool.eq_false_iff.2 hmin]
      rfl
    · rw [if_neg hmax, if_neg hmax]

/-- The documented function, for probabilities in units of 2^-16 and sizes in units of the queue. -/
def redCurve (minTh maxTh maxP a : ℚ) : ℚ :=
  if a < maxTh then maxP * (a - minTh) / (maxTh - minTh)
  else maxP + (65536 - maxP) * (a - maxTh) / maxTh

/-- What the probability should be: at most 1, not decreasing, and off the documented function by at
most the average, since the slopes are truncated. -/
structure RedProb (minTh maxTh maxP : ℤ) (fs : DnFsk) : Prop where
  range : ∀ avg p, 0 ≤ avg.toInt → redPb fs avg = some p → 0 ≤ p.toInt ∧ p.toInt ≤ 65536
  mono : ∀ avg avg' p p', 0 ≤ avg.toInt → avg.toInt ≤ avg'.toInt → redPb fs avg = some p →
    redPb fs avg' = some p' → p.toInt ≤ p'.toInt
  close : ∀ avg p, 0 ≤ avg.toInt → redPb fs avg = some p →
    |(p.toInt : ℚ) - redCurve minTh maxTh maxP (avg.toInt / 65536)| ≤ avg.toInt / 65536

/-- The parameters for which it is. The scaled thresholds fit, the product in `c_2` does not
overflow, and a line through 0 is exact or has a slope of at most 1. For gentle RED, `c_4` is not
negative, the second line starts where the first one ends, and it stays below 1 for all averages. -/
structure RedExact (minTh maxTh maxP : ℕ) (gentle : Prop) : Prop where
  fits : maxTh < 2 ^ 15
  c2 : maxP / (maxTh - minTh) * minTh < 65536
  zero : minTh = 0 → maxP ≤ maxTh ∨ maxTh = 1 ∧ maxP = 65536
  c4 : gentle → maxP ≤ 32768
  joined : gentle →
    (65536 - maxP) % maxTh + (maxP / (maxTh - minTh) * (maxTh - minTh) - 1) ≤ maxP
  top : gentle → (65536 - maxP) / maxTh * (2 ^ 31 - 1) / 65536 ≤ 131072 - 2 * maxP

/-! ### The two lines -/

/-- The line of RED between the thresholds. -/
def redLine (lo hi P n : ℕ) : ℤ :=
  if n = lo * 65536 then 0
  else (P / (hi - lo) * n / 65536 : ℕ) - (P / (hi - lo) * lo % 65536 : ℕ)

/-- The line of gentle RED above them. -/
def gentleLine (hi P n : ℕ) : ℤ :=
  ((65536 - P) / hi * n / 65536 : ℕ) -
    if P ≤ 32768 then (65536 - 2 * P : ℤ) else 2 ^ 32 + 65536 - 2 * P

/-- The probability for thresholds whose scaled values fit. -/
def redLines (lo hi P : ℕ) (gentle : Prop) [Decidable gentle] (n : ℕ) : Option ℤ :=
  if n < lo * 65536 then none
  else if n < hi * 65536 then some (redLine lo hi P n)
  else if gentle then some (gentleLine hi P n)
  else none

variable {lo hi P n : ℕ} {gentle : Prop} [Decidable gentle]

/-- The line is truncated where it is not 0. -/
theorem redLine_eq (hc2 : P / (hi - lo) * lo < 65536) (hn : lo * 65536 ≤ n) :
    redLine lo hi P n = (P / (hi - lo) * (n - lo * 65536) / 65536 : ℕ) := by
  obtain ⟨x, rfl⟩ := Nat.exists_eq_add_of_le hn
  unfold redLine
  split_ifs with h0
  · obtain rfl : x = 0 := by omega
    simp
  · have hsplit : P / (hi - lo) * (lo * 65536 + x) = P / (hi - lo) * lo * 65536 +
        P / (hi - lo) * x := by ring
    rw [Nat.mod_eq_of_lt hc2, hsplit, Nat.add_sub_cancel_left, Nat.add_comm,
      Nat.add_mul_div_right _ _ (by decide)]
    push_cast
    ring

theorem gentleLine_eq (hP : P ≤ 32768) :
    gentleLine hi P n = ((65536 - P) / hi * n / 65536 : ℕ) - (65536 - 2 * P : ℤ) := by
  unfold gentleLine
  rw [if_pos hP]

/-- A quotient is approximated by a number below it. -/
theorem abs_sub_div_le {p x d a : ℚ} (hd : 0 < d) (h0 : p * d ≤ x) (h1 : x ≤ p * d + a * d) :
    |p - x / d| ≤ a := by
  have heq : p - x / d = -((x - p * d) / d) := by
    field_simp
    ring
  rw [heq, abs_neg, abs_of_nonneg (div_nonneg (sub_nonneg.2 h0) hd.le), div_le_iff₀ hd]
  linarith

section lines

variable (hlt : lo < hi) (hP : P ≤ 65536)

include hlt in
/-- The line of RED is between 0 and the largest probability. -/
theorem redLine_range (hc2 : P / (hi - lo) * lo < 65536) (hn : lo * 65536 ≤ n)
    (hn' : n < hi * 65536) : 0 ≤ redLine lo hi P n ∧
      redLine lo hi P n ≤ (P / (hi - lo) * (hi - lo) - 1 : ℕ) := by
  rw [redLine_eq hc2 hn]
  refine ⟨Int.natCast_nonneg _, Int.ofNat_le.2 ?_⟩
  rcases Nat.eq_zero_or_pos (P / (hi - lo)) with h0 | hpos
  · rw [h0]
    simp
  · -- The last average before `max_th` has a smaller probability.
    have hx : n - lo * 65536 ≤ (hi - lo) * 65536 - 1 := by
      rw [Nat.sub_mul]
      omega
    have hmul : P / (hi - lo) * (n - lo * 65536) < P / (hi - lo) * (hi - lo) * 65536 := by
      rw [Nat.mul_assoc]
      refine Nat.mul_lt_mul_of_pos_left ?_ hpos
      have : 0 < (hi - lo) * 65536 := by
        have := Nat.sub_pos_of_lt hlt
        omega
      omega
    exact Nat.le_sub_one_of_lt (Nat.div_lt_of_lt_mul (by rwa [Nat.mul_comm 65536]))

theorem redLine_mono (hc2 : P / (hi - lo) * lo < 65536) {m : ℕ} (hm : lo * 65536 ≤ m)
    (hle : m ≤ n) : redLine lo hi P m ≤ redLine lo hi P n := by
  rw [redLine_eq hc2 hm, redLine_eq hc2 (hm.trans hle)]
  exact Int.ofNat_le.2 (Nat.div_le_div_right (Nat.mul_le_mul_left _ (by omega)))

theorem gentleLine_mono {m : ℕ} (hle : m ≤ n) : gentleLine hi P m ≤ gentleLine hi P n := by
  unfold gentleLine
  refine Int.sub_le_sub_right (Int.ofNat_le.2 ?_) _
  exact Nat.div_le_div_right (Nat.mul_le_mul_left _ hle)

include hP in
/-- The line of gentle RED at `max_th`. -/
theorem gentleLine_start (hP' : P ≤ 32768) :
    gentleLine hi P (hi * 65536) = P - ((65536 - P) % hi : ℕ) := by
  have hdiv := Nat.div_add_mod (65536 - P) hi
  rw [gentleLine_eq hP', ← Nat.mul_assoc, Nat.mul_div_cancel _ (by decide), Nat.mul_comm]
  omega

include hlt hP in
/-- The error of the line of RED. -/
theorem redLine_close (hc2 : P / (hi - lo) * lo < 65536)
    (hzero : lo = 0 → P ≤ hi ∨ hi = 1 ∧ P = 65536) (hn : lo * 65536 ≤ n) (hn' : n < hi * 65536) :
    |(redLine lo hi P n : ℚ) - redCurve lo hi P (n / 65536)| ≤ n / 65536 := by
  obtain ⟨s, hs, hs0⟩ : ∃ s, hi = lo + s ∧ 0 < s := ⟨hi - lo, by omega, by omega⟩
  obtain ⟨x, rfl⟩ := Nat.exists_eq_add_of_le hn
  have hcurve : redCurve lo hi P ((lo * 65536 + x : ℕ) / 65536) = (P * x : ℚ) / (65536 * s) := by
    unfold redCurve
    have hs0' : (s : ℚ) ≠ 0 := by positivity
    have hspan : ((lo + s : ℕ) : ℚ) - lo = s := by
      push_cast
      ring
    rw [if_pos, hs, hspan]
    · push_cast
      field_simp
      ring
    · rw [div_lt_iff₀ (by norm_num)]
      exact_mod_cast hn'
  rw [redLine_eq hc2 hn, hcurve, Nat.add_sub_cancel_left]
  subst hs
  rw [Nat.add_sub_cancel_left] at hc2 ⊢
  have hPs := Nat.div_add_mod P s
  have hr := Nat.mod_lt P hs0
  have hcx := Nat.div_add_mod (P / s * x) 65536
  have he := Nat.mod_lt (P / s * x) (show 0 < 65536 by decide)
  generalize hc : P / s = c at *
  generalize P % s = r at hPs hr
  generalize hp : c * x / 65536 = p at *
  generalize c * x % 65536 = e at hcx he
  -- The error is `r * x + e * s` in units of `1 / (65536 * s)`.
  have herr : P * x = p * (65536 * s) + (r * x + e * s) := by
    calc P * x = c * x * s + r * x := by rw [← hPs]; ring
      _ = (65536 * p + e) * s + r * x := by rw [hcx]
      _ = p * (65536 * s) + (r * x + e * s) := by ring
  have hbound : r * x + e * s ≤ (lo * 65536 + x) * s := by
    rcases Nat.eq_zero_or_pos lo with rfl | hlo
    · rcases hzero rfl with hle | ⟨h1, rfl⟩
      · have hle' : P * x ≤ s * x := Nat.mul_le_mul_right x (by rwa [Nat.zero_add] at hle)
        rw [Nat.zero_mul, Nat.zero_add, Nat.mul_comm x]
        exact (Nat.le_add_left _ _).trans (herr.symm.le.trans hle')
      · obtain rfl : s = 1 := by omega
        obtain rfl : r = 0 := by omega
        obtain rfl : c = 65536 := by omega
        have : e = 0 := by omega
        rw [this]
        simp
    · have hrx : r * x ≤ s * x := Nat.mul_le_mul_right x hr.le
      have hes : e * s ≤ lo * 65536 * s := Nat.mul_le_mul_right s (by omega)
      rw [Nat.add_mul, Nat.mul_comm x]
      omega
  refine abs_sub_div_le (by positivity) ?_ ?_
  · have : p * (65536 * s) ≤ P * x := by omega
    exact_mod_cast this
  · have h : P * x ≤ p * (65536 * s) + (lo * 65536 + x) * s := by omega
    have hcast : ((lo * 65536 + x : ℕ) / 65536 : ℚ) * (65536 * s) = ((lo * 65536 + x) * s : ℕ) := by
      push_cast
      ring
    rw [hcast]
    exact_mod_cast h

include hlt hP in
/-- The error of the line of gentle RED. -/
theorem gentleLine_close (hP' : P ≤ 32768) (hn : hi * 65536 ≤ n) :
    |(gentleLine hi P n : ℚ) - redCurve lo hi P (n / 65536)| ≤ n / 65536 := by
  have hhi : 0 < hi := Nat.zero_lt_of_lt hlt
  have hcurve : redCurve lo hi P ((n : ℕ) / 65536) =
      ((65536 - P : ℕ) * n : ℚ) / (65536 * hi) - (65536 - 2 * P) := by
    unfold redCurve
    have hhi' : (hi : ℚ) ≠ 0 := by positivity
    rw [if_neg, Nat.cast_sub hP]
    · push_cast
      field_simp
      ring
    · rw [not_lt, le_div_iff₀ (by norm_num)]
      exact_mod_cast hn
  rw [gentleLine_eq hP', hcurve]
  generalize 65536 - P = Q
  have hQ := Nat.div_add_mod Q hi
  have hr := Nat.mod_lt Q hhi
  have hcn := Nat.div_add_mod (Q / hi * n) 65536
  have he := Nat.mod_lt (Q / hi * n) (show 0 < 65536 by decide)
  generalize Q / hi = c at *
  generalize Q % hi = r at hQ hr
  generalize c * n / 65536 = p at *
  generalize c * n % 65536 = e at hcn he
  have herr : Q * n = p * (65536 * hi) + (r * n + e * hi) := by
    calc Q * n = c * n * hi + r * n := by rw [← hQ]; ring
      _ = (65536 * p + e) * hi + r * n := by rw [hcn]
      _ = p * (65536 * hi) + (r * n + e * hi) := by ring
  have hbound : r * n + e * hi ≤ n * hi := by
    have hrn : r * n + n ≤ hi * n := by
      rw [← Nat.succ_mul]
      exact Nat.mul_le_mul_right n hr
    have heh : e * hi ≤ 65536 * hi := Nat.mul_le_mul_right hi he.le
    rw [Nat.mul_comm n]
    omega
  have habs : |(p : ℚ) - (Q * n : ℚ) / (65536 * hi)| ≤ n / 65536 := by
    refine abs_sub_div_le (by positivity) ?_ ?_
    · have : p * (65536 * hi) ≤ Q * n := by omega
      exact_mod_cast this
    · have h : Q * n ≤ p * (65536 * hi) + n * hi := by omega
      have hcast : (n / 65536 : ℚ) * (65536 * hi) = (n * hi : ℕ) := by
        push_cast
        ring
      rw [hcast]
      exact_mod_cast h
  push_cast
  rwa [sub_sub_sub_cancel_right]

end lines

/-- What the two lines should be. -/
structure LinesOk (lo hi P : ℕ) (gentle : Prop) [Decidable gentle] : Prop where
  range : ∀ n p, n < 2 ^ 31 → redLines lo hi P gentle n = some p → 0 ≤ p ∧ p ≤ 65536
  mono : ∀ m n p q, m ≤ n → n < 2 ^ 31 → redLines lo hi P gentle m = some p →
    redLines lo hi P gentle n = some q → p ≤ q
  close : ∀ (n : ℕ) (p : ℤ), n < 2 ^ 31 → redLines lo hi P gentle n = some p →
    |(p : ℚ) - redCurve lo hi P (n / 65536)| ≤ n / 65536

/-- An average is on one of the lines. -/
theorem redLines_eq_some_iff {p : ℤ} : redLines lo hi P gentle n = some p ↔
    lo * 65536 ≤ n ∧ (n < hi * 65536 ∧ p = redLine lo hi P n ∨
      hi * 65536 ≤ n ∧ gentle ∧ p = gentleLine hi P n) := by
  unfold redLines
  split_ifs with hlo hhi hg
  · exact iff_of_false (by simp) fun h => absurd h.1 (by omega)
  · rw [Option.some_inj]
    constructor
    · rintro rfl
      exact ⟨by omega, .inl ⟨hhi, rfl⟩⟩
    · rintro ⟨-, ⟨-, rfl⟩ | ⟨hle, -⟩⟩
      · rfl
      · exact absurd hle (by omega)
  · rw [Option.some_inj]
    constructor
    · rintro rfl
      exact ⟨by omega, .inr ⟨by omega, hg, rfl⟩⟩
    · rintro ⟨-, ⟨hlt, -⟩ | ⟨-, -, rfl⟩⟩
      · exact absurd hlt hhi
      · rfl
  · refine iff_of_false (by simp) ?_
    rintro ⟨-, ⟨hlt, -⟩ | ⟨-, hg', -⟩⟩
    · exact hhi hlt
    · exact hg hg'

theorem RedExact.linesOk (h : RedExact lo hi P gentle) (hlt : lo < hi) (hP : P ≤ 65536) :
    LinesOk lo hi P gentle := by
  have hspan : P / (hi - lo) * (hi - lo) ≤ P := Nat.div_mul_le_self _ _
  -- The second line starts above the end of the first one.
  have hstart : gentle → ∀ n, hi * 65536 ≤ n →
      (P / (hi - lo) * (hi - lo) - 1 : ℕ) ≤ gentleLine hi P n := by
    intro hg n hn
    have hle : gentleLine hi P _ ≤ gentleLine hi P n := gentleLine_mono hn
    rw [gentleLine_start hP (h.c4 hg)] at hle
    have hjoined := h.joined hg
    omega
  refine ⟨fun n p hn hp => ?_, fun m n p q hmn hn hp hq => ?_, fun n p hn hp => ?_⟩
  · obtain ⟨hlo, ⟨hhi, rfl⟩ | ⟨hhi, hg, rfl⟩⟩ := redLines_eq_some_iff.1 hp
    · have hrange := redLine_range hlt h.c2 hlo hhi
      omega
    · have h0 := hstart hg n hhi
      refine ⟨by omega, ?_⟩
      have htop := h.top hg
      have hP' := h.c4 hg
      have hle : (65536 - P) / hi * n / 65536 ≤ (65536 - P) / hi * (2 ^ 31 - 1) / 65536 :=
        Nat.div_le_div_right (Nat.mul_le_mul_left _ (by omega))
      rw [gentleLine_eq hP']
      omega
  · obtain ⟨hlo, ⟨hhi, rfl⟩ | ⟨hhi, hg, rfl⟩⟩ := redLines_eq_some_iff.1 hp
    · obtain ⟨hlo', ⟨hhi', rfl⟩ | ⟨hhi', hg', rfl⟩⟩ := redLines_eq_some_iff.1 hq
      · exact redLine_mono h.c2 hlo hmn
      · exact (redLine_range hlt h.c2 hlo hhi).2.trans (hstart hg' n hhi')
    · obtain ⟨-, ⟨hhi', -⟩ | ⟨-, -, rfl⟩⟩ := redLines_eq_some_iff.1 hq
      · exact absurd (hhi.trans hmn) (by omega)
      · exact gentleLine_mono hmn
  · obtain ⟨hlo, ⟨hhi, rfl⟩ | ⟨hhi, hg, rfl⟩⟩ := redLines_eq_some_iff.1 hp
    · exact redLine_close hlt hP h.c2 h.zero hlo hhi
    · exact gentleLine_close hlt hP (h.c4 hg) hhi

theorem redLines_red (hn : lo * 65536 ≤ n) (hn' : n < hi * 65536) :
    redLines lo hi P gentle n = some (redLine lo hi P n) :=
  redLines_eq_some_iff.2 ⟨hn, .inl ⟨hn', rfl⟩⟩

theorem redLines_gentle (hlt : lo < hi) (hg : gentle) (hn : hi * 65536 ≤ n) :
    redLines lo hi P gentle n = some (gentleLine hi P n) :=
  redLines_eq_some_iff.2 ⟨(Nat.mul_le_mul_right _ hlt.le).trans hn, .inr ⟨hn, hg, rfl⟩⟩

/-- The function is almost 0 right above `min_th`. -/
theorem redCurve_first (hlt : lo < hi) :
    redCurve lo hi P ((lo * 65536 + 1 : ℕ) / 65536) = P / (65536 * (hi - lo : ℕ)) := by
  obtain ⟨s, rfl, hs⟩ : ∃ s, hi = lo + s ∧ 0 < s := ⟨hi - lo, by omega, by omega⟩
  unfold redCurve
  have hs' : (s : ℚ) ≠ 0 := by positivity
  have hspan : ((lo + s : ℕ) : ℚ) - lo = s := by
    push_cast
    ring
  rw [if_pos, hspan, Nat.add_sub_cancel_left]
  · push_cast
    field_simp
    ring
  · rw [div_lt_iff₀ (by norm_num)]
    have : lo * 65536 + 1 < (lo + s) * 65536 := by omega
    exact_mod_cast this

namespace LinesOk

variable (h : LinesOk lo hi P gentle) (hlt : lo < hi) (hfits : hi < 2 ^ 15) (hP : P ≤ 65536)
include h hlt hfits

include hP in
/-- The product in `c_2` fits: otherwise the line is too high right above `min_th`. -/
theorem c2 : P / (hi - lo) * lo < 65536 := by
  by_contra hc2
  rw [not_lt] at hc2
  have hline : redLines lo hi P gentle (lo * 65536 + 1) = some _ :=
    redLines_red (by omega) (by omega)
  have hclose := h.close _ _ (by omega) hline
  have hval : 65536 ≤ redLine lo hi P (lo * 65536 + 1) := by
    unfold redLine
    have hsplit : P / (hi - lo) * (lo * 65536 + 1) =
        P / (hi - lo) + P / (hi - lo) * lo * 65536 := by ring
    rw [if_neg (by omega), hsplit, Nat.add_mul_div_right _ _ (by decide)]
    generalize P / (hi - lo) * lo = k at hc2
    generalize P / (hi - lo) / 65536 = d
    omega
  -- The average is less than half of 2^16, and the function is almost 0.
  rw [redCurve_first hlt] at hclose
  have hcurve : (P : ℚ) / (65536 * (hi - lo : ℕ)) ≤ 1 := by
    have hpos : 0 < 65536 * (hi - lo) := by omega
    have hle : P ≤ 65536 * (hi - lo) := by omega
    rw [div_le_one (by exact_mod_cast hpos)]
    exact_mod_cast hle
  have ha : ((lo * 65536 + 1 : ℕ) / 65536 : ℚ) ≤ 32768 := by
    rw [div_le_iff₀ (by norm_num)]
    have hle : lo * 65536 + 1 ≤ 32768 * 65536 := by omega
    exact_mod_cast hle
  have hval' : (65536 : ℚ) ≤ (redLine lo hi P (lo * 65536 + 1) : ℚ) := by exact_mod_cast hval
  have hle := (abs_le.1 hclose).2
  linarith

include hP in
/-- A line through 0 has a slope of at most 1, or it is exact: otherwise the probability of the
smallest average is truncated to 0. -/
theorem zero (hlo : lo = 0) : P ≤ hi ∨ hi = 1 ∧ P = 65536 := by
  subst hlo
  by_contra hne
  rw [not_or, not_le, not_and] at hne
  obtain ⟨hlt', hne⟩ := hne
  have hline : redLines 0 hi P gentle (0 * 65536 + 1) = some (redLine 0 hi P (0 * 65536 + 1)) :=
    redLines_red (Nat.le_succ _) (by omega)
  have hclose := h.close _ _ (by omega) hline
  have hc : P / hi < 65536 := by
    rw [Nat.div_lt_iff_lt_mul hlt]
    by_cases h1 : hi = 1
    · have := hne h1
      omega
    · omega
  have hval : redLine 0 hi P (0 * 65536 + 1) = 0 := by
    unfold redLine
    rw [if_neg (by decide), Nat.sub_zero, Nat.mul_zero, Nat.zero_mul, Nat.zero_add, Nat.mul_one,
      Nat.div_eq_of_lt hc]
    rfl
  rw [redCurve_first hlt, hval, Nat.sub_zero, Int.cast_zero, zero_sub, abs_neg] at hclose
  have hle := (le_abs_self _).trans hclose
  have hpos : (0 : ℚ) < hi := by exact_mod_cast hlt
  rw [div_le_iff₀ (by positivity)] at hle
  have hPhi : (P : ℚ) ≤ hi := by
    refine hle.trans (le_of_eq ?_)
    push_cast
    ring
  exact absurd (by exact_mod_cast hPhi : P ≤ hi) (by omega)

include hP in
/-- With `max_p` above 1/2 the constant `c_4` is negative, and taken for a large number. -/
theorem c4 (hg : gentle) : P ≤ 32768 := by
  by_contra hP'
  have hline := redLines_gentle (P := P) hlt hg le_rfl
  have hrange := (h.range _ _ (by omega) hline).1
  unfold gentleLine at hrange
  rw [if_neg hP', ← Nat.mul_assoc, Nat.mul_div_cancel _ (by decide)] at hrange
  have hle : (65536 - P) / hi * hi ≤ 65536 - P := Nat.div_mul_le_self _ _
  omega

include hP in
/-- The second line starts where the first one ends. -/
theorem joined (hg : gentle) :
    (65536 - P) % hi + (P / (hi - lo) * (hi - lo) - 1) ≤ P := by
  have hP' := h.c4 hlt hfits hP hg
  have hc2 := h.c2 hlt hfits hP
  have hline := redLines_gentle (P := P) hlt hg (le_refl (hi * 65536))
  have hlast : redLines lo hi P gentle (hi * 65536 - 1) = some _ :=
    redLines_red (by omega) (by omega)
  have hrange := (h.range _ _ (by omega) hline).1
  have hmono := h.mono _ _ _ _ (by omega) (by omega) hlast hline
  rw [gentleLine_start hP hP'] at hrange hmono
  rw [redLine_eq hc2 (by omega)] at hmono
  have hval : P / (hi - lo) * (hi - lo) - 1 ≤
      P / (hi - lo) * (hi * 65536 - 1 - lo * 65536) / 65536 := by
    obtain ⟨s, hs⟩ : ∃ s, hi - lo = s := ⟨_, rfl⟩
    have hc : P / s ≤ 65536 := (Nat.div_le_self _ _).trans hP
    have hx : hi * 65536 - 1 - lo * 65536 = s * 65536 - 1 := by omega
    rw [hs, hx, Nat.le_div_iff_mul_le (by decide), Nat.mul_sub, Nat.sub_mul, Nat.mul_assoc]
    omega
  omega

include hP in
/-- The second line stays below 1. -/
theorem top (hg : gentle) :
    (65536 - P) / hi * (2 ^ 31 - 1) / 65536 ≤ 131072 - 2 * P := by
  have hP' := h.c4 hlt hfits hP hg
  have hline := redLines_gentle (P := P) (n := 2 ^ 31 - 1) hlt hg (by omega)
  have hrange := (h.range _ _ (by omega) hline).2
  rw [gentleLine_eq hP'] at hrange
  omega

end LinesOk

/-! ### The coefficients -/

/-- What a successful `config_red` stores for the probability. -/
structure RedCoeffs (f : Fsk) (d : DnFsk) : Prop where
  flags : d.fs.flags = f.data.fs.flags
  minTh : d.minTh = f.head.minTh <<< 16
  maxTh : d.maxTh = f.head.maxTh <<< 16
  c1 : d.c1 = f.head.maxP.sdiv (f.head.maxTh - f.head.minTh)
  c2 : d.c2 = (d.c1 * f.head.minTh <<< 16) >>> 16
  c3 : f.data.fs.flags &&& dnIsGentleRed ≠ 0 →
    d.c3 = (scaleOne - f.head.maxP).sdiv f.head.maxTh
  c4 : f.data.fs.flags &&& dnIsGentleRed ≠ 0 → d.c4 = scaleOne - 2 * f.head.maxP

theorem configRed_coeffs {s t : Dn} {fp : FskPtr} (ht : configRed s fp = some t)
    (hok : s.malloc.1 = true) : RedCoeffs (s.fsk fp) (t.fsk fp).data := by
  unfold configRed at ht
  dsimp only at ht
  cases hsched : (s.fsk fp).sched with
  | none =>
    rw [hsched] at ht
    cases ht
  | some sp =>
    rw [hsched, Option.bind_eq_bind, Option.bind_some] at ht
    split at ht
    next => cases ht
    next =>
    split at ht
    next => cases ht
    next =>
    split at ht
    next hno =>
      rw [hok] at hno
      exact absurd hno (by decide)
    next =>
      obtain rfl := Option.some.inj ht
      have hself : ∀ (u : Dn) (f : Fsk), (u.setFsk fp f).fsk fp = f :=
        fun u f => Function.update_self ..
      rw [hself]
      exact ⟨rfl, rfl, rfl, rfl, rfl, fun hg => if_pos hg, fun hg => if_pos hg⟩

theorem toNat_sdiv {x y : BitVec 32} (hx : x.toNat < 2 ^ 31) (hy : y.toNat < 2 ^ 31) :
    (x.sdiv y).toNat = x.toNat / y.toNat := by
  have hx' : x.msb = false := BitVec.msb_eq_false_iff_two_mul_lt.2 (by omega)
  have hy' : y.msb = false := BitVec.msb_eq_false_iff_two_mul_lt.2 (by omega)
  rw [BitVec.sdiv_eq, hx', hy']
  exact BitVec.toNat_udiv

theorem toInt_shiftLeft {x : BitVec 32} (hx : x.toNat < 2 ^ 15) :
    (x <<< 16).toInt = (x.toNat * 65536 : ℕ) := by
  have hnat : (x <<< 16).toNat = x.toNat * 65536 := by
    rw [BitVec.toNat_shiftLeft, Nat.shiftLeft_eq, Nat.mod_eq_of_lt (by omega)]
  rw [BitVec.toInt_eq_toNat_of_lt (by omega), hnat]

/-- A line, computed with 64 bits. -/
theorem line_toInt (c c' avg : BitVec 32) (havg : 0 ≤ avg.toInt) :
    (scaleMul (c.setWidth 64) (avg.signExtend 64) - c'.setWidth 64).toInt =
      (c.toNat * avg.toNat / 65536 : ℕ) - (c'.toNat : ℤ) := by
  have hc := c.isLt
  have hc' := c'.isLt
  have hlt := BitVec.toInt_lt (x := avg)
  have hnat : avg.toInt = avg.toNat := by
    rw [BitVec.toInt_eq_toNat_cond] at havg ⊢
    split_ifs at havg ⊢ with hsmall
    · rfl
    · omega
  have hwide : ∀ x : BitVec 32, (x.setWidth 64).toInt = x.toNat := fun x => by
    have hx := x.isLt
    rw [BitVec.toInt_eq_toNat_of_lt (by rw [BitVec.toNat_setWidth]; omega),
      BitVec.toNat_setWidth, Nat.mod_eq_of_lt (by omega)]
  have hprod : (c.toNat * avg.toNat : ℤ) < 2 ^ 63 := by
    have hlt' : avg.toNat < 2 ^ 31 := by omega
    have : c.toNat * avg.toNat < 2 ^ 32 * 2 ^ 31 := Nat.mul_lt_mul'' hc hlt'
    exact_mod_cast this
  have hmul : (c.setWidth 64 * avg.signExtend 64).toInt = (c.toNat * avg.toNat : ℕ) := by
    rw [BitVec.toInt_mul, hwide, BitVec.toInt_signExtend_of_le (by decide), hnat,
      Int.bmod_eq_of_le_mul_two (by push_cast; nlinarith) (by omega)]
    push_cast
    rfl
  have hscale : (scaleMul (c.setWidth 64) (avg.signExtend 64)).toInt =
      (c.toNat * avg.toNat / 65536 : ℕ) := by
    rw [scaleMul, BitVec.toInt_sshiftRight, hmul, Int.shiftRight_eq_div_pow]
    rfl
  have hdiv : c.toNat * avg.toNat / 65536 < 2 ^ 47 := by
    rw [Nat.div_lt_iff_lt_mul (by decide)]
    exact_mod_cast hprod
  rw [BitVec.toInt_sub, hscale, hwide, Int.bmod_eq_of_le_mul_two (by omega) (by omega)]

/-- The parameters are numbers whose scaled thresholds fit. -/
structure RedNumbers (f : Fsk) (lo hi P : ℕ) : Prop where
  minTh : f.head.minTh.toNat = lo
  maxTh : f.head.maxTh.toNat = hi
  maxP : f.head.maxP.toNat = P
  lt : lo < hi
  fits : hi < 2 ^ 15
  le : P ≤ 65536

section coeffs

variable {f : Fsk} {d : DnFsk}

/-- Gentle RED. -/
def Fsk.Gentle (f : Fsk) : Prop := f.data.fs.flags &&& dnIsGentleRed ≠ 0

instance (f : Fsk) : Decidable f.Gentle := inferInstanceAs (Decidable (¬ _))

theorem RedCoeffs.c1_toNat (hd : RedCoeffs f d) (hf : RedNumbers f lo hi P) :
    d.c1.toNat = P / (hi - lo) := by
  obtain ⟨hlo, hhi, hP, hlt, hfits, hle⟩ := hf
  have hspan : (f.head.maxTh - f.head.minTh).toNat = hi - lo := by
    rw [BitVec.toNat_sub_of_le (BitVec.le_def.2 (by omega)), hlo, hhi]
  rw [hd.c1, toNat_sdiv (by omega) (by omega), hP, hspan]

theorem RedCoeffs.c2_toNat (hd : RedCoeffs f d) (hf : RedNumbers f lo hi P) :
    d.c2.toNat = P / (hi - lo) * lo % 65536 := by
  have hshift : (f.head.minTh <<< 16).toNat = lo * 65536 := by
    have hlo := hf.minTh
    have hlt := hf.lt
    have hfits := hf.fits
    rw [BitVec.toNat_shiftLeft, Nat.shiftLeft_eq, hlo, Nat.mod_eq_of_lt (by omega)]
  rw [hd.c2, BitVec.toNat_ushiftRight, BitVec.toNat_mul, hd.c1_toNat hf, hshift,
    Nat.shiftRight_eq_div_pow, ← Nat.mul_assoc]
  change _ % (65536 * 65536) / 65536 = _
  rw [Nat.mul_mod_mul_right, Nat.mul_div_cancel _ (by decide)]

theorem RedCoeffs.c3_toNat (hd : RedCoeffs f d) (hf : RedNumbers f lo hi P) (hg : f.Gentle) :
    d.c3.toNat = (65536 - P) / hi := by
  obtain ⟨hlo, hhi, hP, hlt, hfits, hle⟩ := hf
  have hone : scaleOne.toNat = 65536 := rfl
  have hsub : (scaleOne - f.head.maxP).toNat = 65536 - P := by
    rw [BitVec.toNat_sub_of_le (BitVec.le_def.2 (by omega)), hone, hP]
  rw [hd.c3 hg, toNat_sdiv (by omega) (by omega), hsub, hhi]

theorem RedCoeffs.c4_toNat (hd : RedCoeffs f d) (hf : RedNumbers f lo hi P) (hg : f.Gentle) :
    (d.c4.toNat : ℤ) = if P ≤ 32768 then (65536 - 2 * P : ℤ) else 2 ^ 32 + 65536 - 2 * P := by
  have hone : scaleOne.toNat = 65536 := rfl
  have htwo : (2 : BitVec 32).toNat = 2 := rfl
  have hle := hf.le
  rw [hd.c4 hg, BitVec.toNat_sub, BitVec.toNat_mul, hone, htwo, hf.maxP]
  split_ifs with hP
  · omega
  · omega

/-- The probability is on one of the two lines. -/
theorem RedCoeffs.redPb_eq (hd : RedCoeffs f d) (hf : RedNumbers f lo hi P) {avg : BitVec 32}
    (havg : 0 ≤ avg.toInt) :
    (redPb d avg).map BitVec.toInt = redLines lo hi P f.Gentle avg.toNat := by
  have hnat : avg.toInt = avg.toNat := by
    have := avg.isLt
    rw [BitVec.toInt_eq_toNat_cond] at havg ⊢
    split_ifs at havg ⊢ with hsmall
    · rfl
    · omega
  have hlo : d.minTh.toInt = (lo * 65536 : ℕ) := by
    rw [hd.minTh, toInt_shiftLeft (by rw [hf.minTh]; exact hf.lt.trans hf.fits), hf.minTh]
  have hhi : d.maxTh.toInt = (hi * 65536 : ℕ) := by
    rw [hd.maxTh, toInt_shiftLeft (by rw [hf.maxTh]; exact hf.fits), hf.maxTh]
  have hmin : avg.slt d.minTh = decide (avg.toNat < lo * 65536) := by
    rw [BitVec.slt, hnat, hlo]
    exact decide_eq_decide.2 Int.ofNat_lt
  have hmin' : d.minTh.slt avg = decide (lo * 65536 < avg.toNat) := by
    rw [BitVec.slt, hnat, hlo]
    exact decide_eq_decide.2 Int.ofNat_lt
  have hmax : avg.slt d.maxTh = decide (avg.toNat < hi * 65536) := by
    rw [BitVec.slt, hnat, hhi]
    exact decide_eq_decide.2 Int.ofNat_lt
  unfold redPb redLines
  rw [hmin, hmin', hmax, hd.flags]
  by_cases h1 : avg.toNat < lo * 65536
  · rw [if_pos (decide_eq_true h1), if_pos h1]
    rfl
  rw [if_neg (by simpa using h1), if_neg h1]
  by_cases h2 : avg.toNat < hi * 65536
  · rw [decide_eq_true h2, if_pos h2, if_neg (by simp), if_neg (by simp), Option.map_some]
    unfold redLine
    by_cases h3 : avg.toNat = lo * 65536
    · rw [if_pos h3, if_neg (by simp [h3])]
      rfl
    · rw [if_neg h3, if_pos (decide_eq_true (by omega)), line_toInt _ _ _ havg, hd.c1_toNat hf,
        hd.c2_toNat hf]
  rw [decide_eq_false h2, if_neg h2]
  by_cases hg : f.Gentle
  · rw [if_pos hg, if_neg, if_pos Bool.not_false, Option.map_some, line_toInt _ _ _ havg,
      hd.c3_toNat hf hg, hd.c4_toNat hf hg]
    · rfl
    · rw [Bool.not_false, Bool.true_and, decide_eq_true_eq]
      exact hg
  · rw [if_neg hg, if_pos]
    · rfl
    · rw [Bool.not_false, Bool.true_and, decide_eq_true_eq]
      exact not_not.1 hg

/-- The probability is right if the two lines are. -/
theorem RedCoeffs.redProb_iff (hd : RedCoeffs f d) (hf : RedNumbers f lo hi P) :
    RedProb lo hi P d ↔ LinesOk lo hi P f.Gentle := by
  -- An average is a number below 2^31.
  have hof : ∀ n < 2 ^ 31, (BitVec.ofNat 32 n).toNat = n ∧ (BitVec.ofNat 32 n).toInt = n := by
    intro n hn
    have hnat : (BitVec.ofNat 32 n).toNat = n := by
      rw [BitVec.toNat_ofNat, Nat.mod_eq_of_lt (by omega)]
    exact ⟨hnat, by rw [BitVec.toInt_eq_toNat_of_lt (by omega), hnat]⟩
  have hto : ∀ avg : BitVec 32, 0 ≤ avg.toInt → avg.toInt = avg.toNat ∧ avg.toNat < 2 ^ 31 := by
    intro avg havg
    have hlt := BitVec.toInt_lt (x := avg)
    have hnat : avg.toInt = avg.toNat := by
      have := avg.isLt
      rw [BitVec.toInt_eq_toNat_cond] at havg ⊢
      split_ifs at havg ⊢ with hsmall
      · rfl
      · omega
    exact ⟨hnat, by omega⟩
  have hline : ∀ avg p, 0 ≤ avg.toInt → redPb d avg = some p →
      redLines lo hi P f.Gentle avg.toNat = some p.toInt := by
    intro avg p havg hp
    rw [← hd.redPb_eq hf havg, hp]
    rfl
  have hpb : ∀ n p, n < 2 ^ 31 → redLines lo hi P f.Gentle n = some p →
      ∃ b, redPb d (BitVec.ofNat 32 n) = some b ∧ b.toInt = p := by
    intro n p hn hp
    have hpos : 0 ≤ (BitVec.ofNat 32 n).toInt := by
      rw [(hof n hn).2]
      omega
    have heq := hd.redPb_eq hf hpos
    rw [(hof n hn).1, hp, Option.map_eq_some_iff] at heq
    exact heq
  constructor
  · intro h
    refine ⟨fun n p hn hp => ?_, fun m n p q hmn hn hp hq => ?_, fun n p hn hp => ?_⟩
    · obtain ⟨b, hb, rfl⟩ := hpb n p hn hp
      exact h.range _ b (by rw [(hof n hn).2]; omega) hb
    · obtain ⟨b, hb, rfl⟩ := hpb m p (by omega) hp
      obtain ⟨b', hb', rfl⟩ := hpb n q hn hq
      refine h.mono _ _ b b' (by rw [(hof m (by omega)).2]; omega) ?_ hb hb'
      rw [(hof n hn).2, (hof m (by omega)).2]
      omega
    · obtain ⟨b, hb, rfl⟩ := hpb n p hn hp
      have hclose := h.close _ b (by rw [(hof n hn).2]; omega) hb
      rw [(hof n hn).2] at hclose
      simp only [Int.cast_natCast] at hclose
      exact hclose
  · intro h
    refine ⟨fun avg p havg hp => ?_, fun avg avg' p p' havg hle hp hp' => ?_,
      fun avg p havg hp => ?_⟩
    · exact h.range _ _ (hto avg havg).2 (hline avg p havg hp)
    · have havg' := havg.trans hle
      refine h.mono avg.toNat avg'.toNat _ _ ?_ (hto avg' havg').2 (hline avg p havg hp)
        (hline avg' p' havg' hp')
      rw [(hto avg havg).1, (hto avg' havg').1] at hle
      exact Int.ofNat_le.1 hle
    · have hclose := h.close _ _ (hto avg havg).2 (hline avg p havg hp)
      rw [(hto avg havg).1]
      simp only [Int.cast_natCast]
      exact hclose

end coeffs

/-- **The drop probability of RED.** After a successful `config_red` with thresholds in order and a
largest probability that is not 0, the probability is right for the exact parameters, and only for
them if the scaled thresholds fit. -/
theorem redPb_iff {s t : Dn} {fp : FskPtr} (ht : configRed s fp = some t) (hok : s.malloc.1 = true)
    (hmin : 0 ≤ (s.fsk fp).head.minTh.toInt)
    (hlt : (s.fsk fp).head.minTh.toInt < (s.fsk fp).head.maxTh.toInt)
    (hP : 0 < (s.fsk fp).head.maxP.toInt) (hP' : (s.fsk fp).head.maxP.toInt ≤ 65536) :
    let h := (s.fsk fp).head
    let exact := RedExact h.minTh.toNat h.maxTh.toNat h.maxP.toNat (s.fsk fp).Gentle
    let right := RedProb h.minTh.toInt h.maxTh.toInt h.maxP.toInt (t.fsk fp).data
    (exact → right) ∧ (right → exact ∨ 2 ^ 15 ≤ h.maxTh.toNat) := by
  intro h exact right
  have hnat : ∀ x : BitVec 32, 0 ≤ x.toInt → x.toInt = x.toNat := fun x hx => by
    have := x.isLt
    rw [BitVec.toInt_eq_toNat_cond] at hx ⊢
    split_ifs at hx ⊢ with hsmall
    · rfl
    · omega
  have hlo : h.minTh.toInt = h.minTh.toNat := hnat _ hmin
  have hhi : h.maxTh.toInt = h.maxTh.toNat := hnat _ (hmin.trans hlt.le)
  have hp : h.maxP.toInt = h.maxP.toNat := hnat _ hP.le
  have hlt' : h.minTh.toNat < h.maxTh.toNat := by
    change h.minTh.toInt < h.maxTh.toInt at hlt
    rw [hlo, hhi] at hlt
    exact Int.ofNat_lt.1 hlt
  have hle : h.maxP.toNat ≤ 65536 := by
    change h.maxP.toInt ≤ 65536 at hP'
    omega
  have hcoeffs := configRed_coeffs ht hok
  have hiff : h.maxTh.toNat < 2 ^ 15 → (right ↔ LinesOk h.minTh.toNat h.maxTh.toNat h.maxP.toNat
      (s.fsk fp).Gentle) := by
    intro hfits
    unfold right
    rw [hlo, hhi, hp]
    exact hcoeffs.redProb_iff ⟨rfl, rfl, rfl, hlt', hfits, hle⟩
  constructor
  · intro hexact
    exact (hiff hexact.fits).2 (hexact.linesOk hlt' hle)
  · intro hright
    by_cases hfits : h.maxTh.toNat < 2 ^ 15
    · have hl := (hiff hfits).1 hright
      exact .inl ⟨hfits, hl.c2 hlt' hfits hle, hl.zero hlt' hfits hle, hl.c4 hlt' hfits hle,
        hl.joined hlt' hfits hle, hl.top hlt' hfits hle⟩
    · exact .inr (not_lt.1 hfits)

/-- Thresholds 5 and 15, and a probability of 1/10. -/
theorem redPb_right : RedProb 5 15 6553
    (((configRed (redState 131 512) 0).get (by decide)).fsk 0).data := by
  have ht : configRed (redState 131 512) 0 =
      some ((configRed (redState 131 512) 0).get (by decide)) := (Option.some_get _).symm
  refine (redPb_iff ht rfl (by decide) (by decide) (by decide) (by decide)).1
    ⟨?_, ?_, ?_, ?_, ?_, ?_⟩
  · decide
  · decide
  · exact fun h => absurd h (by decide)
  all_goals exact fun hg => absurd hg (by decide)

/-- A flowset with thresholds 10 and 11, and a probability of 1. -/
def steepRed : Dn :=
  { redState 131 512 with
    fsk := fun _ => {
      head := { wQ := 131, minTh := 10, maxTh := 11, maxP := 65536 }
      data := { fs := { flags := dnIsRed } }
      sched := some 0 } }

/-- **A steep line.** The product in `c_2` overflows, and the probability is above 1. -/
theorem not_redPb : ¬ ∀ (s t : Dn) (fp : FskPtr), configRed s fp = some t → s.malloc.1 = true →
    0 ≤ (s.fsk fp).head.minTh.toInt →
    (s.fsk fp).head.minTh.toInt < (s.fsk fp).head.maxTh.toInt →
    (s.fsk fp).head.maxTh.toInt ≤ (s.fsk fp).data.fs.qsize.toNat →
    0 < (s.fsk fp).head.maxP.toInt → (s.fsk fp).head.maxP.toInt ≤ 65536 →
    RedProb (s.fsk fp).head.minTh.toInt (s.fsk fp).head.maxTh.toInt (s.fsk fp).head.maxP.toInt
      (t.fsk fp).data := by
  intro hall
  have ht : configRed steepRed 0 = some ((configRed steepRed 0).get (by decide)) :=
    (Option.some_get _).symm
  have hright := hall _ _ 0 ht rfl (by decide) (by decide) (by decide) (by decide) (by decide)
  have hrange := hright.range (BitVec.ofNat 32 (10 * 65536 + 1)) 655361 (by decide) (by decide)
  exact absurd hrange.2 (by decide)

end Dummynet
