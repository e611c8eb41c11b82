import Dummynet.System.Drain

/-!
# The emulated clock

`dummynet_task` adds a tick to `curr_time` in every call, and corrects it when the times between the
calls, added up in `tick_delta_sum`, have run away from the ticks by a whole tick.

The difference in ticks is kept in an `int`: after a call that comes later than `2 ^ 31` ticks after
the one before, the clock goes back.

## Main definitions

* `Dn.Ticked`: a call of the timer, as far as the clock is concerned.
* `Dn.Ticks`: a sequence of calls with the times between them.
* `Dn.InStep`: the correction fits into its variable, and the clock does not wrap around.

## Main results

* `taskTime_inStep`: what one call does.
* `clock_tracks`: the clock follows the time in every sequence of calls that are in step.
-/

namespace Dummynet

variable {s t u : Dn} {e : ℤ} {l l' : List ℤ}

/-- `hz` divides a second into ticks of `tick` microseconds. -/
structure DnParms.Exact (parms : DnParms) : Prop where
  hz_pos : 0 < parms.hz
  tick : parms.hz * parms.tick = 1000000

theorem DnParms.Exact.tick_pos {parms : DnParms} (h : parms.Exact) : 0 < (parms.tick : ℤ) := by
  have := h.tick
  rcases Nat.eq_zero_or_pos parms.tick with h0 | h0
  · rw [h0, mul_zero] at this
    exact absurd this (by decide)
  · exact_mod_cast h0

/-- A call of `dummynet_task`, `e` microseconds after the one before, which left the clock as it is
in `s`. Everything else can have changed in between. -/
def Dn.Ticked (s : Dn) (e : ℤ) (t : Dn) : Prop :=
  ∃ u : Dn, u.currTime = s.currTime ∧ u.tickDeltaSum = s.tickDeltaSum ∧
    u.parms.hz = s.parms.hz ∧ u.parms.tick = s.parms.tick ∧ u.env.tickLast = e ∧
    taskTime u = some t

/-- The correction fits into an `int`, and `curr_time` into its 64 bits. -/
structure Dn.InStep (s : Dn) (e : ℤ) : Prop where
  diff : s.tickDeltaSum + e < (2 ^ 31 + 1) * s.parms.tick
  time : s.currTime.toNat + max 1 ((s.tickDeltaSum + e) / s.parms.tick) < 2 ^ 64

/-- A sequence of calls, each of which meets `ok`, with the times that elapse before them. -/
inductive Dn.Ticks (ok : Dn → ℤ → Prop) (s : Dn) : List ℤ → Dn → Prop
  | nil : Dn.Ticks ok s [] s
  | snoc {l : List ℤ} {t u : Dn} {e : ℤ} :
      Dn.Ticks ok s l t → 0 ≤ e → ok t e → t.Ticked e u → Dn.Ticks ok s (l ++ [e]) u

/-- The ticks that a call adds, when `d` microseconds have passed that the clock does not show. -/
def ticksFor (tick d : ℤ) : ℤ := if d ≤ 0 then 0 else max 1 (d / tick)

theorem ticksFor_nonneg (tick d : ℤ) : 0 ≤ ticksFor tick d := by
  unfold ticksFor
  split_ifs <;> omega

/-- What is left after the ticks is less than a tick. -/
theorem sub_ticksFor {tick d : ℤ} (htick : 0 < tick) (hd : -tick < d) :
    -tick < d - tick * ticksFor tick d ∧ d - tick * ticksFor tick d < tick := by
  unfold ticksFor
  split_ifs with h0
  · constructor <;> linarith
  · have hdiv := Int.mul_ediv_add_emod d tick
    have hlo := Int.emod_nonneg d htick.ne'
    have hhi := Int.emod_lt_of_pos d htick
    rcases le_total 1 (d / tick) with h | h
    · rw [max_eq_right h]
      constructor <;> linarith
    · rw [max_eq_left h]
      have hq : 0 ≤ d / tick := Int.ediv_nonneg (by omega) htick.le
      have : tick * (d / tick) ≤ tick := by nlinarith
      constructor <;> linarith

theorem signExtend_ofInt {q : ℤ} (h0 : 0 ≤ q) (h : q < 2 ^ 31) :
    (BitVec.ofInt 32 q).signExtend 64 = BitVec.ofInt 64 q := by
  refine BitVec.eq_of_toInt_eq ?_
  rw [BitVec.toInt_signExtend_of_le (by omega), BitVec.toInt_ofInt, BitVec.toInt_ofInt,
    Int.bmod_eq_of_le_mul_two (by omega) (by omega), Int.bmod_eq_of_le_mul_two (by omega) (by omega)]

theorem toNat_add_ofInt {x : BitVec 64} {q : ℤ} (h0 : 0 ≤ q) (h : x.toNat + q < 2 ^ 64) :
    ((x + BitVec.ofInt 64 q).toNat : ℤ) = x.toNat + q := by
  have hq : (BitVec.ofInt 64 q).toNat = q.toNat := by
    rw [BitVec.toNat_ofInt]
    omega
  rw [BitVec.toNat_add, hq, Nat.mod_eq_of_lt (by omega)]
  omega

/-- **One call** adds the ticks that have passed, and keeps the rest. -/
theorem taskTime_inStep (hp : s.parms.Exact) (hlo : -(s.parms.tick : ℤ) < s.tickDeltaSum)
    (he : 0 ≤ e) (hin : s.InStep e) (h : s.Ticked e t) :
    (t.currTime.toNat : ℤ) = s.currTime.toNat + ticksFor s.parms.tick (s.tickDeltaSum + e) ∧
      t.tickDeltaSum = s.tickDeltaSum + e -
        s.parms.tick * ticksFor s.parms.tick (s.tickDeltaSum + e) ∧
      t.parms.hz = s.parms.hz ∧ t.parms.tick = s.parms.tick := by
  obtain ⟨u, hnow, hsum, hhz, htick, hlast, h⟩ := h
  have htick0 := hp.tick_pos
  have hdelta : (e * (s.parms.hz : ℤ) - 1000000).tdiv s.parms.hz = e - s.parms.tick := by
    have hz0 : (s.parms.hz : ℤ) ≠ 0 := by exact_mod_cast hp.hz_pos.ne'
    have hsplit : e * (s.parms.hz : ℤ) - 1000000 = s.parms.hz * (e - s.parms.tick) := by
      have : (s.parms.hz : ℤ) * s.parms.tick = 1000000 := by exact_mod_cast hp.tick
      rw [mul_sub, this, mul_comm]
    rw [hsplit, Int.mul_tdiv_cancel_left _ hz0]
  unfold taskTime at h
  simp only [hhz, htick, hlast, hdelta, hnow, hsum] at h
  rw [if_neg (by have := hp.hz_pos; omega)] at h
  obtain rfl := Option.some.inj h
  have hdiff := hin.diff
  have htime := hin.time
  obtain ⟨T, hT⟩ : ∃ T : ℤ, (s.parms.tick : ℤ) = T := ⟨_, rfl⟩
  obtain ⟨D, hD⟩ : ∃ D : ℤ, s.tickDeltaSum + e = D := ⟨_, rfl⟩
  have hd : s.tickDeltaSum + (e - T) = D - T := by omega
  rw [hT, hD] at hdiff htime ⊢
  rw [hT] at htick0 hlo
  rw [hd]
  by_cases hlate : 0 ≤ D - T - T
  · -- whole ticks are missing
    have hq : (D - T).tdiv T = D / T - 1 := by
      rw [Int.tdiv_eq_ediv_of_nonneg (by omega), Int.sub_ediv_of_dvd _ (dvd_refl T),
        Int.ediv_self htick0.ne']
    have hq1 : 1 ≤ D / T - 1 := by
      have : 2 ≤ D / T := (Int.le_ediv_iff_mul_le htick0).2 (by omega)
      omega
    have hq2 : D / T - 1 < 2 ^ 31 := by
      have := (Int.ediv_lt_iff_lt_mul htick0).2 hdiff
      omega
    have hticks : ticksFor T D = D / T := by
      rw [ticksFor, if_neg (by omega), max_eq_right (by omega)]
    rw [if_pos hlate, hq, signExtend_ofInt (by omega) hq2, hticks]
    refine ⟨?_, ?_, hhz, htick.trans (by omega)⟩
    · have hle := le_max_right 1 (D / T)
      have hone := toNat_add_ofInt (x := s.currTime) (q := 1) (by omega) (by omega)
      have htwo := toNat_add_ofInt (x := s.currTime + BitVec.ofInt 64 1) (q := D / T - 1)
        (by omega) (by omega)
      exact htwo.trans (by omega)
    · rw [Int.tmod_eq_emod_of_nonneg (by omega), Int.sub_emod_right]
      exact Int.emod_def D T
  rw [if_neg hlate]
  by_cases hearly : D - T + T ≤ 0
  · -- the call came too early
    rw [if_pos hearly, ticksFor, if_pos (by omega), BitVec.add_sub_cancel]
    exact ⟨(add_zero (s.currTime.toNat : ℤ)).symm, by dsimp only; omega, hhz, htick.trans (by omega)⟩
  · have hticks : ticksFor T D = 1 := by
      have : D / T < 2 := (Int.ediv_lt_iff_lt_mul htick0).2 (by omega)
      rw [ticksFor, if_neg (by omega), max_eq_left (by omega)]
    have hle := le_max_left 1 (D / T)
    have hone := toNat_add_ofInt (x := s.currTime) (q := 1) (by omega) (by omega)
    rw [if_neg hearly, hticks]
    exact ⟨hone, by dsimp only; omega, hhz, htick.trans (by omega)⟩

/-- In a sequence of calls, the clock never goes back, and it shows the time that has passed. -/
theorem Dn.Ticks.spec {s₀ : Dn} (hp : s₀.parms.Exact) (h0 : s₀.tickDeltaSum = 0)
    (h : Dn.Ticks Dn.InStep s₀ l s) :
    s₀.parms.tick * ((s.currTime.toNat : ℤ) - s₀.currTime.toNat) + s.tickDeltaSum = l.sum ∧
      -(s₀.parms.tick : ℤ) < s.tickDeltaSum ∧ s.tickDeltaSum < s₀.parms.tick ∧
      s.parms.hz = s₀.parms.hz ∧ s.parms.tick = s₀.parms.tick := by
  have htick := hp.tick_pos
  induction h with
  | nil => exact ⟨by simp [h0], by omega, by omega, rfl, rfl⟩
  | @snoc l t u e _ he hin hcall ih =>
    obtain ⟨hsum, hlo, -, hhz, hti⟩ := ih
    have hpt : t.parms.Exact := ⟨by rw [hhz]; exact hp.hz_pos, by rw [hhz, hti]; exact hp.tick⟩
    obtain ⟨hnow, hrest, hhz', hti'⟩ := taskTime_inStep hpt (by rw [hti]; exact hlo) he hin hcall
    have hbound := sub_ticksFor htick (d := t.tickDeltaSum + e) (by omega)
    rw [hti] at hnow hrest
    rw [← hrest] at hbound
    refine ⟨?_, hbound.1, hbound.2, hhz'.trans hhz, hti'.trans hti⟩
    rw [List.sum_append, List.sum_singleton, ← hsum, hnow, hrest]
    ring

/-- The clock has followed the time from `s₀` to `t`, where `l` are the times between the calls and
`s` is the state before the last one. -/
structure Dn.Tracks (s₀ s t : Dn) (l : List ℤ) : Prop where
  mono : s.currTime.toNat ≤ t.currTime.toNat
  total : s₀.parms.tick * ((t.currTime.toNat : ℤ) - s₀.currTime.toNat) + t.tickDeltaSum = l.sum
  lo : -(s₀.parms.tick : ℤ) < t.tickDeltaSum
  hi : t.tickDeltaSum < s₀.parms.tick

/-- **The clock follows the time** in every sequence of calls that are in step. -/
theorem clock_tracks {s₀ : Dn} (hp : s₀.parms.Exact) (h0 : s₀.tickDeltaSum = 0)
    (h : Dn.Ticks Dn.InStep s₀ l s) (he : 0 ≤ e) (hin : s.InStep e) (hcall : s.Ticked e t) :
    s₀.Tracks s t (l ++ [e]) := by
  obtain ⟨-, hlo, -, hhz, hti⟩ := h.spec hp h0
  have hps : s.parms.Exact := ⟨by rw [hhz]; exact hp.hz_pos, by rw [hhz, hti]; exact hp.tick⟩
  obtain ⟨hnow, -⟩ := taskTime_inStep hps (by rw [hti]; exact hlo) he hin hcall
  have hnn := ticksFor_nonneg s.parms.tick (s.tickDeltaSum + e)
  obtain ⟨htotal, hlo', hhi', -⟩ := (h.snoc he hin hcall).spec hp h0
  exact ⟨by omega, htotal, hlo', hhi'⟩

/-- The clock is at `now`, and `e` microseconds have passed since the last call. -/
def lateBy (now : BitVec 64) (e : ℤ) : Dn :=
  { Dn.init {} [] with cfg := { currTime := now }, env := { tickLast := e } }

theorem ticked_lateBy (now : BitVec 64) (e : ℤ) : ∃ t, taskTime (lateBy now e) = some t ∧
    Dn.Ticked (lateBy now 0) e t :=
  ⟨_, rfl, lateBy now e, rfl, rfl, rfl, rfl, rfl, rfl⟩

theorem exact_lateBy (now : BitVec 64) (e : ℤ) : (lateBy now e).parms.Exact :=
  ⟨by change 0 < 1000; decide, by change 1000 * 1000 = 1000000; decide⟩

theorem clock_tracks_late : ∃ t, Dn.Ticked (lateBy 0 0) 2500 t ∧
    (lateBy 0 0).Tracks (lateBy 0 0) t ([] ++ [2500]) := by
  obtain ⟨t, -, ht⟩ := ticked_lateBy 0 2500
  exact ⟨t, ht, clock_tracks (exact_lateBy 0 0) rfl .nil (by decide)
    ⟨by decide, by decide⟩ ht⟩

/-- After `2 ^ 31 + 1` ticks without a call, the clock goes back. -/
theorem not_clock_tracks : ¬ ∀ (s₀ s t : Dn) (l : List ℤ) (e : ℤ), s₀.parms.Exact →
    s₀.tickDeltaSum = 0 → Dn.Ticks (fun _ _ => True) s₀ l s → 0 ≤ e → s.Ticked e t →
    s₀.Tracks s t (l ++ [e]) := by
  intro hall
  obtain ⟨t, ht, hcall⟩ := ticked_lateBy (2 ^ 40) 2147483649000
  have hback := (hall _ _ t [] _ (exact_lateBy _ 0) rfl .nil (by decide) hcall).mono
  have hnow : (taskTime (lateBy (2 ^ 40) 2147483649000)).all
      (fun t => decide (t.currTime.toNat < 2 ^ 40)) = true := by decide +kernel
  rw [ht] at hnow
  exact absurd hback (not_le.2 (of_decide_eq_true hnow))

end Dummynet
