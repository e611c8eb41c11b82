import Dummynet.System.Drain

/-!
# Random early detection

`config_red` computes the tables and constants of RED from the flowset, the bandwidth of its
scheduler and two parameters, and `red_drops` keeps the average queue size. Both use fixed-point
numbers in 32-bit variables.

The product of the tick rate, the packet size and the scale overflows for the usual values, four
divisors are not checked, and neither is the weight `w_q`. The scaled queue size overflows from
`2 ^ 15` on, which a queue measured in bytes reaches.

## Main definitions

* `RedParms`: the parameters with which `config_red` is well defined.
* `RedSetUp`: what `config_red` should achieve.
* `RedCall`, `redRun`: calls of `red_drops` for a queue.

## Main results

* `configRed_setUp_iff`: when `config_red` is well defined.
* `redAverage_between`: what a call does to the average.
* `redRun_between`: the average is a moving average, as long as the scaled queue sizes fit.
-/

namespace Dummynet

variable {s t : Dn} {fp : FskPtr} {sp : SchkPtr}

/-! ### The table -/

/-- The weights of the table shrink. -/
theorem toNat_mul_shift {x y : BitVec 32} (hy : y.toNat ≤ 65536) :
    ((x * y) >>> 16).toNat ≤ x.toNat := by
  have hmod : (x * y).toNat ≤ x.toNat * y.toNat := by
    rw [BitVec.toNat_mul]
    exact Nat.mod_le _ _
  rw [BitVec.toNat_ushiftRight, Nat.shiftRight_eq_div_pow]
  calc (x * y).toNat / 2 ^ 16 ≤ x.toNat * 65536 / 2 ^ 16 :=
        Nat.div_le_div_right (hmod.trans (Nat.mul_le_mul_left _ hy))
    _ = x.toNat := Nat.mul_div_cancel _ (by decide)

/-- **The table** of the weights does not increase. -/
theorem redLookup_anti {first weight : BitVec 32} (hf : first.toNat ≤ 65536)
    (hw : weight.toNat ≤ 65536) (i : ℕ) : (redLookup first weight i).toNat ≤ 65536 ∧
      (redLookup first weight (i + 1)).toNat ≤ (redLookup first weight i).toNat := by
  induction i with
  | zero => exact ⟨hf, toNat_mul_shift hw⟩
  | succ i ih =>
    have hle := ih.2.trans ih.1
    exact ⟨hle, toNat_mul_shift hw⟩

/-- The factor of the table for a step: a power of the weight. -/
theorem scaleMul_iterate {w : BitVec 64} (h0 : 0 ≤ w.toInt) (hw : w.toInt ≤ 65536) (n : ℕ) :
    0 ≤ ((fun x => scaleMul x w)^[n] w).toInt ∧ ((fun x => scaleMul x w)^[n] w).toInt ≤ 65536 := by
  induction n with
  | zero => exact ⟨h0, hw⟩
  | succ n ih =>
    rw [Function.iterate_succ_apply']
    obtain ⟨hlo, hhi⟩ := ih
    generalize (fun x => scaleMul x w)^[n] w = x at hlo hhi ⊢
    have hprod : 0 ≤ x.toInt * w.toInt ∧ x.toInt * w.toInt ≤ 65536 * 65536 :=
      ⟨mul_nonneg hlo h0, mul_le_mul hhi hw h0 (by decide)⟩
    have hmul : (x * w).toInt = x.toInt * w.toInt := by
      rw [BitVec.toInt_mul, Int.bmod_eq_of_le_mul_two (by omega) (by omega)]
    rw [scaleMul, BitVec.toInt_sshiftRight, hmul, Int.shiftRight_eq_div_pow]
    constructor
    · exact Int.ediv_nonneg hprod.1 (by decide)
    · exact Int.ediv_le_of_le_mul (by decide) (hprod.2.trans (by decide))

/-! ### `config_red` -/

/-- The divisors of `config_red` are not 0. -/
structure RedDivisors (s : Dn) (fp : FskPtr) : Prop where
  wQ : (s.fsk fp).head.wQ ≠ 0
  depth : s.parms.redLookupDepth ≠ 0
  span : (s.fsk fp).head.maxTh - (s.fsk fp).head.minTh ≠ 0
  gentle : (s.fsk fp).data.fs.flags &&& dnIsGentleRed ≠ 0 → (s.fsk fp).head.maxTh ≠ 0

/-- The cost of a packet as `config_red` computes it. -/
def redCost (s : Dn) (sp : SchkPtr) : BitVec 32 :=
  if (s.schk sp).link.bandwidth.toInt ≤ 0 then 0 else
    (BitVec.ofNat 32 s.parms.hz * s.parms.redAvgPktSize * 8 * scaleOne).sdiv
      (s.schk sp).link.bandwidth

/-- The step of the table before it is made positive. -/
def redIdle (s : Dn) (fp : FskPtr) (sp : SchkPtr) : BitVec 32 :=
  ((((redCost s sp).signExtend 64 * 3).sdiv ((s.fsk fp).head.wQ.signExtend 64)).sdiv
    (s.parms.redLookupDepth.signExtend 64)).setWidth 32

/-- What a successful `config_red` stores for the average. -/
structure RedStored (s : Dn) (fp : FskPtr) (sp : SchkPtr) (d : DnFsk) : Prop where
  wQ : d.wQ = (s.fsk fp).head.wQ
  step : d.lookupStep = if redIdle s fp sp = 0 then 1 else redIdle s fp sp
  depth : d.lookupDepth = s.parms.redLookupDepth
  lookup : ∃ n, d.wQLookup = redLookup (scaleOne - (s.fsk fp).head.wQ)
    (((fun w => scaleMul w ((scaleOne - (s.fsk fp).head.wQ).signExtend 64))^[n]
      ((scaleOne - (s.fsk fp).head.wQ).signExtend 64)).setWidth 32)

/-- `config_red` returns if it does not divide by zero, and stores its results if there is
memory. -/
theorem configRed_spec (s : Dn) (fp : FskPtr) (hsched : (s.fsk fp).sched = some sp) :
    ((configRed s fp).isSome = true ↔ RedDivisors s fp) ∧
      ∀ t, configRed s fp = some t → s.malloc.1 = true → RedStored s fp sp (t.fsk fp).data := by
  unfold configRed
  dsimp only
  rw [hsched, Option.bind_eq_bind, Option.bind_some]
  split
  next hzero =>
    refine ⟨⟨fun h => absurd h (by simp), fun h => ?_⟩, fun t ht => absurd ht (by simp)⟩
    rcases hzero with h0 | h0
    · exact absurd h0 h.wQ
    · exact absurd h0 h.depth
  next hne =>
  split
  next hzero =>
    refine ⟨⟨fun h => absurd h (by simp), fun h => ?_⟩, fun t ht => absurd ht (by simp)⟩
    rcases hzero with h0 | h0
    · exact absurd h0 h.span
    · exact absurd h0.2 (h.gentle h0.1)
  next hne' =>
  rw [not_or] at hne hne'
  have hdiv : RedDivisors s fp := ⟨hne.1, hne.2, hne'.1, fun hg h0 => hne'.2 ⟨hg, h0⟩⟩
  split
  next hno =>
    refine ⟨⟨fun _ => hdiv, fun _ => rfl⟩, fun t _ hok => ?_⟩
    rw [hok] at hno
    exact absurd hno (by decide)
  next hyes =>
    refine ⟨⟨fun _ => hdiv, fun _ => rfl⟩, fun t ht _ => ?_⟩
    obtain rfl := Option.some.inj ht
    have hself : ∀ (u : Dn) (f : Fsk), (u.setFsk fp f).fsk fp = f :=
      fun u f => Function.update_self ..
    rw [hself]
    exact ⟨rfl, rfl, rfl, _, rfl⟩

/-! ### When `config_red` is well defined -/

/-- The product in the cost of a packet, without overflow. -/
def redProduct (s : Dn) : ℤ := s.parms.hz * s.parms.redAvgPktSize.toInt * 8 * 65536

/-- The idle time of a step, without overflow. -/
def redScale (s : Dn) (fp : FskPtr) (sp : SchkPtr) : ℤ :=
  let bandwidth := (s.schk sp).link.bandwidth.toInt
  let cost := if bandwidth ≤ 0 then 0 else (redProduct s).tdiv bandwidth
  ((cost * 3).tdiv (s.fsk fp).head.wQ.toInt).tdiv s.parms.redLookupDepth.toInt

/-- The number is an `int`. -/
def FitsInt (x : ℤ) : Prop := -2 ^ 31 ≤ x ∧ x < 2 ^ 31

/-- What a successful `config_red` should achieve: nothing overflows, the step is that of the exact
computation, and the table does not increase. -/
structure RedDone (s : Dn) (fp : FskPtr) (sp : SchkPtr) (d : DnFsk) : Prop where
  product : (s.schk sp).link.bandwidth.toInt ≤ 0 ∨ FitsInt (redProduct s)
  step_pos : 1 ≤ d.lookupStep.toInt
  step : d.lookupStep.toInt = if redScale s fp sp = 0 then 1 else redScale s fp sp
  table : ∀ i < d.lookupDepth.toNat, (d.wQLookup i).toNat ≤ 65536
  anti : ∀ i, i + 1 < d.lookupDepth.toNat → (d.wQLookup (i + 1)).toNat ≤ (d.wQLookup i).toNat

/-- `config_red` divides by zero nowhere, and if it succeeds, it has done what it should. -/
structure RedSetUp (s : Dn) (fp : FskPtr) (sp : SchkPtr) : Prop where
  returns : (configRed s fp).isSome = true
  done : ∀ t, configRed s fp = some t → s.malloc.1 = true → RedDone s fp sp (t.fsk fp).data

/-- The parameters with which `config_red` is well defined. -/
structure RedParms (s : Dn) (fp : FskPtr) (sp : SchkPtr) : Prop where
  divisors : RedDivisors s fp
  product : s.malloc.1 = true →
    (s.schk sp).link.bandwidth.toInt ≤ 0 ∨ FitsInt (redProduct s)
  scale : s.malloc.1 = true → 0 ≤ redScale s fp sp ∧ redScale s fp sp < 2 ^ 31
  weight : s.malloc.1 = true → 0 ≤ (s.fsk fp).head.wQ.toInt ∧ (s.fsk fp).head.wQ.toInt ≤ 65536

/-- A division of small numbers does not overflow. -/
theorem toInt_sdiv_of_small {x y : BitVec 64} (h : x.toInt.natAbs < 2 ^ 62) :
    (x.sdiv y).toInt = x.toInt.tdiv y.toInt ∧ (x.toInt.tdiv y.toInt).natAbs < 2 ^ 62 := by
  have hle : (x.toInt.tdiv y.toInt).natAbs ≤ x.toInt.natAbs := by
    rw [Int.natAbs_tdiv]
    exact Nat.div_le_self _ _
  rw [BitVec.toInt_sdiv, Int.bmod_eq_of_le_mul_two (by omega) (by omega)]
  exact ⟨rfl, by omega⟩

/-- Without overflow, the cost of a packet is the exact one. -/
theorem toInt_redCost (hp : (s.schk sp).link.bandwidth.toInt ≤ 0 ∨ FitsInt (redProduct s)) :
    (redCost s sp).toInt = if (s.schk sp).link.bandwidth.toInt ≤ 0 then 0 else
      (redProduct s).tdiv (s.schk sp).link.bandwidth.toInt := by
  unfold redCost
  split_ifs with hbw
  · rfl
  · have hfit := hp.resolve_left hbw
    have hprod : BitVec.ofNat 32 s.parms.hz * s.parms.redAvgPktSize * 8 * scaleOne =
        BitVec.ofInt 32 (redProduct s) := by
      rw [redProduct, BitVec.ofInt_mul, BitVec.ofInt_mul, BitVec.ofInt_mul, BitVec.ofInt_natCast,
        BitVec.ofInt_toInt]
      rfl
    have hint : (BitVec.ofInt 32 (redProduct s)).toInt = redProduct s := by
      obtain ⟨hlo, hhi⟩ := hfit
      rw [BitVec.toInt_ofInt, Int.bmod_eq_of_le_mul_two (by omega) (by omega)]
    rw [hprod, BitVec.toInt_sdiv_of_ne_or_ne, hint]
    right
    rintro hneg
    rw [hneg] at hbw
    exact hbw (by decide)

theorem setWidth_ofInt (x : ℤ) : (BitVec.ofInt 64 x).setWidth 32 = BitVec.ofInt 32 x := by
  refine BitVec.eq_of_toNat_eq ?_
  rw [BitVec.toNat_setWidth, BitVec.toNat_ofInt, BitVec.toNat_ofInt]
  omega

/-- Without overflow, `config_red` computes the exact idle time. -/
theorem redIdle_eq (hp : (s.schk sp).link.bandwidth.toInt ≤ 0 ∨ FitsInt (redProduct s)) :
    redIdle s fp sp = BitVec.ofInt 32 (redScale s fp sp) := by
  have hcost := toInt_redCost hp
  have hlo := BitVec.le_toInt (redCost s sp)
  have hhi := BitVec.toInt_lt (x := redCost s sp)
  have htriple : ((redCost s sp).signExtend 64 * 3).toInt = (redCost s sp).toInt * 3 := by
    rw [BitVec.toInt_mul, BitVec.toInt_signExtend_of_le (by omega),
      show (3 : BitVec 64).toInt = 3 from rfl]
    exact Int.bmod_eq_of_le_mul_two (by omega) (by omega)
  have hsmall : ((redCost s sp).signExtend 64 * 3).toInt.natAbs < 2 ^ 62 := by
    rw [htriple]
    omega
  obtain ⟨hq, hqs⟩ := toInt_sdiv_of_small (y := (s.fsk fp).head.wQ.signExtend 64) hsmall
  rw [← hq] at hqs
  obtain ⟨hq', -⟩ := toInt_sdiv_of_small (y := s.parms.redLookupDepth.signExtend 64) hqs
  rw [redIdle, ← BitVec.ofInt_toInt (x := BitVec.sdiv _ _), hq', hq, htriple, hcost,
    BitVec.toInt_signExtend_of_le (by omega), BitVec.toInt_signExtend_of_le (by omega)]
  exact setWidth_ofInt _

/-- The step is positive and exact when the idle time is a number that fits. -/
theorem step_exact_iff {x : ℤ} :
    (1 ≤ (if BitVec.ofInt 32 x = 0 then (1 : BitVec 32) else BitVec.ofInt 32 x).toInt ∧
      (if BitVec.ofInt 32 x = 0 then (1 : BitVec 32) else BitVec.ofInt 32 x).toInt =
        if x = 0 then 1 else x) ↔ 0 ≤ x ∧ x < 2 ^ 31 := by
  constructor
  · rintro ⟨hpos, heq⟩
    generalize (if BitVec.ofInt 32 x = 0 then (1 : BitVec 32) else BitVec.ofInt 32 x) = y at hpos heq
    have hlt := BitVec.toInt_lt (x := y)
    split_ifs at heq with h0 <;> omega
  · rintro ⟨h0, hlt⟩
    have hx : (BitVec.ofInt 32 x).toInt = x := by
      rw [BitVec.toInt_ofInt, Int.bmod_eq_of_le_mul_two (by omega) (by omega)]
    rcases eq_or_ne x 0 with rfl | hne
    · decide
    · have hne' : BitVec.ofInt 32 x ≠ 0 := fun h => hne (by rw [← hx, h]; rfl)
      rw [if_neg hne', if_neg hne, hx]
      exact ⟨by omega, rfl⟩

/-- The first entry of the table is in range exactly for a weight in range. -/
theorem scaleOne_sub_le {w : BitVec 32} :
    (scaleOne - w).toNat ≤ 65536 ↔ 0 ≤ w.toInt ∧ w.toInt ≤ 65536 := by
  rw [scaleOne, BitVec.toInt_eq_toNat_cond]
  have := w.isLt
  split_ifs <;> bv_omega

/-- The factor of the table is in range for a weight in range. -/
theorem redWeight_le {w : BitVec 32} (hw : 0 ≤ w.toInt ∧ w.toInt ≤ 65536) (n : ℕ) :
    (((fun x => scaleMul x ((scaleOne - w).signExtend 64))^[n]
      ((scaleOne - w).signExtend 64)).setWidth 32).toNat ≤ 65536 := by
  have hfirst := scaleOne_sub_le.2 hw
  have hint : ((scaleOne - w).signExtend 64).toInt = (scaleOne - w).toNat := by
    rw [BitVec.toInt_signExtend_of_le (by omega), BitVec.toInt_eq_toNat_cond, if_pos (by omega)]
  obtain ⟨hlo, hhi⟩ := scaleMul_iterate (w := (scaleOne - w).signExtend 64) (by omega) (by omega) n
  generalize (fun x => scaleMul x ((scaleOne - w).signExtend 64))^[n]
    ((scaleOne - w).signExtend 64) = x at hlo hhi
  rw [BitVec.toNat_setWidth]
  rw [BitVec.toInt_eq_toNat_cond] at hlo hhi
  split_ifs at hlo hhi <;> omega

/-- **When `config_red` is well defined**: for divisors that are not 0, a product and an idle time
that fit into an `int`, and a weight between 0 and 1. -/
theorem configRed_setUp_iff (hsched : (s.fsk fp).sched = some sp) :
    RedSetUp s fp sp ↔ RedParms s fp sp := by
  obtain ⟨hsome, hstored⟩ := configRed_spec s fp hsched
  constructor
  · rintro ⟨hreturns, hdone⟩
    obtain ⟨t, ht⟩ := Option.isSome_iff_exists.1 hreturns
    have hdiv := hsome.1 hreturns
    have hboth := fun hok => And.intro (hdone t ht hok) (hstored t ht hok)
    refine ⟨hdiv, fun hok => (hboth hok).1.product, fun hok => ?_, fun hok => ?_⟩
    · obtain ⟨hd, hst⟩ := hboth hok
      have h1 := hd.step_pos
      have h2 := hd.step
      rw [hst.step, redIdle_eq hd.product] at h1 h2
      exact step_exact_iff.1 ⟨h1, h2⟩
    · obtain ⟨hd, hst⟩ := hboth hok
      obtain ⟨n, hn⟩ := hst.lookup
      have h0 := hd.table 0 ?_
      · rw [hn] at h0
        exact scaleOne_sub_le.1 h0
      · rw [hst.depth]
        have := hdiv.depth
        exact Nat.pos_of_ne_zero fun h0 => this (BitVec.eq_of_toNat_eq h0)
  · rintro ⟨hdiv, hprod, hscale, hweight⟩
    refine ⟨hsome.2 hdiv, fun t ht hok => ?_⟩
    obtain ⟨-, hstep, -, n, hn⟩ := hstored t ht hok
    have hfirst := scaleOne_sub_le.2 (hweight hok)
    have hstep' := step_exact_iff.2 (hscale hok)
    rw [redIdle_eq (hprod hok)] at hstep
    rw [← hstep] at hstep'
    have htable := redLookup_anti hfirst (redWeight_le (hweight hok) n)
    rw [← hn] at htable
    exact ⟨hprod hok, hstep'.1, hstep'.2, fun i _ => (htable i).1, fun i _ => (htable i).2⟩

/-- A flowset with RED and thresholds 5 and 15, at a link of 1 Mbit/s. -/
def redState (wQ avgPktSize : BitVec 32) : Dn :=
  { Dn.init { redAvgPktSize := avgPktSize } [] with
    fsk := fun _ => {
      head := { wQ := wQ, minTh := 5, maxTh := 15, maxP := 6553 }
      data := { fs := { flags := dnIsRed } }
      sched := some 0 }
    schk := fun _ => { link := { bandwidth := 1000000 } } }

/-- A weight of 0.002 and packets of one byte. -/
theorem configRed_setUp_iff_small : RedSetUp (redState 131 1) 0 0 :=
  (configRed_setUp_iff rfl).2 ⟨⟨by decide, by decide, by decide, fun h => absurd (by decide) h⟩,
    fun _ => .inr ⟨by decide, by decide⟩, fun _ => ⟨by decide, by decide⟩,
    fun _ => ⟨by decide, by decide⟩⟩

/-- With a weight of 0, `config_red` divides by zero. -/
theorem not_configRed_setUp : ¬ ∀ (s : Dn) (fp : FskPtr) (sp : SchkPtr),
    (s.fsk fp).data.fs.flags &&& dnIsRed ≠ 0 → (s.fsk fp).sched = some sp → RedSetUp s fp sp := by
  intro hall
  have hdiv := (configRed_spec (redState 0 512) 0 rfl).1.1
    (hall (redState 0 512) 0 0 (by decide) rfl).returns
  exact hdiv.wQ rfl

/-! ### `red_drops` -/

/-- The queue size that RED looks at, in packets or in bytes. -/
def DnQueue.redSize (q : DnQueue) : BitVec 32 :=
  if q.fs.fs.flags &&& dnQsizeBytes ≠ 0 then q.ni.lenBytes else q.ni.length

/-- The values that `red_drops` uses for the average are those that `config_red` left, for a weight
between 0 and 1. -/
def DnFsk.RedTuned (d : DnFsk) : Prop :=
  ∃ s fp sp t, (s.fsk fp).sched = some sp ∧ configRed s fp = some t ∧ s.malloc.1 = true ∧
    0 ≤ (s.fsk fp).head.wQ.toInt ∧ (s.fsk fp).head.wQ.toInt ≤ 65536 ∧
    d.wQ = (t.fsk fp).data.wQ ∧ d.wQLookup = (t.fsk fp).data.wQLookup ∧
    d.lookupDepth = (t.fsk fp).data.lookupDepth

/-- The weight is between 0 and 1, and so are the entries of the table. -/
theorem DnFsk.RedTuned.bounds {d : DnFsk} (h : d.RedTuned) :
    (0 ≤ d.wQ.toInt ∧ d.wQ.toInt ≤ 65536) ∧ ∀ i, (d.wQLookup i).toNat ≤ 65536 := by
  obtain ⟨s, fp, sp, t, hsched, ht, hok, hlo, hhi, hw, hlookup, -⟩ := h
  have hst := (configRed_spec s fp hsched).2 t ht hok
  obtain ⟨n, hn⟩ := hst.lookup
  rw [hw, hst.wQ, hlookup, hn]
  exact ⟨⟨hlo, hhi⟩, fun i =>
    (redLookup_anti (scaleOne_sub_le.2 ⟨hlo, hhi⟩) (redWeight_le ⟨hlo, hhi⟩ n) i).1⟩

/-- The new average `new` is between the old one and the scaled size, or 0 for an empty queue. -/
def Averages (size : BitVec 32) (old new : ℤ) : Prop :=
  if size = 0 then 0 ≤ new ∧ new ≤ old
  else min old (size.toNat * 65536) ≤ new ∧ new ≤ max old (size.toNat * 65536)

/-- A part of a difference, rounded down, is between 0 and the difference. -/
theorem scaled_between {d w : ℤ} (h0 : 0 ≤ w) (hw : w ≤ 65536) :
    min 0 d ≤ d * w / 65536 ∧ d * w / 65536 ≤ max 0 d := by
  rcases le_total 0 d with hd | hd
  · rw [min_eq_left hd, max_eq_right hd]
    exact ⟨Int.ediv_nonneg (mul_nonneg hd h0) (by decide),
      Int.ediv_le_of_le_mul (by decide) (mul_le_mul_of_nonneg_left hw hd)⟩
  · rw [min_eq_right hd, max_eq_left hd]
    exact ⟨(Int.le_ediv_iff_mul_le (by decide)).2 (mul_le_mul_of_nonpos_left hw hd),
      Int.ediv_nonpos_of_nonpos_of_neg (mul_nonpos_of_nonpos_of_nonneg hd h0) (by decide)⟩

/-- **One call** keeps the average between the old one and the scaled size, if that fits into an
`int`. -/
theorem redAverage_between {cfg : DnCfg} {q : DnQueue} (hq : q.fs.RedTuned)
    (hold : 0 ≤ q.red.avg.toInt) (hsize : q.redSize.toNat < 2 ^ 15) :
    Averages q.redSize q.red.avg.toInt (redAverage cfg q).toInt := by
  obtain ⟨⟨hw0, hw⟩, htable⟩ := hq.bounds
  have havg := BitVec.toInt_lt (x := q.red.avg)
  unfold redAverage Averages
  dsimp only
  rw [← DnQueue.redSize]
  generalize q.redSize = size at hsize ⊢
  by_cases h0 : size = 0
  · rw [if_neg (not_not.2 h0), if_pos h0]
    split_ifs with hzero ht
    · -- the average gets smaller by an entry of the table
      have hle := toNat_mul_shift (x := q.red.avg) (htable (BitVec.toNat (BitVec.setWidth 32
        ((cfg.currTime - q.qTime).sdiv (q.fs.lookupStep.signExtend 64)))))
      rw [BitVec.toInt_eq_toNat_cond] at hold havg
      rw [BitVec.toInt_eq_toNat_cond, BitVec.toInt_eq_toNat_cond]
      split_ifs at hold havg ⊢ <;> omega
    · exact ⟨le_rfl, hold⟩
    · exact ⟨hold, le_rfl⟩
  · rw [if_pos h0, if_neg h0]
    obtain ⟨d, hd⟩ : ∃ d, (size.toNat : ℤ) * 65536 - q.red.avg.toInt = d := ⟨_, rfl⟩
    have hscaled : (size <<< 16).toInt = size.toNat * 65536 := by
      rw [BitVec.toInt_shiftLeft, Nat.shiftLeft_eq, Int.bmod_eq_of_le_mul_two] <;>
        push_cast <;> omega
    have hdiff : ((size <<< 16) - q.red.avg).toInt = d := by
      rw [BitVec.toInt_sub, hscaled, hd, Int.bmod_eq_of_le_mul_two (by omega) (by omega)]
    have hprod : -(2 ^ 31 * 65536) ≤ d * q.fs.wQ.toInt ∧ d * q.fs.wQ.toInt ≤ 2 ^ 31 * 65536 := by
      have hlo := mul_nonneg (by omega : 0 ≤ d + 2 ^ 31) hw0
      have hhi := mul_nonneg (by omega : 0 ≤ 2 ^ 31 - d) hw0
      constructor <;> linarith
    have hv : (scaleMul (BitVec.signExtend 64 ((size <<< 16) - q.red.avg))
        (q.fs.wQ.signExtend 64)).toInt = d * q.fs.wQ.toInt / 65536 := by
      rw [scaleMul, BitVec.toInt_sshiftRight, BitVec.toInt_mul,
        BitVec.toInt_signExtend_of_le (by omega), BitVec.toInt_signExtend_of_le (by omega), hdiff,
        Int.bmod_eq_of_le_mul_two (by omega) (by omega), Int.shiftRight_eq_div_pow]
      rfl
    obtain ⟨hlo, hhi⟩ := scaled_between (d := d) hw0 hw
    rw [← hv] at hlo hhi
    generalize scaleMul (BitVec.signExtend 64 ((size <<< 16) - q.red.avg))
      (q.fs.wQ.signExtend 64) = v at hlo hhi
    have hnarrow : (v.setWidth 32).toInt = v.toInt := by
      rw [← BitVec.ofInt_toInt (x := v), setWidth_ofInt, BitVec.toInt_ofInt,
        BitVec.toInt_ofInt, Int.bmod_eq_of_le_mul_two, Int.bmod_eq_of_le_mul_two] <;> omega
    rw [BitVec.toInt_add, hnarrow, Int.bmod_eq_of_le_mul_two] <;> omega

/-- A call of `red_drops` for a queue with the state of RED that the call before left: the clock, the
queue, the length of the packet and a random number. -/
structure RedCall where
  cfg : DnCfg
  q : DnQueue
  len : BitVec 32
  random : BitVec 32

/-- What a call leaves of the state of RED. -/
def RedCall.run (c : RedCall) (r : RedState) : RedState :=
  (redDrops c.cfg { c.q with red := r } c.len c.random).2

/-- Calls for a queue that has just been made. -/
def redRun (l : List RedCall) : RedState := l.foldl (fun r c => c.run r) {}

/-- The scaled queue size fits into an `int`. -/
def RedCall.Fits (c : RedCall) : Prop := c.q.redSize.toNat < 2 ^ 15

/-- A call stores the average that `redAverage` computes. -/
theorem RedCall.run_avg (c : RedCall) (r : RedState) :
    (c.run r).avg = redAverage c.cfg { c.q with red := r } := by
  unfold RedCall.run redDrops
  dsimp only
  split_ifs <;> rfl

/-- A call for a flowset with tuned values. -/
theorem RedCall.between {c : RedCall} {r : RedState} (hq : c.q.fs.RedTuned)
    (hfits : c.Fits) (hold : 0 ≤ r.avg.toInt) :
    Averages c.q.redSize r.avg.toInt (c.run r).avg.toInt := by
  rw [c.run_avg]
  exact redAverage_between (q := { c.q with red := r }) hq hold hfits

/-- A moving average stays between 0 and the largest size. -/
theorem Averages.bounds {size : BitVec 32} {old new : ℤ} {b : ℕ} (h : Averages size old new)
    (h0 : 0 ≤ old) (hold : old ≤ b * 65536) (hsize : size.toNat ≤ b) :
    0 ≤ new ∧ new ≤ b * 65536 := by
  unfold Averages at h
  split_ifs at h <;> omega

/-- **The average of RED is a moving average**: in every sequence of calls for a new queue in which
the scaled queue sizes fit into an `int`, each call moves it towards the scaled queue size, or
towards 0 for an empty queue, and it stays between 0 and the largest scaled size. -/
theorem redRun_between {l : List RedCall} {c : RedCall}
    (htuned : ∀ d ∈ l ++ [c], d.q.fs.RedTuned) (hfits : ∀ d ∈ l ++ [c], d.Fits) {b : ℕ}
    (hmax : ∀ d ∈ l ++ [c], d.q.redSize.toNat ≤ b) :
    Averages c.q.redSize (redRun l).avg.toInt (redRun (l ++ [c])).avg.toInt ∧
      0 ≤ (redRun (l ++ [c])).avg.toInt ∧ (redRun (l ++ [c])).avg.toInt ≤ b * 65536 := by
  induction l using List.reverseRecOn generalizing c with
  | nil =>
    have hstep := RedCall.between (r := {}) (htuned c (by simp)) (hfits c (by simp)) (by decide)
    exact ⟨hstep, hstep.bounds (by decide) (by simp) (hmax c (by simp))⟩
  | append_singleton l d ih =>
    obtain ⟨-, hold⟩ := ih (c := d) (fun e he => htuned e (List.mem_append_left _ he))
      (fun e he => hfits e (List.mem_append_left _ he))
      (fun e he => hmax e (List.mem_append_left _ he))
    have hstep := RedCall.between (htuned c (by simp)) (hfits c (by simp)) hold.1
    have hrun : redRun (l ++ [d] ++ [c]) = c.run (redRun (l ++ [d])) := by
      rw [redRun, List.foldl_append]
      rfl
    rw [hrun]
    exact ⟨hstep, hstep.bounds hold.1 hold.2 (hmax c (by simp))⟩

/-- A queue with some bytes, of the flowset that `config_red` has tuned. -/
def redQueue (s : Dn) (bytes : BitVec 32) : RedCall where
  cfg := {}
  q := {
    fs := { (((configRed s 0).getD s).fsk 0).data with fs := { flags := dnQsizeBytes } }
    ni := { lenBytes := bytes } }
  len := 0
  random := 0

theorem redQueue_tuned (bytes : BitVec 32) :
    (redQueue (redState 131 1) bytes).q.fs.RedTuned := by
  obtain ⟨t, ht⟩ := Option.isSome_iff_exists.1 ((configRed_spec (redState 131 1) 0
    rfl).1.2 ⟨by decide, by decide, by decide, fun h => absurd (by decide) h⟩)
  refine ⟨redState 131 1, 0, 0, t, rfl, ht, rfl, by decide, by decide, ?_, ?_, ?_⟩ <;>
    rw [redQueue, ht] <;> rfl

/-- Two calls with 1500 bytes in the queue. -/
theorem redRun_between_bytes :
    0 ≤ (redRun ([redQueue (redState 131 1) 1500] ++ [redQueue (redState 131 1) 1500])).avg.toInt := by
  have hall : ∀ {P : RedCall → Prop}, P (redQueue (redState 131 1) 1500) →
      ∀ d ∈ [redQueue (redState 131 1) 1500] ++ [redQueue (redState 131 1) 1500], P d := by
    intro P hP d hd
    obtain rfl : d = redQueue (redState 131 1) 1500 := by simpa using hd
    exact hP
  exact (redRun_between (hall (redQueue_tuned 1500)) (hall (by unfold RedCall.Fits; decide))
    (b := 1500) (hall (by decide))).2.1

/-- With 32768 bytes in the queue, the average becomes negative. -/
theorem not_redRun_between : ¬ ∀ (l : List RedCall) (c : RedCall),
    (∀ d ∈ l ++ [c], d.q.fs.RedTuned) → 0 ≤ (redRun (l ++ [c])).avg.toInt := by
  intro hall
  have hneg : (redRun ([] ++ [redQueue (redState 131 1) 32768])).avg.toInt < 0 := by decide +kernel
  refine absurd (hall [] (redQueue (redState 131 1) 32768) fun d hd => ?_) (not_le.2 hneg)
  obtain rfl : d = redQueue (redState 131 1) 32768 := by simpa using hd
  exact redQueue_tuned 32768

end Dummynet
