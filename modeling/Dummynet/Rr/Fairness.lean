import Mathlib
import Dummynet.Rr.Credit

/-!
# Fairness of round robin

While two queues stay backlogged, they stay in the ring and get their quantum in turn. What a
queue was served is its credit at first and the quanta that it got, less the credit that is left.
The numbers of the quanta differ by one at most, so that the services, measured in quanta, differ
by little more than the longest packets.

## Main definitions

* `Busy`: both queues are backlogged.
* `Pace`: two queues in the order of the ring, with the numbers of quanta that they got.

## Main results

* `Pace.turn`, `Pace.last`, `Pace.steady`: the steps.
* `rr_fair`: a whole run.
-/

namespace Dummynet.Rr

variable {s t u v : Rr} {g : Traffic} {i j q : QPtr} {l l' : List QPtr} {L a b : ℕ}

/-- Both queues are backlogged. -/
structure Busy (i j : QPtr) (s : Rr) : Prop where
  left : i ∈ s.live ∧ s.mq i ≠ []
  right : j ∈ s.live ∧ s.mq j ≠ []

instance (i j : QPtr) (s : Rr) : Decidable (Busy i j s) :=
  decidable_of_iff ((i ∈ s.live ∧ s.mq i ≠ []) ∧ j ∈ s.live ∧ s.mq j ≠ [])
    ⟨fun h => ⟨h.1, h.2⟩, fun h => ⟨h.left, h.right⟩⟩

theorem Busy.symm (h : Busy i j s) : Busy j i s := ⟨h.right, h.left⟩

/-- Since the state `s` the queue got its quantum `n` times. -/
structure Paid (s : Rr) (q : QPtr) (n : ℕ) (u : Rr) (g : Traffic) : Prop where
  quantum : (u.ext q).quantum = (s.ext q).quantum
  bytes : g.bytes q + (credit u q).toNat =
    (credit s q).toNat + n * (s.ext q).quantum.toNat

/-- Queue `i` is before queue `j` in the ring; they got `a` and `b` quanta. -/
structure Pace (s : Rr) (i j : QPtr) (a b : ℕ) (u : Rr) (g : Traffic) (l : List QPtr) : Prop where
  left : Paid s i a u g
  right : Paid s j b u g
  order : [i, j].Sublist l

theorem Paid.of_eq {g' : Traffic} {n : ℕ} (h : Paid s q n u g)
    (hq : (v.ext q).quantum = (u.ext q).quantum) (hc : credit v q = credit u q)
    (hg : g'.bytes q = g.bytes q) : Paid s q n v g' :=
  ⟨hq.trans h.quantum, by rw [hg, hc, h.bytes]⟩

/-- A round of the loop: the first of the two queues may get a quantum and become the second. -/
theorem Pace.turn (h : Pace s i j a b u g l) (hij : i ≠ j) (hnd : l.Nodup) (hi : u.mq i ≠ [])
    (hq : (u.ext i).quantum.toNat ≤ 2 ^ 27) (ht : Turn (u, l) (v, l')) :
    Pace s i j a b v g l' ∨ Pace s j i b (a + 1) v g l' := by
  have hk : Kept u v := ht.kept
  cases ht with
  | @skip _ _ p _ hm _ hc =>
    obtain ⟨rfl, -⟩ | ⟨-, -, hsub⟩ := Ring.rotate_pair hij hnd h.order
    · exact absurd hm hi
    · exact .inl ⟨h.left.of_eq (hk.quantum i) (by rw [hc]) rfl,
        h.right.of_eq (hk.quantum j) (by rw [hc]) rfl, hsub⟩
  | @topUp _ _ p l _ _ hm hbig _ hc =>
    obtain ⟨rfl, hsub⟩ | ⟨hpi, hpj, hsub⟩ := Ring.rotate_pair hij hnd h.order
    · refine .inr ⟨h.right.of_eq (hk.quantum j) ?_ rfl, ⟨?_, ?_⟩, hsub⟩
      · rw [hc, Function.update_of_ne hij.symm]
      · rw [hk.quantum, h.left.quantum]
      · have hbytes := h.left.bytes
        rw [hc, Function.update_self, toNat_topUp hbig hq, h.left.quantum, Nat.succ_mul]
        omega
    · refine .inl ⟨h.left.of_eq (hk.quantum i) ?_ rfl, h.right.of_eq (hk.quantum j) ?_ rfl,
        hsub.trans (List.sublist_append_left l [p])⟩
      · rw [hc, Function.update_of_ne (Ne.symm hpi)]
      · rw [hc, Function.update_of_ne (Ne.symm hpj)]

theorem Traffic.bytes_dequeue (s t : Rr) (g : Traffic) (q : QPtr) :
    (Traffic.observe s .dequeue t g).bytes q =
      g.bytes q + (((s.mq q).take ((s.mq q).length - (t.mq q).length)).map Mbuf.len).sum := by
  simp [Traffic.bytes, Traffic.observe]

/-- A packet is paid from the credit. -/
theorem Paid.last {n : ℕ} {o : Option Mbuf} (h : Paid s q n v g) (hk : Kept u v)
    (hlast : Last v t l o) : Paid s q n t (Traffic.observe u .dequeue t g) := by
  have hmq : u.mq = v.mq := (funext hk.mq).symm
  cases hlast with
  | idle he =>
    subst he
    exact h.of_eq rfl rfl (by rw [Traffic.bytes_dequeue, hmq]; simp)
  | @serve p _ m rest hm hfit hbut =>
    have hc : credit t = Function.update (credit v) p (credit v p - m.len64.setWidth 32) := by
      rw [← credit_setCredit]
      exact funext fun q => congrArg RrQueue.credit (congrFun hbut.ext q)
    have hquantum : (t.ext q).quantum = (v.ext q).quantum := by
      rw [hbut.ext, quantum_setCredit]
    rcases eq_or_ne q p with rfl | hne
    · refine ⟨hquantum.trans h.quantum, ?_⟩
      have hcharge := toNat_charge hfit
      have hbytes := h.bytes
      rw [Traffic.bytes_dequeue, hmq, hm, hbut.mq_self, hc, Function.update_self]
      simp only [List.length_cons, Nat.add_sub_cancel_left, List.take_succ_cons, List.take_zero,
        List.map_cons, List.map_nil, List.sum_cons, List.sum_nil]
      omega
    · refine h.of_eq hquantum (by rw [hc, Function.update_of_ne hne]) ?_
      rw [Traffic.bytes_dequeue, hmq, hbut.mq_of_ne hne, show (setCredit v p _).mq q = v.mq q from rfl]
      simp

theorem Pace.last {o : Option Mbuf} (h : Pace s i j a b v g l) (hk : Kept u v)
    (hlast : Last v t l o) : Pace s i j a b t (Traffic.observe u .dequeue t g) l :=
  ⟨h.left.last hk hlast, h.right.last hk hlast, h.order⟩

/-- The other operations change nothing for two queues in the ring. -/
theorem Pace.steady {g' : Traffic} (h : Pace s i j a b u g l) (hl : ∀ q ∈ l, q ∈ u.live)
    (hi : i ∈ t.live) (hj : j ∈ t.live) (hst : Steady u t l l') (hg : g'.departed = g.departed) :
    Pace s i j a b t g' l' := by
  have hbytes : ∀ q, g'.bytes q = g.bytes q := fun q => by rw [Traffic.bytes, hg]; rfl
  have hcredit : ∀ q ∈ l, q ∈ t.live → credit t q = credit u q := fun q hq ht =>
    ((hst.entry q ht).resolve_right fun h => h.1 hq).2
  have hil : i ∈ l := h.order.subset (by simp)
  have hjl : j ∈ l := h.order.subset (by simp)
  refine ⟨h.left.of_eq (hst.quantum i (hl i hil) hi) (hcredit i hil hi) (hbytes i),
    h.right.of_eq (hst.quantum j (hl j hjl) hj) (hcredit j hjl hj) (hbytes j), ?_⟩
  have hfilter := h.order.filter fun q => decide (q ∈ t.live)
  rw [List.filter_eq_self.2 (by simp [hi, hj])] at hfilter
  exact hfilter.trans hst.order

/-- Two queues that take turns: they got the same number of quanta, or the second one of the ring
is one ahead. -/
def Even (s : Rr) (i j : QPtr) (u : Rr) (g : Traffic) (l : List QPtr) : Prop :=
  ∃ a, Pace s i j a a u g l ∨ Pace s j i a (a + 1) u g l

theorem Even.turns {x y : Rr × List QPtr} (ht : Relation.ReflTransGen Turn x y) (hij : i ≠ j)
    (hx : Inv x.1 x.2) (hbusy : Busy i j x.1) (h : Even s i j x.1 g x.2) :
    Even s i j y.1 g y.2 ∧ y.2.Nodup := by
  induction ht with
  | refl => exact ⟨h, hx.ringed.ring.nodup⟩
  | @tail y z hxy hyz ih =>
    obtain ⟨⟨a, ha⟩, hnd⟩ := ih
    have hk := kept_of_turns hxy
    have hi : y.1.mq i ≠ [] := hk.mq i ▸ hbusy.left.2
    have hj : y.1.mq j ≠ [] := hk.mq j ▸ hbusy.right.2
    have hqi : (y.1.ext i).quantum.toNat ≤ 2 ^ 27 :=
      hk.quantum i ▸ (hx.quantum i hbusy.left.1).2
    have hqj : (y.1.ext j).quantum.toNat ≤ 2 ^ 27 :=
      hk.quantum j ▸ (hx.quantum j hbusy.right.1).2
    refine ⟨?_, hyz.nodup hnd⟩
    rcases ha with ha | ha
    · exact ⟨a, ha.turn hij hnd hi hqi hyz⟩
    · rcases ha.turn hij.symm hnd hj hqj hyz with ha | ha
      · exact ⟨a, .inr ha⟩
      · exact ⟨a + 1, .inl ha⟩

/-- **One operation** while both queues stay backlogged. -/
theorem Even.step {op : SchedOp} {o : Option Mbuf} (hij : i ≠ j) (hi : Inv u l)
    (hbusy : Busy i j u) (hbusy' : Busy i j t) (hstep : RingStep u t l l' op o)
    (h : Even s i j u g l) : Even s i j t (Traffic.observe u op t g) l' := by
  cases hstep with
  | steady hop hst =>
    have hg : (Traffic.observe u op t g).departed = g.departed := by
      cases op with
      | dequeue => exact absurd rfl hop
      | _ => rfl
    obtain ⟨a, ha | ha⟩ := h
    · exact ⟨a, .inl (ha.steady hi.live hbusy'.left.1 hbusy'.right.1 hst hg)⟩
    · exact ⟨a, .inr (ha.steady hi.live hbusy'.right.1 hbusy'.left.1 hst hg)⟩
  | dequeue hturns _ hlast =>
    obtain ⟨⟨a, ha⟩, -⟩ := Even.turns hturns hij hi hbusy h
    have hk := kept_of_turns hturns
    exact ⟨a, ha.imp (fun h => h.last hk hlast) fun h => h.last hk hlast⟩

/-- What a queue was served is close to the quanta that it got. -/
theorem Paid.near {n : ℕ} (h : Paid s q n u g) (hq : 0 < (s.ext q).quantum.toNat)
    (hs : (credit s q).toNat ≤ L + (s.ext q).quantum.toNat)
    (hu : (credit u q).toNat ≤ L + (s.ext q).quantum.toNat) :
    |(g.bytes q : ℚ) / (s.ext q).quantum.toNat - n| ≤ 1 + L / (s.ext q).quantum.toNat := by
  have hbytes := h.bytes
  set x := (s.ext q).quantum.toNat
  have hx : (0 : ℚ) < x := by exact_mod_cast hq
  have heq : (g.bytes q : ℚ) / x - n = ((credit s q).toNat - (credit u q).toNat) / x := by
    have hcast : (g.bytes q : ℚ) + (credit u q).toNat = (credit s q).toNat + n * x := by
      exact_mod_cast hbytes
    rw [eq_div_iff hx.ne', sub_mul, div_mul_cancel₀ _ hx.ne']
    linarith
  have hbound : |((credit s q).toNat : ℚ) - (credit u q).toNat| ≤ x + L := by
    have h1 : ((credit s q).toNat : ℚ) ≤ L + x := by exact_mod_cast hs
    have h2 : ((credit u q).toNat : ℚ) ≤ L + x := by exact_mod_cast hu
    have h3 : (0 : ℚ) ≤ (credit s q).toNat := Nat.cast_nonneg _
    have h4 : (0 : ℚ) ≤ (credit u q).toNat := Nat.cast_nonneg _
    rw [abs_le]
    constructor <;> linarith
  calc |(g.bytes q : ℚ) / x - n| = |((credit s q).toNat : ℚ) - (credit u q).toNat| / x := by
        rw [heq, abs_div, abs_of_pos hx]
    _ ≤ (x + L) / x := by gcongr
    _ = 1 + L / x := by rw [add_div, div_self hx.ne']

/-- Two queues with almost the same number of quanta were served almost the same. -/
theorem Even.near (h : Even s i j u g l) {qi qj : ℕ} (hqi : qi = (s.ext i).quantum.toNat)
    (hqj : qj = (s.ext j).quantum.toNat) (hi : 0 < qi) (hj : 0 < qj)
    (hs : (credit s i).toNat ≤ L + qi ∧ (credit s j).toNat ≤ L + qj)
    (hu : (credit u i).toNat ≤ L + qi ∧ (credit u j).toNat ≤ L + qj) :
    |(g.bytes i : ℚ) / qi - g.bytes j / qj| ≤ 3 + L / qi + L / qj := by
  subst hqi hqj
  obtain ⟨a, b, hpi, hpj, hab⟩ : ∃ a b : ℕ, Paid s i a u g ∧ Paid s j b u g ∧
      |(a : ℚ) - b| ≤ 1 := by
    obtain ⟨a, h | h⟩ := h
    · exact ⟨a, a, h.left, h.right, by simp⟩
    · exact ⟨a + 1, a, h.right, h.left, by simp⟩
  have hni := abs_le.1 (hpi.near hi hs.1 hu.1)
  have hnj := abs_le.1 (hpj.near hj hs.2 hu.2)
  have hab := abs_le.1 hab
  rw [abs_le]
  constructor <;> linarith [hni.1, hni.2, hnj.1, hnj.2, hab.1, hab.2]

/-- What holds in a run while both queues stay backlogged. -/
structure Fair (L : ℕ) (s : Rr) (i j : QPtr) (x : Rr × Traffic) : Prop where
  credits : Credits L x.1
  busy : Busy i j x.1
  even : ∃ l, Inv x.1 l ∧ Even s i j x.1 x.2 l

theorem Fair.run {ops : List (SchedOp × Option Mbuf)} (hL : 0 < L) (hij : i ≠ j) (hi : Inv s l)
    (hc : Credits L s) (hbusy : Busy i j s) (horder : [i, j].Sublist l)
    (hrun : Runs.Run rrDesc.traffic
      (fun x op y => op.Promised x.1 ∧ op.LenLe L ∧ Busy i j y.1) (s, {}) ops (t, g)) :
    Fair L s i j (t, g) := by
  refine hrun.invariant (I := Fair L s i j) ?_ ⟨hc, hbusy, l, hi, 0, .inl ⟨?_, ?_, horder⟩⟩
  · rintro ⟨u, g⟩ op o ⟨v, g'⟩ ⟨hc, hbusy, l, hi, heven⟩ ⟨hp, hlen, hbusy'⟩ he
    obtain ⟨he, hg'⟩ := Runs.observe_eq_some.1 he
    obtain ⟨o', v', l', he', hi', hstep, hpkt⟩ := step_spec hi hp
    obtain ⟨rfl, rfl⟩ := Prod.mk.inj (Option.some.inj (he.symm.trans he'))
    exact ⟨step_credits hL hi hlen hstep hpkt hc, hbusy', l', hi',
      (hg' ▸ heven.step hij hi hbusy hbusy' hstep :)⟩
  · exact ⟨rfl, by simp [Traffic.bytes]⟩
  · exact ⟨rfl, by simp [Traffic.bytes]⟩

/-- The bound on the services at the end of such a run. -/
theorem Fair.bound {L' : ℕ} (h : Fair L' s i j (t, g)) (hL' : L' = max L 1) (hi : Inv s l)
    (hs : Credits L' s) (hbusy : Busy i j s) :
    |(g.bytes i : ℚ) / (s.ext i).quantum.toNat - g.bytes j / (s.ext j).quantum.toNat| ≤
      3 + L / (s.ext i).quantum.toNat + L / (s.ext j).quantum.toNat := by
  obtain ⟨l', -, (heven : Even s i j t g l')⟩ := h.even
  obtain ⟨hqi, hqj⟩ : (t.ext i).quantum = (s.ext i).quantum ∧
      (t.ext j).quantum = (s.ext j).quantum := by
    obtain ⟨a, ha | ha⟩ := heven
    · exact ⟨ha.left.quantum, ha.right.quantum⟩
    · exact ⟨ha.right.quantum, ha.left.quantum⟩
  have hsi := hs.lt i hbusy.left.1
  have hsj := hs.lt j hbusy.right.1
  have hti := h.credits.lt i h.busy.left.1
  have htj := h.credits.lt j h.busy.right.1
  have hi0 := (hi.quantum i hbusy.left.1).1
  have hj0 := (hi.quantum j hbusy.right.1).1
  simp only [hqi, hqj] at hti htj
  exact heven.near rfl rfl hi0 hj0 ⟨by omega, by omega⟩ ⟨by omega, by omega⟩

/-- **Fairness.** In every run from a state reached by a new instance, as long as two queues stay
backlogged, the bytes served to them, each divided by the quantum of its queue, differ by at most
3 and the length of the longest packet divided by either quantum, whatever the other queues do. -/
theorem rr_fair {s₀ : Rr} {ops ops' : List (SchedOp × Option Mbuf)} (hL : L + 2 ^ 27 < 2 ^ 31)
    (hs : IsNew s₀)
    (hrun : Runs.Run rrDesc.step (fun s op _ => op.Promised s ∧ op.LenLe L) s₀ ops s)
    (hbusy : Busy i j s)
    (hrun' : Runs.Run rrDesc.traffic
      (fun x op y => op.Promised x.1 ∧ op.LenLe L ∧ Busy i j y.1) (s, {}) ops' (t, g)) :
    |(g.bytes i : ℚ) / (s.ext i).quantum.toNat - g.bytes j / (s.ext j).quantum.toNat| ≤
      3 + L / (s.ext i).quantum.toNat + L / (s.ext j).quantum.toNat := by
  have hmono : ∀ op : SchedOp, op.LenLe L → op.LenLe (max L 1) := by
    rintro (_ | _ | _ | _) h
    · trivial
    · trivial
    · exact le_max_of_le_left h
    · trivial
  obtain ⟨g₀, hg₀⟩ := hrun.observe Traffic.watch {}
  obtain ⟨⟨l, hi⟩, hc, -⟩ := run_inv (L := max L 1) (by omega) hs
    (hg₀.mono fun _ _ _ h => ⟨h.1, hmono _ h.2⟩)
  have hok : ∀ (x : Rr × Traffic) (op : SchedOp) (y : Rr × Traffic),
      op.Promised x.1 ∧ op.LenLe L ∧ Busy i j y.1 →
        op.Promised x.1 ∧ op.LenLe (max L 1) ∧ Busy i j y.1 :=
    fun _ _ _ h => ⟨h.1, hmono _ h.2.1, h.2.2⟩
  have hrun' := hrun'.mono hok
  by_cases hij : i = j
  · subst hij
    rw [sub_self, abs_zero]
    positivity
  · rcases Ring.pair_sublist hij (hi.backlog i hbusy.left.1 hbusy.left.2)
      (hi.backlog j hbusy.right.1 hbusy.right.2) with horder | horder
    · exact (Fair.run (by omega) hij hi hc hbusy horder hrun').bound rfl hi hc hbusy
    · have hswap := (Fair.run (by omega) (Ne.symm hij) hi hc hbusy.symm horder
        (hrun'.mono fun _ _ _ h => ⟨h.1, h.2.1, h.2.2.symm⟩)).bound rfl hi hc hbusy.symm
      rw [abs_sub_comm]
      linarith

/-- Two queues of different quanta, with packets. -/
def twoQuanta : List SchedOp :=
  let fs (quantum : ℤ) : DnFsk := { fs := { par := ![1, quantum, 0, 0] } }
  let m : Mbuf := ⟨0, 1000, Mbuf.lt_1000⟩
  let m' : Mbuf := ⟨1, 1500, Mbuf.lt_1500⟩
  [.new 1 (fs 1000), .new 2 (fs 2000), .enqueue 1 m {}, .enqueue 2 m {}, .enqueue 1 m' {},
    .enqueue 2 m' {}, .enqueue 2 m' {}]

/-- After some packets of the two queues, the bound of at most 3 + 1500 / 1000 + 1500 / 2000. -/
theorem rr_fair_twoQuanta : ∃ g : Traffic, g.bytes 1 = 1000 ∧
    |(g.bytes 1 : ℚ) / 1000 - g.bytes 2 / 2000| ≤ 3 + 1500 / 1000 + 1500 / 2000 := by
  have hexec : ((Runs.exec rrDesc.step (fun s op _ => op.Promised s ∧ op.LenLe 1500) emptyInst
      twoQuanta).any fun s => decide (Busy 1 2 s ∧ (s.ext 1).quantum = 1000 ∧
        (s.ext 2).quantum = 2000) &&
      (Runs.exec rrDesc.traffic
        (fun x op y => op.Promised x.1 ∧ op.LenLe 1500 ∧ Busy 1 2 y.1) (s, {})
        [.dequeue, .dequeue, .dequeue]).any fun y => decide (y.2.bytes 1 = 1000)) = true := by
    decide +kernel
  obtain ⟨s, hs, hand⟩ := (Option.any_eq_true _ _).1 hexec
  rw [Bool.and_eq_true, decide_eq_true_eq, Option.any_eq_true] at hand
  obtain ⟨⟨hbusy, hq1, hq2⟩, ⟨t, g⟩, ht, hbytes⟩ := hand
  obtain ⟨l, hl⟩ := Runs.Run.of_exec hs
  obtain ⟨l', hl'⟩ := Runs.Run.of_exec ht
  have hfair := rr_fair (by decide) (show emptyInst.IsNew from ⟨rfl, rfl⟩) hl hbusy hl'
  rw [hq1, hq2] at hfair
  exact ⟨g, of_decide_eq_true hbytes, by simpa using hfair⟩

end Dummynet.Rr
