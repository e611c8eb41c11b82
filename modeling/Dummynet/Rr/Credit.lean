import Dummynet.Rr.Invariant

/-!
# Credits of the round robin scheduler

A queue gets its quantum only when its credit is not enough for its first packet, and a packet is
taken only when the credit is enough. The credits are therefore never negative, and below the
length of the longest packet and one quantum. Together with the invariant of the ring this is what
`rr_dequeue` relies on.

## Main definitions

* `Credits`: the bounds of the credits.

## Main results

* `step_credits`: every operation keeps them.
* `rrDequeue_of_run`: the ring, the credits and the packets in every state of a run.
-/

namespace Dummynet.Rr

variable {s t u : Rr} {q : QPtr} {l l' : List QPtr} {L : ℕ}

/-- Packets have at most `L` bytes, and a credit is below `L` and the quantum of its queue. -/
structure Credits (L : ℕ) (s : Rr) : Prop where
  short : ∀ q ∈ s.live, ∀ m ∈ s.mq q, m.len ≤ L
  lt : ∀ q ∈ s.live, (credit s q).toNat < L + (s.ext q).quantum.toNat

/-- More credit for a packet that is too long. -/
theorem toNat_topUp {m : Mbuf} {x quantum : BitVec 32} (h : tooBig m x)
    (hq : quantum.toNat ≤ 2 ^ 27) : (x + quantum).toNat = x.toNat + quantum.toNat := by
  have hlt := (tooBig_iff m x).1 h
  have hm := m.len_lt
  rw [BitVec.toNat_add, Nat.mod_eq_of_lt (by omega)]

/-- The credit that a packet leaves. -/
theorem toNat_charge {m : Mbuf} {x : BitVec 32} (h : ¬ tooBig m x) :
    (x - m.len64.setWidth 32).toNat + m.len = x.toNat := by
  have hle : m.len ≤ x.toNat := not_lt.1 fun hlt => h ((tooBig_iff m x).2 hlt)
  have hm := m.len_lt
  have hlen : (m.len64.setWidth 32).toNat = m.len := by
    rw [BitVec.toNat_setWidth, Mbuf.toNat_len64, Nat.mod_eq_of_lt (by omega)]
  rw [BitVec.toNat_sub_of_le (by rw [BitVec.le_def, hlen]; exact hle), hlen]
  omega

theorem Turn.credits {x y : Rr × List QPtr} (h : Turn x y)
    (hq : ∀ q ∈ x.1.live, (x.1.ext q).quantum.toNat ≤ 2 ^ 27) (hx : Credits L x.1) :
    Credits L y.1 := by
  have hk := h.kept
  refine ⟨fun q hy m hm => ?_, fun q hy => ?_⟩
  · rw [hk.mq] at hm
    exact hx.short q (hk.live ▸ hy) m hm
  · rw [hk.live] at hy
    rw [hk.quantum]
    cases h with
    | skip _ _ hc =>
      simp only [hc]
      exact hx.lt q hy
    | @topUp s t p l m rest hm hbig _ hc =>
      simp only [hc]
      rcases eq_or_ne q p with rfl | hne
      · have hlt := (tooBig_iff m _).1 hbig
        have hlen := hx.short q hy m (by simp [hm])
        rw [Function.update_self, toNat_topUp hbig (hq q hy)]
        simp only
        omega
      · rw [Function.update_of_ne hne]
        exact hx.lt q hy

theorem turns_credits {x y : Rr × List QPtr} (h : Relation.ReflTransGen Turn x y)
    (hq : ∀ q ∈ x.1.live, (x.1.ext q).quantum.toNat ≤ 2 ^ 27) (hx : Credits L x.1) :
    Credits L y.1 := by
  induction h with
  | refl => exact hx
  | tail hxy h ih =>
    have hk := kept_of_turns hxy
    exact h.credits (fun q hy => hk.quantum q ▸ hq q (hk.live ▸ hy)) ih

theorem Last.credits {o : Option Mbuf} (h : Last s t l o) (hs : Credits L s) : Credits L t := by
  cases h with
  | idle h => exact h ▸ hs
  | @serve p l m rest hm hfit hbut =>
    have hlive : t.live = s.live := hbut.live
    have hc : credit t = Function.update (credit s) p (credit s p - m.len64.setWidth 32) := by
      rw [← credit_setCredit]
      exact funext fun q => congrArg RrQueue.credit (congrFun hbut.ext q)
    refine ⟨fun q hq m' hm' => ?_, fun q hq => ?_⟩
    · rcases eq_or_ne q p with rfl | hne
      · rw [hbut.mq_self] at hm'
        exact hs.short q (hlive ▸ hq) m' (by simp [hm, hm'])
      · rw [hbut.mq_of_ne hne] at hm'
        exact hs.short q (hlive ▸ hq) m' hm'
    · have hlt := hs.lt q (hlive ▸ hq)
      rw [hbut.ext, quantum_setCredit, hc]
      rcases eq_or_ne q p with rfl | hne
      · have := toNat_charge hfit
        rw [Function.update_self]
        omega
      · rwa [Function.update_of_ne hne]

/-- **Every operation keeps the bounds of the credits.** -/
theorem step_credits {i : SchedOp} {o : Option Mbuf} (hL : 0 < L) (hi : Inv s l)
    (hlen : i.LenLe L) (hstep : RingStep s t l l' i o) (hpkt : QueueStep s t i o)
    (hs : Credits L s) : Credits L t := by
  cases hstep with
  | steady _ hst =>
    refine ⟨fun q hq m hm => ?_, fun q hq => ?_⟩
    · rcases hpkt.mem hq hm with ⟨hq, hm⟩ | ⟨r, rfl⟩
      · exact hs.short q hq m hm
      · exact hlen
    · rcases hst.entry q hq with ⟨hqs, hc⟩ | ⟨-, hc⟩
      · rw [hc, hst.quantum q hqs hq]
        exact hs.lt q hqs
      · rw [hc]
        omega
  | dequeue hturns _ hlast =>
    exact hlast.credits (turns_credits hturns (fun q hq => (hi.quantum q hq).2) hs)

/-- What holds in every state of a run, with the traffic so far. -/
structure RunInv (L : ℕ) (x : Rr × Traffic) : Prop where
  inv : ∃ l, Inv x.1 l
  credits : Credits L x.1
  fifo : x.2.Fifo x.1

theorem run_inv {ops : List (SchedOp × Option Mbuf)} {g : Traffic} (hL : 0 < L) (hs : IsNew s)
    (hrun : Runs.Run (Runs.observe rrDesc.step Traffic.watch)
      (fun x i _ => i.Promised x.1 ∧ i.LenLe L) (s, {}) ops (t, g)) : RunInv L (t, g) := by
  have hno : ∀ q, q ∉ s.live := by simp [hs.live]
  refine hrun.invariant (I := RunInv L) ?_ ⟨⟨[], hs.inv⟩,
    ⟨fun q hq => absurd hq (hno q), fun q hq => absurd hq (hno q)⟩, fun q => ?_⟩
  · rintro ⟨s, g⟩ i o ⟨t, g'⟩ ⟨⟨l, hi⟩, hc, hg⟩ ⟨hp, hlen⟩ he
    obtain ⟨he, hg'⟩ := Runs.observe_eq_some.1 he
    obtain ⟨o', t', l', he', hi', hstep, hpkt⟩ := step_spec hi hp
    obtain ⟨rfl, rfl⟩ := Prod.mk.inj (Option.some.inj (he.symm.trans he'))
    exact ⟨⟨l', hi'⟩, step_credits hL hi hlen hstep hpkt hc, (hg' ▸ hpkt.fifo hg :)⟩
  · rw [if_neg (hno q)]
    exact ⟨rfl, rfl⟩

/-- **The ring.** In every state of a run, `head` and `tail` are null or the ends of a ring of
exactly the queues with status 1, and these are queues of the instance; queues with packets are
among them. A credit is not negative and below the length of the longest packet and the quantum.
Every queue holds the packets that it accepted and that were not taken from it, in the order of
their arrival. The loop of `rr_dequeue` ends; it takes the first packet of a queue, and none if and
only if no queue of the instance holds a packet. -/
theorem rrDequeue_of_run {ops : List (SchedOp × Option Mbuf)} {g : Traffic} (hL : 0 < L)
    (hL' : L + 2 ^ 27 < 2 ^ 31) (hs : IsNew s)
    (hrun : Runs.Run (Runs.observe rrDesc.step Traffic.watch)
      (fun x i _ => i.Promised x.1 ∧ i.LenLe L) (s, {}) ops (t, g)) :
    (∃ l, Ring.IsRing (qnext t) t.priv.head t.priv.tail l ∧ (∀ q ∈ l, q ∈ t.live) ∧
        ∀ q ∈ t.live, (t.ext q).status = if q ∈ l then 1 else 0) ∧
      (∀ q ∈ t.live, t.mq q ≠ [] → (t.ext q).status = 1) ∧
      (∀ q ∈ t.live, 0 ≤ (t.ext q).credit.toInt ∧
        (t.ext q).credit.toInt < L + (t.ext q).quantum.toInt) ∧
      (∀ q ∈ t.live, g.arrived q = g.departed q ++ t.mq q) ∧
      ∃ o u, rrDequeue t = some (o, u) ∧ (o = none ↔ ∀ q ∈ t.live, t.mq q = []) ∧
        Served t u o := by
  obtain ⟨⟨l, hi⟩, hc, hg⟩ := run_inv hL hs hrun
  refine ⟨⟨l, hi.ringed.ring, hi.live, hi.ringed.status⟩, fun q hq hm => ?_, fun q hq => ?_,
    fun q hq => ?_, ?_⟩
  · rw [hi.ringed.status q hq, if_pos (hi.backlog q hq hm)]
  · have hlt := hc.lt q hq
    have hquantum := hi.quantum q hq
    rw [credit] at hlt
    simp only at hlt hquantum
    rw [BitVec.toInt_eq_toNat_of_lt (by omega), BitVec.toInt_eq_toNat_of_lt (by omega)]
    omega
  · have := hg q
    rwa [if_pos hq] at this
  · obtain ⟨u, l', o, t', ht, hturns, hiu, hlast⟩ := rrDequeue_spec hi
    have hserved := hlast.served hiu (kept_of_turns hturns)
    refine ⟨o, t', ht, ⟨fun ho => ?_, fun hempty => ?_⟩, hserved⟩
    · obtain ⟨-, ⟨-, h, -⟩ | ⟨m, rfl, -⟩⟩ := hserved
      · exact h
      · exact absurd ho (by simp)
    · obtain ⟨-, ⟨rfl, -⟩ | ⟨m, -, q, hq, rest, hm, -⟩⟩ := hserved
      · rfl
      · simp [hempty q hq] at hm

/-- An instance without queues. -/
def emptyInst : Rr where
  si := 1
  cfg := {}
  ni := {}
  qCount := 0
  priv := {}
  queue := fun _ => {}
  ext := fun _ => {}
  live := ∅

/-- Two queues with the smallest quantum of 64 bytes, and a packet of 1500 bytes in each. -/
def twoQueues : List SchedOp :=
  let fs : DnFsk := { fs := { par := ![1, 64, 0, 0] } }
  let m : Mbuf := ⟨0, 1500, by decide⟩
  [.new 1 fs, .new 2 fs, .enqueue 1 m {}, .enqueue 2 m {}]

/-- A packet of 1500 bytes is found, after many turns. -/
theorem rrDequeue_of_twoQueues : ∃ t : Rr, (t.ext 1).quantum = 64 ∧ t.mq 1 ≠ [] ∧
    ∃ m u, rrDequeue t = some (some m, u) := by
  have hexec : ((Runs.exec (Runs.observe rrDesc.step Traffic.watch)
      (fun x i _ => i.Promised x.1 ∧ i.LenLe 1500) (emptyInst, {}) twoQueues).any fun x =>
        decide ((x.1.ext 1).quantum = 64 ∧ 1 ∈ x.1.live ∧ x.1.mq 1 ≠ [])) = true := by
    decide +kernel
  obtain ⟨⟨t, g⟩, ht, hmq⟩ := (Option.any_eq_true _ _).1 hexec
  obtain ⟨l, hl⟩ := Runs.Run.of_exec ht
  obtain ⟨hq, hlive, hm⟩ := of_decide_eq_true hmq
  obtain ⟨-, -, -, -, o, u, hou, hnone, -⟩ :=
    rrDequeue_of_run (by decide) (by decide) (s := emptyInst) ⟨rfl, rfl⟩ hl
  rcases o with _ | m
  · exact absurd (hnone.1 rfl 1 hlive) hm
  · exact ⟨t, hq, hm, m, u, hou⟩

end Dummynet.Rr
