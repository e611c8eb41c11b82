import Dummynet.Wf2q.Membership

/-!
# WF2Q+ as a smallest-eligible-finish-time scheduler

The reference scheduler knows no heaps: it computes the virtual time `max (V, min S)` over the
backlogged queues, calls a queue eligible whose start time is not after it, and takes the head of
an eligible queue with the smallest finish time. `wf2qp_dequeue` refines it in every state of a
run without deletions, and the packets of a queue leave in the order of their arrival.

Timestamps are counted from the base `c` of a window that holds those in use; without a wrap
this is the timestamp itself, for `c = 0`.

## Main definitions

* `virtualTime`, `Eligible`, `Choice`: the reference scheduler.
* `TrafficRun`: the runs without deletions, with their traffic.

## Main results

* `Dequeued.choice`: the queue that is served is a choice of the reference scheduler.
* `step_pkt`, `TrafficRun.inv`: what an operation does to the packets, and first in, first out.
* `wf2qpDequeue_refines`: the refinement.
-/

namespace Dummynet.Wf2qp

open Serial (rank)

variable {s t : Wf2qp} {c : BitVec 64} {q : QPtr}

/-! ### The reference scheduler -/

/-- The virtual time at which the reference scheduler chooses: `V`, or the smallest start time
of a backlogged queue if this is later. -/
noncomputable def virtualTime (c : BitVec 64) (s : Wf2qp) : ℕ :=
  max (rank c s.priv.V) (sInf {x | ∃ q, Backlogged s q ∧ x = rank c (s.ext q).S})

/-- A backlogged queue that has started by the virtual time. -/
def Eligible (c : BitVec 64) (s : Wf2qp) (q : QPtr) : Prop :=
  Backlogged s q ∧ rank c (s.ext q).S ≤ virtualTime c s

/-- The reference scheduler may serve `q`: it is eligible and no eligible queue finishes
earlier. -/
def Choice (c : BitVec 64) (s : Wf2qp) (q : QPtr) : Prop :=
  Eligible c s q ∧ ∀ q', Eligible c s q' → rank c (s.ext q).F ≤ rank c (s.ext q').F

theorem virtualTime_eq (hs : Stamps s) (hc : Window c s) {q₀ : QPtr} (hq₀ : IsFirst s q₀) :
    virtualTime c s = rank c (max64 s.priv.V (s.ext q₀).S) := by
  obtain ⟨hV, hS, -⟩ := hs.window hc hq₀.1
  rw [virtualTime, rank_max64 hV hS]
  congr 1
  refine le_antisymm (Nat.sInf_le ⟨q₀, hq₀.1, rfl⟩) (le_csInf ⟨_, q₀, hq₀.1, rfl⟩ ?_)
  rintro x ⟨q, hq, rfl⟩
  exact (keyLEQ_S_iff hs hc hq₀.1 hq).1 (hq₀.2 q hq)

/-- The queue that `wf2qp_dequeue` serves is a choice of the reference scheduler. -/
theorem Dequeued.choice {m : Mbuf} {rest : List Mbuf} {V : BitVec 64}
    (h : Dequeued s t q m rest V) (hs : Stamps s) (hc : Window c s)
    (hV : ∀ q₀, IsFirst s q₀ → V = max64 s.priv.V (s.ext q₀).S) : Choice c s q := by
  have hb : Backlogged s q := ⟨h.mem, by simp [h.head]⟩
  obtain ⟨q₀, hq₀⟩ := exists_isFirst hs hc hb
  obtain ⟨hVc, hSc, -⟩ := hs.window hc hq₀.1
  have hVw : Serial.InWindow c V := hV q₀ hq₀ ▸ max64_inWindow hVc hSc
  have hvt : virtualTime c s = rank c V := by rw [virtualTime_eq hs hc hq₀, hV q₀ hq₀]
  have helig : ∀ q', Backlogged s q' →
      (keyLT V (s.ext q').S = false ↔ rank c (s.ext q').S ≤ virtualTime c s) := by
    intro q' hq'
    rw [hvt, keyLT, ← Bool.not_eq_true, Serial.lt_iff hVw (hs.window hc hq').2.1, not_lt]
  refine ⟨⟨hb, (helig q hb).1 h.eligible⟩, fun q' hq' => ?_⟩
  have hle := h.least q' hq'.1 ((helig q' hq'.1).2 hq'.2)
  rwa [keyLEQ, Serial.le_iff (hs.window hc hb).2.2 (hs.window hc hq'.1).2.2] at hle

/-! ### Arrival order -/

/-- An operation of WF2Q+ creates an empty queue, appends a packet or takes the head of a queue. -/
theorem step_pkt {i : SchedOp} {o : Option Mbuf} (hr : RunInv s) (hok : StepOk s i t)
    (hdel : NoDelete i) (he : wf2qpDesc.step s i = some (o, t)) : PktStep s t i o := by
  obtain ⟨hp, c, hcs, hct, hcu⟩ := hok
  have hi := hr.inv
  rcases i with ⟨q, fs⟩ | ⟨q, destroy, safe⟩ | ⟨q, m, r⟩ | _
  · obtain ⟨u, hu, hut⟩ := Option.map_eq_some_iff.1 he
    obtain ⟨rfl, rfl⟩ := Prod.mk.inj hut
    obtain ⟨-, hl, hmq, -, -, hother⟩ := qNew_eq hu
    exact .new hp.1 hl hmq fun q' hne => congrArg DnQueue.mq (hother q' hne).1
  · exact hdel.elim
  · obtain ⟨⟨b, u⟩, hu, hut⟩ := Option.map_eq_some_iff.1 he
    obtain ⟨rfl, rfl⟩ := Prod.mk.inj hut
    rcases (wf2qpEnqueue_spec hi hcs hp.1 hp.2 hu hct).2 with h | ⟨-, h⟩ | ⟨hm, h⟩
    · refine .dropped h.live fun q' => ?_
      rw [h.mq, Function.update_eq_self]
    · exact .queued hp.1 h.live h.mq
    · refine .queued hp.1 h.live fun q' => ?_
      rcases eq_or_ne q' q with rfl | hne
      · simp [h.mq, hm]
      · simp [(h.other q' hne).mq, hne]
  · have he' : wf2qpDequeue s = some (o, t) := he
    by_cases hno : ∀ q, ¬ Backlogged s q
    · obtain ⟨u, hu, -, hl, hqu, -⟩ := wf2qpDequeue_idle hi hcs hr.card hno
      obtain ⟨rfl, rfl⟩ := Prod.mk.inj (Option.some.inj (hu.symm.trans he'))
      exact .idle hl fun q' => by rw [Inst.mq, hqu]; rfl
    · obtain ⟨q, hq⟩ := not_forall_not.1 hno
      obtain ⟨p, m, rest, u, V, hu, hd, -⟩ := wf2qpDequeue_spec hi hcs hcu hq
      obtain ⟨rfl, rfl⟩ := Prod.mk.inj (Option.some.inj (hu.symm.trans he'))
      exact .served hd.mem hd.live hd.head hd.mq

/-- The runs of WF2Q+ without deletions, with their traffic. -/
abbrev TrafficRun (x : Wf2qp × Traffic) (l : List (SchedOp × Option Mbuf)) (y : Wf2qp × Traffic) :
    Prop :=
  Runs.Run wf2qpDesc.traffic (fun x i y => StepOk x.1 i y.1 ∧ NoDelete i) x l y

/-- In every state of a run, the invariant holds and the traffic explains the packets. -/
theorem TrafficRun.inv {l : List (SchedOp × Option Mbuf)} {g : Traffic} {s₀ : Wf2qp}
    (hs : IsNew s₀) (h : TrafficRun (s₀, {}) l (s, g)) : RunInv s ∧ g.Fifo s := by
  refine h.invariant (I := fun x => RunInv x.1 ∧ x.2.Fifo x.1) (fun x i o y hx hok he => ?_)
    ⟨hs.runInv, fun q => ?_⟩
  · obtain ⟨hst, hobs⟩ := Runs.observe_eq_some.1 he
    refine ⟨step_inv hx.1 hok.1 (hok.2.freeOk x.1) hst, ?_⟩
    rw [hobs]
    exact (step_pkt hx.1 hok.1 hok.2 hst).fifo hx.2
  · simp [hs.live]

/-- **Refinement.** In every state that a run reaches, `wf2qp_dequeue` returns nothing exactly if
no queue of the instance holds a packet. Otherwise it returns the head of a queue that the
reference scheduler may choose, moves the timestamps of this queue one packet further, and keeps
the packets of all other queues and the timestamps of those that are backlogged. And in every
queue the packets taken so far, followed by those still there, are the packets accepted so far,
in the same order. -/
theorem wf2qpDequeue_refines {s₀ : Wf2qp} {l : List (SchedOp × Option Mbuf)} {g : Traffic}
    (hs : IsNew s₀) (hrun : TrafficRun (s₀, {}) l (s, g)) (hc : Window c s)
    (hcu : ∀ u ∈ served s, Window c u) :
    (∀ q ∈ s.live, g.arrived q = g.departed q ++ s.mq q) ∧
    ∃ o t, wf2qpDequeue s = some (o, t) ∧ (o = none ↔ ∀ q ∈ s.live, s.mq q = []) ∧
      ∀ m, o = some m → ∃ q rest, Choice c s q ∧ s.mq q = m :: rest ∧ t.mq q = rest ∧
        (t.ext q).S = (s.ext q).F ∧
        (∀ m' ∈ rest.head?,
          (t.ext q).F = (s.ext q).F + m'.len64 * (s.ext q).invW.setWidth 64 ∧
          rank c (t.ext q).F = rank c (s.ext q).F + m'.len * (s.ext q).invW.toNat) ∧
        ∀ q' ∈ s.live, q' ≠ q → t.mq q' = s.mq q' ∧
          (s.mq q' ≠ [] → (t.ext q').S = (s.ext q').S ∧ (t.ext q').F = (s.ext q').F) := by
  obtain ⟨hr, hfifo⟩ := TrafficRun.inv hs hrun
  have hi := hr.inv
  refine ⟨fun q hq => by simpa [hq] using hfifo q, ?_⟩
  by_cases hno : ∀ q, ¬ Backlogged s q
  · obtain ⟨t, ht, -⟩ := wf2qpDequeue_idle hi hc hr.card hno
    refine ⟨none, t, ht, iff_of_true rfl fun q hq => ?_, by simp⟩
    by_contra hm
    exact hno q ⟨hq, hm⟩
  · obtain ⟨q₁, hq₁⟩ := not_forall_not.1 hno
    obtain ⟨q, m, rest, t, V, ht, hd, hit, hct, hV⟩ := wf2qpDequeue_spec hi hc hcu hq₁
    have hsome : ¬ ∀ q ∈ s.live, s.mq q = [] := fun h => hq₁.2 (h q₁ hq₁.1)
    refine ⟨some m, t, ht, iff_of_false (by simp) hsome, ?_⟩
    rintro _ ⟨⟩
    have hmq : t.mq q = rest := by rw [hd.mq, Function.update_self]
    refine ⟨q, rest, hd.choice hi.stamps hc hV, hd.head, hmq, hd.S, fun m' hm' => ?_,
      fun q' _ hne => ⟨?_, fun hq' => ?_⟩⟩
    · obtain ⟨rest', rfl⟩ := List.head?_eq_some_iff.1 hm'
      refine ⟨hd.F, ?_⟩
      have hb : Backlogged s q := ⟨hd.mem, by simp [hd.head]⟩
      obtain ⟨hstep, hlt⟩ := hi.stamps.toNat_step hd.mem m'
      rw [hd.F, headTime, Serial.rank_add (hi.stamps.window hc hb).2.2 (by omega), hstep]
    · rw [hd.mq, Function.update_of_ne hne]
    · exact ⟨(hd.other q' hne hq').S, (hd.other q' hne hq').F⟩

/-- A run that leaves two packets in the queue of a new instance; one of them comes out next. -/
theorem wf2qpDequeue_refines_two_packets : ∃ (s t : Wf2qp) (m : Mbuf),
    Cycle 0 2 s ∧ wf2qpDequeue s = some (some m, t) := by
  obtain ⟨l, s₁, hrun, hs₁⟩ := exists_cycle
  obtain ⟨q, m, r, o, s, hok, hst, hs⟩ := hs₁.enqueue
  obtain ⟨-, t, hok', -⟩ := hs.dequeue
  obtain ⟨-, c, hc, -, hcu⟩ := hok'
  obtain ⟨g, hg⟩ := (Runs.Run.snoc hrun ⟨hok, trivial⟩ hst).observe Traffic.observe {}
  obtain ⟨-, o, t, ht, hnone, -⟩ := wf2qpDequeue_refines ⟨rfl, rfl⟩ hg hc hcu
  rcases o with _ | m
  · exact absurd (hnone.1 rfl 1 (by simp [hs.live])) ((hs.backlogged 1).2 rfl).2
  · exact ⟨s, t, m, hs, ht⟩

end Dummynet.Wf2qp
