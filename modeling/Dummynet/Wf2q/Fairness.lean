import Dummynet.Wf2q.Refinement

/-!
# Fairness of WF2Q+

While two queues stay backlogged, their start times never drift apart: the difference stays
within the one they had at first and the time of one packet of either queue. A start time moves by
the time of a packet when the packet is taken, so that the same holds, up to a factor of 2, for
the weighted service of the two queues.

## Main definitions

* `startDiff`: the difference of two start times.
* `Busy`: both queues are backlogged, with packets of limited length.

## Main results

* `startDiff_step`: one operation.
* `wf2qp_fair`: a whole run.
-/

namespace Dummynet.Wf2qp

open Serial (rank)

variable {s t : Wf2qp} {c : BitVec 64} {i j q : QPtr} {Li Lj : ℕ}

/-- The difference of the start times of two queues. -/
def startDiff (s : Wf2qp) (i j : QPtr) : ℤ := ((s.ext i).S - (s.ext j).S).toInt

/-- Both queues are backlogged, and their packets are not longer than `Li` and `Lj`. -/
structure Busy (i j : QPtr) (Li Lj : ℕ) (s : Wf2qp) : Prop where
  left : Backlogged s i
  right : Backlogged s j
  len_left : ∀ m ∈ s.mq i, m.len ≤ Li
  len_right : ∀ m ∈ s.mq j, m.len ≤ Lj

instance (i j : QPtr) (Li Lj : ℕ) (s : Wf2qp) : Decidable (Busy i j Li Lj s) :=
  decidable_of_iff (Backlogged s i ∧ Backlogged s j ∧ (∀ m ∈ s.mq i, m.len ≤ Li) ∧
      ∀ m ∈ s.mq j, m.len ≤ Lj)
    ⟨fun h => ⟨h.1, h.2.1, h.2.2.1, h.2.2.2⟩, fun h => ⟨h.left, h.right, h.len_left, h.len_right⟩⟩

theorem Busy.symm (h : Busy i j Li Lj s) : Busy j i Lj Li s :=
  ⟨h.right, h.left, h.len_right, h.len_left⟩

theorem startDiff_eq (hs : Stamps s) (hc : Window c s) (h : Busy i j Li Lj s) :
    startDiff s i j = (rank c (s.ext i).S : ℤ) - rank c (s.ext j).S :=
  Serial.toInt_sub_eq (hs.window hc h.left).2.1 (hs.window hc h.right).2.1

/-- The served queue gets ahead of another backlogged queue by one packet at most. -/
theorem Dequeued.lead {m : Mbuf} {rest : List Mbuf} {V : BitVec 64}
    (hd : Dequeued s t i m rest V) (hi : Inv s) (hc : Window c s)
    (hV : ∀ q₀, IsFirst s q₀ → V = max64 s.priv.V (s.ext q₀).S) (h : Busy i j Li Lj s) :
    rank c (s.ext i).F ≤
      rank c (s.ext j).S + max (Li * (s.ext i).invW.toNat) (Lj * (s.ext j).invW.toNat) := by
  obtain ⟨mj, restj, hmj, -⟩ := hi.stamps.exists_head h.right
  have hFi := hi.stamps.rank_F hc h.left.1 hd.head
  have hFj := hi.stamps.rank_F hc h.right.1 hmj
  have hlen : m.len * (s.ext i).invW.toNat ≤ Li * (s.ext i).invW.toNat :=
    Nat.mul_le_mul_right _ (h.len_left m (by simp [hd.head]))
  have hlen' : mj.len * (s.ext j).invW.toNat ≤ Lj * (s.ext j).invW.toNat :=
    Nat.mul_le_mul_right _ (h.len_right mj (by simp [hmj]))
  obtain ⟨⟨-, helig⟩, hleast⟩ := hd.choice hi.stamps hc hV
  by_cases hj : rank c (s.ext j).S ≤ virtualTime c s
  · have := hleast j ⟨h.right, hj⟩
    omega
  · omega

/-- The operation took no packet of `q` and left its start time alone. -/
structure Unserved (s t : Wf2qp) (g g' : Traffic) (q : QPtr) : Prop where
  S : (t.ext q).S = (s.ext q).S
  invW : (t.ext q).invW = (s.ext q).invW
  bytes : g'.bytes q = g.bytes q

theorem Traffic.bytes_dequeue (s t : Wf2qp) (g : Traffic) (q : QPtr) :
    (Traffic.observe s .dequeue t g).bytes q =
      g.bytes q + (((s.mq q).take ((s.mq q).length - (t.mq q).length)).map Mbuf.len).sum := by
  simp [Traffic.bytes, Traffic.observe]

/-- No backlogged queue is served, or the operation is a dequeue operation, which serves one. -/
theorem step_service {op : SchedOp} {o : Option Mbuf} (hr : RunInv s) (hok : StepOk s op t)
    (hdel : NoDelete op) (he : wf2qpDesc.step s op = some (o, t)) (g : Traffic) :
    (∀ q, Backlogged s q → Unserved s t g (Traffic.observe s op t g) q) ∨
      ∃ p m rest V, Dequeued s t p m rest V ∧
        (∀ q₀, IsFirst s q₀ → V = max64 s.priv.V (s.ext q₀).S) ∧
        (Traffic.observe s op t g).bytes p = g.bytes p + m.len ∧
        ∀ q, q ≠ p → Backlogged s q → Unserved s t g (Traffic.observe s op t g) q := by
  obtain ⟨hp, c, hcs, hct, hcu⟩ := hok
  have hi := hr.inv
  rcases op with ⟨q, fs⟩ | ⟨q, destroy, safe⟩ | ⟨q, m, r⟩ | _
  · obtain ⟨u, hu, hut⟩ := Option.map_eq_some_iff.1 he
    obtain ⟨rfl, rfl⟩ := Prod.mk.inj hut
    refine .inl fun q' hq' => ?_
    have hx := ((qNew_eq hu).2.2.2.2.2 q' fun h => hp.1 (h ▸ hq'.1)).2
    exact ⟨by rw [hx], by rw [hx], rfl⟩
  · exact hdel.elim
  · obtain ⟨⟨b, u⟩, hu, hut⟩ := Option.map_eq_some_iff.1 he
    obtain ⟨rfl, rfl⟩ := Prod.mk.inj hut
    refine .inl fun q' hq' => ?_
    rcases (wf2qpEnqueue_spec hi hcs hp.1 hp.2 hu hct).2 with h | ⟨-, h⟩ | ⟨hm, h⟩
    · exact ⟨by rw [h.ext], by rw [h.ext], rfl⟩
    · exact ⟨by rw [h.ext], by rw [h.ext], rfl⟩
    · have hsame := h.other q' fun he => hq'.2 (he ▸ hm)
      exact ⟨hsame.S, hsame.invW, rfl⟩
  · by_cases hno : ∀ q, ¬ Backlogged s q
    · exact .inl fun q hq => absurd hq (hno q)
    · obtain ⟨q, hq⟩ := not_forall_not.1 hno
      obtain ⟨p, m, rest, u, V, hu, hd, -, -, hV⟩ := wf2qpDequeue_spec hi hcs hcu hq
      obtain ⟨rfl, rfl⟩ := Prod.mk.inj (Option.some.inj (hu.symm.trans he))
      refine .inr ⟨p, m, rest, V, hd, hV, ?_, fun q' hne hq' => ?_⟩
      · rw [Traffic.bytes_dequeue, hd.mq, Function.update_self, hd.head]
        simp
      · have hsame := hd.other q' hne hq'.2
        refine ⟨hsame.S, hsame.invW, ?_⟩
        rw [Traffic.bytes_dequeue, hsame.mq]
        simp

/-- The largest drift of two start times: the first difference, or a packet of either queue. -/
def driftBound (s : Wf2qp) (i j : QPtr) (Li Lj : ℕ) : ℤ :=
  max |startDiff s i j| (max (Li * (s.ext i).invW.toNat : ℕ) (Lj * (s.ext j).invW.toNat : ℕ))

/-- What holds of two busy queues since the state `s`: the start times differ by what they
differed by at first and by the weighted service since then, and never too much. -/
structure Fair (s : Wf2qp) (i j : QPtr) (Li Lj : ℕ) (x : Wf2qp × Traffic) : Prop where
  inv : RunInv x.1
  busy : Busy i j Li Lj x.1
  left : (x.1.ext i).invW = (s.ext i).invW
  right : (x.1.ext j).invW = (s.ext j).invW
  bound : |startDiff x.1 i j| ≤ driftBound s i j Li Lj
  service : startDiff x.1 i j - startDiff s i j =
    x.2.bytes i * (s.ext i).invW.toNat - x.2.bytes j * (s.ext j).invW.toNat

/-- The served one of two busy queues. -/
theorem Fair.serve {x y : Wf2qp × Traffic} {m : Mbuf} {rest : List Mbuf} {V : BitVec 64}
    (h : Fair s i j Li Lj x) (hy : RunInv y.1) (hcx : Window c x.1) (hcy : Window c y.1)
    (hd : Dequeued x.1 y.1 i m rest V)
    (hV : ∀ q₀, IsFirst x.1 q₀ → V = max64 x.1.priv.V (x.1.ext q₀).S)
    (hbusy : Busy i j Li Lj y.1) (hbytes : y.2.bytes i = x.2.bytes i + m.len)
    (hj : Unserved x.1 y.1 x.2 y.2 j) : Fair s i j Li Lj y := by
  have hlead := hd.lead h.inv.inv hcx hV h.busy
  have hF := h.inv.inv.stamps.rank_F hcx h.busy.left.1 hd.head
  have hold := startDiff_eq h.inv.inv.stamps hcx h.busy
  have hnew := startDiff_eq hy.inv.stamps hcy hbusy
  rw [hd.S, hj.S] at hnew
  rw [h.left, h.right] at hlead
  rw [h.left] at hF
  have hb := h.bound
  have hservice := h.service
  refine ⟨hy, hbusy, hd.invW.trans h.left, hj.invW.trans h.right, ?_, ?_⟩
  · rw [hnew]
    rw [hold] at hb
    unfold driftBound at hb ⊢
    rw [abs_le] at hb ⊢
    zify at hlead hF
    constructor
    · have : (0 : ℤ) ≤ m.len * (s.ext i).invW.toNat := by positivity
      linarith [hb.1]
    · refine le_trans ?_ (le_max_right _ _)
      push_cast
      linarith
  · rw [hnew, hbytes, hj.bytes, hF]
    rw [hold] at hservice
    push_cast
    linarith

theorem startDiff_swap (hs : Stamps s) (hc : Window c s) (h : Busy i j Li Lj s) :
    startDiff s j i = - startDiff s i j := by
  rw [startDiff_eq hs hc h, startDiff_eq hs hc h.symm]
  ring

theorem Fair.symm {x : Wf2qp × Traffic} (h : Fair s i j Li Lj x)
    (hs : startDiff s j i = - startDiff s i j) (hx : startDiff x.1 j i = - startDiff x.1 i j) :
    Fair s j i Lj Li x := by
  have hb := h.bound
  have hservice := h.service
  refine ⟨h.inv, h.busy.symm, h.right, h.left, ?_, by rw [hs, hx]; linarith⟩
  unfold driftBound at hb ⊢
  rwa [hx, hs, abs_neg, abs_neg, max_comm (_ : ℤ) (Li * _ : ℕ)]

/-- Two queues that the operation does not serve. -/
theorem Fair.unserved {x y : Wf2qp × Traffic} (h : Fair s i j Li Lj x) (hy : RunInv y.1)
    (hbusy : Busy i j Li Lj y.1) (hi : Unserved x.1 y.1 x.2 y.2 i)
    (hj : Unserved x.1 y.1 x.2 y.2 j) : Fair s i j Li Lj y := by
  have hd : startDiff y.1 i j = startDiff x.1 i j := by rw [startDiff, startDiff, hi.S, hj.S]
  refine ⟨hy, hbusy, hi.invW.trans h.left, hj.invW.trans h.right, hd ▸ h.bound, ?_⟩
  rw [hd, h.service, hi.bytes, hj.bytes]

/-- **One operation** while both queues are busy. -/
theorem Fair.step {x y : Wf2qp × Traffic} {op : SchedOp} {o : Option Mbuf}
    (h : Fair s i j Li Lj x) (hs : startDiff s j i = - startDiff s i j) (hij : i ≠ j)
    (hok : StepOk x.1 op y.1) (hdel : NoDelete op) (hbusy : Busy i j Li Lj y.1)
    (he : wf2qpDesc.traffic x op = some (o, y)) : Fair s i j Li Lj y := by
  obtain ⟨hst, hobs⟩ := Runs.observe_eq_some.1 he
  have hy : RunInv y.1 := step_inv h.inv hok (hdel.freeOk x.1) hst
  obtain ⟨c, hcx, hcy, -⟩ := hok.window
  have hcase := step_service h.inv hok hdel hst x.2
  rw [← hobs] at hcase
  rcases hcase with hno | ⟨p, m, rest, V, hd, hV, hbytes, hother⟩
  · exact h.unserved hy hbusy (hno i h.busy.left) (hno j h.busy.right)
  · by_cases hpi : p = i
    · subst hpi
      exact h.serve hy hcx hcy hd hV hbusy hbytes (hother j hij.symm h.busy.right)
    · by_cases hpj : p = j
      · subst hpj
        have hsx := startDiff_swap h.inv.inv.stamps hcx h.busy
        have hsy := startDiff_swap hy.inv.stamps hcy hbusy
        refine ((h.symm hs hsx).serve hy hcx hcy hd hV hbusy.symm hbytes
          (hother i hij h.busy.left)).symm ?_ ?_
        · rw [hs, neg_neg]
        · rw [hsy, neg_neg]
      · exact h.unserved hy hbusy (hother i (Ne.symm hpi) h.busy.left)
          (hother j (Ne.symm hpj) h.busy.right)

/-- **Fairness.** In every run from a state reached by a new instance, as long as two queues stay
backlogged with packets of limited length, their start times differ by no more than at first, or
than the time of one packet of either queue; and the weighted services that they receive differ
by no more than twice that. -/
theorem wf2qp_fair {s₀ : Wf2qp} {l l' : List (SchedOp × Option Mbuf)} {g : Traffic}
    (hs : IsNew s₀)
    (hrun : Runs.Run wf2qpDesc.step (fun s op t => StepOk s op t ∧ NoDelete op) s₀ l s)
    (hbusy : Busy i j Li Lj s)
    (hrun' : Runs.Run wf2qpDesc.traffic
      (fun x op y => StepOk x.1 op y.1 ∧ NoDelete op ∧ Busy i j Li Lj y.1) (s, {}) l' (t, g)) :
    |startDiff t i j| ≤ max |startDiff s i j|
        (max (Li * (s.ext i).invW.toNat : ℕ) (Lj * (s.ext j).invW.toNat : ℕ)) ∧
      |(g.bytes i * (s.ext i).invW.toNat : ℤ) - g.bytes j * (s.ext j).invW.toNat| ≤
        2 * max |startDiff s i j|
          (max (Li * (s.ext i).invW.toNat : ℕ) (Lj * (s.ext j).invW.toNat : ℕ)) := by
  have hr : RunInv s := run_inv hs (hrun.mono fun s _ _ h => ⟨h.1, h.2.freeOk s⟩)
  by_cases hij : i = j
  · subst hij
    have hdiff : startDiff t i i = 0 := by simp [startDiff]
    rw [hdiff, sub_self, abs_zero]
    constructor <;> positivity
  · obtain ⟨c, hc⟩ := hr.window
    have hswap := startDiff_swap hr.inv.stamps hc hbusy
    have hfair : Fair s i j Li Lj (t, g) := by
      refine hrun'.invariant (fun x op o y hx hok he =>
        hx.step hswap hij hok.1 hok.2.1 hok.2.2 he) ⟨hr, hbusy, rfl, rfl, le_max_left _ _, ?_⟩
      simp [Traffic.bytes]
    refine ⟨hfair.bound, ?_⟩
    have hservice := hfair.service
    have hb := hfair.bound
    have h0 : |startDiff s i j| ≤ driftBound s i j Li Lj := le_max_left _ _
    change _ ≤ 2 * driftBound s i j Li Lj
    rw [abs_le] at hb h0 ⊢
    simp only at hservice hb
    constructor <;> linarith [hb.1, hb.2, h0.1, h0.2]

/-- Two queues with two packets each. -/
def twoFlows : List SchedOp :=
  let m : Mbuf := ⟨0, 1000, Mbuf.lt_1000⟩
  let m' : Mbuf := ⟨1, 1500, Mbuf.lt_1500⟩
  [.new 1 {}, .new 2 {}, .enqueue 1 m {}, .enqueue 1 m' {}, .enqueue 2 m' {}, .enqueue 2 m {}]

/-- After one packet of the two queues, their start times differ by 1500 bytes at most. -/
theorem wf2qp_fair_twoFlows : ∃ t : Wf2qp, Busy 1 2 1500 1500 t ∧
    |startDiff t 1 2| ≤ 1500 * 2 ^ 28 := by
  have hexec : ((Runs.exec wf2qpDesc.step CheckedStep emptyInst twoFlows).any fun s =>
      decide (Busy 1 2 1500 1500 s ∧ startDiff s 1 2 = 0 ∧ (s.ext 1).invW = 2 ^ 28 ∧
        (s.ext 2).invW = 2 ^ 28) &&
      (Runs.exec wf2qpDesc.traffic
        (fun x op y => CheckedStep x.1 op y.1 ∧ Busy 1 2 1500 1500 y.1) (s, {})
        [.dequeue]).any fun y => decide (Busy 1 2 1500 1500 y.1)) = true := by
    decide +kernel
  obtain ⟨s, hs, hand⟩ := (Option.any_eq_true _ _).1 hexec
  rw [Bool.and_eq_true, decide_eq_true_eq, Option.any_eq_true] at hand
  obtain ⟨⟨hbusy, h0, hw1, hw2⟩, ⟨t, g⟩, ht, hbusy'⟩ := hand
  obtain ⟨l, hl⟩ := Runs.Run.of_exec hs
  obtain ⟨l', hl'⟩ := Runs.Run.of_exec ht
  have hfair := wf2qp_fair ⟨rfl, rfl⟩ (hl.mono fun _ _ _ h => h.stepOk) hbusy
    (hl'.mono fun _ _ _ h => ⟨h.1.stepOk.1, h.1.stepOk.2, h.2⟩)
  refine ⟨t, of_decide_eq_true hbusy', hfair.1.trans ?_⟩
  rw [h0, hw1, hw2]
  decide

end Dummynet.Wf2qp
