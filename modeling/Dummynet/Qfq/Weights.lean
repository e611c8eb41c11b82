import Dummynet.Qfq.Base

/-!
# The weights of QFQ

The sum of the weights of an instance, `wsum`, limits which classes it accepts. A class for which
the sum would become too large is refused by `qfq_new_queue`, after its weight was stored but
without a group, and `q_new` does not look at the error: the class exists, packets for it follow a
null pointer, and its deletion takes away a weight that was never added.

## Main definitions

* `Admitted`: a new class is within the limit.
* `WeightsOk`: `wsum` is the sum of the weights, and every class has a group.

## Main results

* `weights_of_run`: if all new classes are within the limit, the weights are always right.
* `not_weights_of_refused`: after a class was refused, they are not.
-/

namespace Dummynet.Qfq

variable {s t : Qfq} {q : QPtr}

/-- What a class contributes to the sum of the weights, `ONE_FP / inv_w`. -/
def share (s : Qfq) (q : QPtr) : ℕ := qfqOneFP / (s.ext q).invW.toNat

/-- The sum of the weights is the one of the existing classes, within the limit; taking a weight
away does not wrap; and every class has a group. -/
structure WeightsOk (s : Qfq) : Prop where
  wsum : s.priv.wsum.toNat = ∑ q ∈ s.live, share s q
  le_max : s.priv.wsum.toNat ≤ qfqMaxWsum
  no_wrap : ∀ q ∈ s.live, share s q ≤ s.priv.wsum.toNat
  grp : ∀ q ∈ s.live, (s.ext q).grp.isSome

/-- A new class is within the limit for the sum of the weights. -/
def Admitted (s : Qfq) : SchedOp → Prop
  | .new _ fs => s.priv.wsum.toNat + fsShare fs ≤ qfqMaxWsum
  | _ => True

instance (s : Qfq) : (i : SchedOp) → Decidable (Admitted s i)
  | .new .. => inferInstanceAs (Decidable (_ ≤ _))
  | .delete .. | .enqueue .. | .dequeue => instDecidableTrue

/-- The invariant: the sum of the weights is right, and every class has a weight and a group. -/
structure WeightInv (s : Qfq) : Prop where
  wsum : s.priv.wsum.toNat = ∑ q ∈ s.live, share s q
  le_max : s.priv.wsum.toNat ≤ qfqMaxWsum
  invW : ∀ q ∈ s.live, (s.ext q).invW ≠ 0
  grp : ∀ q ∈ s.live, (s.ext q).grp.isSome

theorem WeightInv.weightsOk (hi : WeightInv s) : WeightsOk s := by
  refine ⟨hi.wsum, hi.le_max, fun q hq => ?_, hi.grp⟩
  rw [hi.wsum]
  exact Finset.single_le_sum (fun _ _ => Nat.zero_le _) hq

/-- Weights and groups of the classes do not change. -/
theorem WeightInv.of_eq (hi : WeightInv s) (hlive : t.live = s.live)
    (hwsum : t.priv.wsum = s.priv.wsum) (hinvW : ∀ q, (t.ext q).invW = (s.ext q).invW)
    (hgrp : ∀ q, (t.ext q).grp = (s.ext q).grp) : WeightInv t := by
  refine ⟨?_, ?_, fun q hq => ?_, fun q hq => ?_⟩
  · rw [hwsum, hlive, hi.wsum]
    exact Finset.sum_congr rfl fun q _ => by rw [share, share, hinvW]
  · rw [hwsum]
    exact hi.le_max
  · rw [hinvW]
    exact hi.invW q (hlive ▸ hq)
  · rw [hgrp]
    exact hi.grp q (hlive ▸ hq)

theorem WeightInv.of_base {u : Qfq} {l : List Mbuf} (hi : WeightInv s) (hbut : SameBut s u q l)
    (h : base t = base u) : WeightInv t :=
  hi.of_eq ((live_eq h).trans hbut.live) ((wsum_eq h).trans (congrArg QfqSched.wsum hbut.priv))
    (fun q => (invW_eq h q).trans (by rw [hbut.ext]))
    (fun q => (grp_eq h q).trans (by rw [hbut.ext]))

theorem share_eq_of_ext (h : t.ext q = s.ext q) : share t q = share s q := by
  rw [share, share, h]

theorem share_fsClass {fs : DnFsk} (h : (t.ext q).invW = (fsClass fs).invW) :
    share t q = fsShare fs := by
  rw [share, h, toNat_invW, fsShare]

/-- **A new class** within the limit is accepted. -/
theorem qNew_weightInv {fs : DnFsk} (hi : WeightInv s) (hq : q ∉ s.live)
    (hok : s.priv.wsum.toNat + fsShare fs ≤ qfqMaxWsum)
    (h : qNew qfqDesc s q (qfqDesc.newFsk fs) = some t) : WeightInv t := by
  obtain ⟨hlive, -, hother, hnew⟩ := qNew_cases h
  obtain ⟨hlo, hhi⟩ := fsWeight_mem fs
  have hmax : qfqMaxWsum < 2 ^ 31 := by decide
  have hadd : (s.priv.wsum + BitVec.ofNat 32 (fsShare fs)).toNat =
      s.priv.wsum.toNat + fsShare fs := by
    rw [BitVec.toNat_add, BitVec.toNat_ofNat, Nat.mod_eq_of_lt (a := fsShare fs) (by omega),
      Nat.mod_eq_of_lt (by omega)]
  rw [hadd] at hnew
  obtain ⟨-, hpriv, hext⟩ := hnew.resolve_left fun h => absurd h.1 (not_lt.2 hok)
  have hinvW : (t.ext q).invW = (fsClass fs).invW := by rw [hext]
  refine ⟨?_, ?_, fun q' hq' => ?_, fun q' hq' => ?_⟩
  · rw [hlive, Finset.sum_insert hq, share_fsClass hinvW, hpriv, hadd, hi.wsum, add_comm]
    congr 1
    refine Finset.sum_congr rfl fun q' hq' => (share_eq_of_ext (hother q' ?_).2).symm
    exact ne_of_mem_of_not_mem hq' hq
  · rw [hpriv, hadd]
    exact hok
  · rcases eq_or_ne q' q with rfl | hne
    · rw [hinvW]
      intro h0
      have hzero : qfqOneFP / fsWeight fs = 0 := by
        rw [← toNat_invW, h0]
        rfl
      have hle : fsWeight fs ≤ qfqOneFP := hhi.trans (by decide)
      exact absurd (Nat.div_pos hle hlo) (by omega)
    · rw [(hother q' hne).2]
      rw [hlive] at hq'
      exact hi.invW q' (Finset.mem_of_mem_insert_of_ne hq' hne)
  · rcases eq_or_ne q' q with rfl | hne
    · rw [hext]
      rfl
    · rw [(hother q' hne).2]
      rw [hlive] at hq'
      exact hi.grp q' (Finset.mem_of_mem_insert_of_ne hq' hne)

/-- **A class that is deleted** takes its weight away. -/
theorem dnDeleteQueue_weightInv {destroy safe b : Bool} (hi : WeightInv s) (hq : q ∈ s.live)
    (h : dnDeleteQueue qfqDesc s q destroy safe = some (b, t)) : WeightInv t := by
  obtain ⟨-, hlive, hother, hpriv⟩ := dnDeleteQueue_cases h
  rw [if_neg (hi.invW q hq)] at hpriv
  have hsum := Finset.add_sum_erase s.live (share s) hq
  have hsub : (s.priv.wsum - BitVec.ofNat 32 (share s q)).toNat =
      s.priv.wsum.toNat - share s q := by
    have hle : share s q ≤ s.priv.wsum.toNat := hi.weightsOk.no_wrap q hq
    have hlt := s.priv.wsum.isLt
    rw [BitVec.toNat_sub, BitVec.toNat_ofNat, Nat.mod_eq_of_lt (a := share s q) (by omega),
      show 2 ^ 32 - share s q + s.priv.wsum.toNat = s.priv.wsum.toNat - share s q + 2 ^ 32 by omega,
      Nat.add_mod_right, Nat.mod_eq_of_lt (by omega)]
  have hold : ∀ q' ∈ t.live, q' ≠ q ∧ q' ∈ s.live := fun q' hq' => by
    rw [hlive] at hq'
    exact Finset.mem_erase.1 hq'
  have hwsum : t.priv.wsum.toNat = s.priv.wsum.toNat - share s q := by
    rw [hpriv]
    exact hsub
  refine ⟨?_, ?_, fun q' hq' => ?_, fun q' hq' => ?_⟩
  · have hcongr : ∑ q' ∈ s.live.erase q, share t q' = ∑ q' ∈ s.live.erase q, share s q' :=
      Finset.sum_congr rfl fun q' hq' => share_eq_of_ext (hother q' (Finset.ne_of_mem_erase hq')).2
    rw [hwsum, hlive, hcongr, hi.wsum]
    omega
  · rw [hwsum]
    exact (Nat.sub_le _ _).trans hi.le_max
  · rw [(hother q' (hold q' hq').1).2]
    exact hi.invW q' (hold q' hq').2
  · rw [(hother q' (hold q' hq').1).2]
    exact hi.grp q' (hold q' hq').2

/-- An instance right after `qfq_new_sched`, without queues. -/
structure IsNew (s : Qfq) : Prop where
  priv : s.priv = qfqNewSched
  live : s.live = ∅

theorem IsNew.weightInv (h : IsNew s) : WeightInv s := by
  have hno : ∀ q, q ∉ s.live := by simp [h.live]
  refine ⟨?_, ?_, fun q hq => absurd hq (hno q), fun q hq => absurd hq (hno q)⟩
  · rw [h.priv, h.live]
    rfl
  · rw [h.priv]
    exact Nat.zero_le _

/-- **Every step** with an admitted class keeps the weights right. -/
theorem step_weightInv {i : SchedOp} {o : Option Mbuf} (hi : WeightInv s) (hp : i.Promised s)
    (hok : Admitted s i) (he : qfqDesc.step s i = some (o, t)) : WeightInv t := by
  rcases i with ⟨q, fs⟩ | ⟨q, destroy, safe⟩ | ⟨q, m, r⟩ | _
  · obtain ⟨u, hu, hut⟩ := Option.map_eq_some_iff.1 he
    obtain ⟨rfl, rfl⟩ := Prod.mk.inj hut
    exact qNew_weightInv hi hp.1 hok hu
  · obtain ⟨⟨b, u⟩, hu, hut⟩ := Option.map_eq_some_iff.1 he
    obtain ⟨rfl, rfl⟩ := Prod.mk.inj hut
    exact dnDeleteQueue_weightInv hi hp hu
  · obtain ⟨⟨b, u⟩, hu, hut⟩ := Option.map_eq_some_iff.1 he
    obtain ⟨rfl, rfl⟩ := Prod.mk.inj hut
    obtain ⟨v, hbut, ⟨-, rfl⟩ | ⟨-, -, hact⟩⟩ := qfqEnqueue_cases hp.2 hu
    · exact hi.of_base hbut rfl
    · exact hi.of_base hbut (base_activate hact)
  · obtain ⟨-, -, rfl⟩ | ⟨g, q, -, -, ⟨-, -, rfl⟩ | ⟨m, rest, u, -, hbut, -, hserved⟩⟩ :=
      qfqDequeue_cases he
    · exact hi
    · exact hi
    · exact hi.of_base hbut (base_served hserved)

/-- **The weights are right** in every state that a run reaches whose new classes are all within
the limit. -/
theorem weights_of_run {l : List (SchedOp × Option Mbuf)} (hs : IsNew s)
    (hrun : Runs.Run qfqDesc.step (fun s i _ => i.Promised s ∧ Admitted s i) s l t) :
    WeightsOk t := by
  have hi : WeightInv t := hrun.invariant (I := WeightInv)
    (fun _ i _ _ hi (hok : i.Promised _ ∧ Admitted _ i) he => step_weightInv hi hok.1 hok.2 he)
    hs.weightInv
  exact hi.weightsOk

/-- An instance without queues. -/
def emptyInst : Qfq where
  si := 1
  cfg := {}
  ni := {}
  qCount := 0
  priv := qfqNewSched
  queue := fun _ => {}
  ext := fun _ => {}
  live := ∅

/-- A flowset with a weight and a largest packet. -/
def qfqFlow (weight lmax : ℤ) : DnFsk := { fs := { par := ![weight, lmax, -1, -1] } }

/-- Two classes with the largest weight fill the sum, and a deletion makes room for another one. -/
theorem weights_of_three_classes : ∃ t : Qfq, t.live = {3, 2} ∧ WeightsOk t := by
  have hexec : ((Runs.exec qfqDesc.step (fun s i _ => i.Promised s ∧ Admitted s i) emptyInst
      [.new 1 (qfqFlow 65536 1500), .new 2 (qfqFlow 65536 1500), .delete 1 true false,
        .new 3 (qfqFlow 30000 1500)]).any fun t => decide (t.live = {3, 2})) = true := by
    decide +kernel
  obtain ⟨t, ht, hlive⟩ := (Option.any_eq_true _ _).1 hexec
  obtain ⟨l, hl⟩ := Runs.Run.of_exec ht
  exact ⟨t, of_decide_eq_true hlive, weights_of_run ⟨rfl, rfl⟩ hl⟩

/-- **A refused class.** After three classes with the largest weight were created, the last one
has a weight and no group. -/
theorem not_weights_of_refused : ¬ ∀ (s t : Qfq) (l : List (SchedOp × Option Mbuf)), IsNew s →
    Runs.Run qfqDesc.step (fun s i _ => i.Promised s) s l t → WeightsOk t := by
  intro hall
  have hexec : ((Runs.exec qfqDesc.step (fun s i _ => i.Promised s) emptyInst
      [.new 1 (qfqFlow 65536 1500), .new 2 (qfqFlow 65536 1500),
        .new 3 (qfqFlow 65536 1500)]).any fun t =>
          decide (3 ∈ t.live ∧ (t.ext 3).grp = none)) = true := by
    decide +kernel
  obtain ⟨t, ht, hgrp⟩ := (Option.any_eq_true _ _).1 hexec
  obtain ⟨l, hl⟩ := Runs.Run.of_exec ht
  obtain ⟨hlive, hnone⟩ := of_decide_eq_true hgrp
  have := (hall _ _ _ ⟨rfl, rfl⟩ hl).grp 3 hlive
  rw [hnone] at this
  exact Bool.false_ne_true this

end Dummynet.Qfq
