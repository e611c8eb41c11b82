import Dummynet.Qfq.Weights

/-!
# The lists of QFQ

A class is in the list of one slot as long as it has packets. This does not depend on timestamps,
whether they are right or not: a class enters a list when its first packet arrives, moves when it
is served, and leaves when its last packet is taken. Only the deletion of a class does not look
at the lists.

## Main definitions

* `Listed`: the lists hold what a function says.
* `ListInv`: exactly the classes with packets are in lists, each in one of its own group.
* `IdleFree`: classes are deleted only when they are idle.

## Main results

* `step_listInv`: every operation keeps the lists right, unless it deletes a class with packets.
-/

namespace Dummynet.Qfq

variable {s t : Qfq} {g : ℕ} {q : QPtr} {loc : QPtr → Option (ℕ × ℕ)}

/-- No class is twice in a list, and `loc` tells the group and the slot of each class that is in
a list. -/
structure Listed (s : Qfq) (loc : QPtr → Option (ℕ × ℕ)) : Prop where
  mem : ∀ g j q, q ∈ (s.priv.groups g).slots j ↔ loc q = some (g, j)
  nodup : ∀ g j, ((s.priv.groups g).slots j).Nodup

theorem Listed.of_slots (h : Listed s loc)
    (hs : ∀ g, (t.priv.groups g).slots = (s.priv.groups g).slots) : Listed t loc := by
  refine ⟨fun g j q => ?_, fun g j => ?_⟩
  · rw [hs]
    exact h.mem g j q
  · rw [hs]
    exact h.nodup g j

theorem Listed.of_core (h : Listed s loc) (hc : core t = core s) : Listed t loc :=
  h.of_slots (slots_eq hc)

/-- One list of an instance after another list was put in the place of it. -/
theorem slots_setGroup {grp : QfqGroup} {j : ℕ} {l : List QPtr}
    (h : grp.slots = Function.update (s.priv.groups g).slots j l) (g' j' : ℕ) :
    ((setGroup s g grp).priv.groups g').slots j' =
      if g' = g ∧ j' = j then l else (s.priv.groups g').slots j' := by
  by_cases hg : g' = g
  · subst hg
    by_cases hj : j' = j
    · simp [setGroup, h, hj]
    · simp [setGroup, h, hj]
  · simp [setGroup, hg]

/-- A class that is in no list enters one. -/
theorem Listed.insert {R : BitVec 64} (h : Listed s loc) (hq : loc q = none)
    (he : qfqSlotInsert s g q R = some t) :
    Listed t (Function.update loc q (some (g,
      ((s.priv.groups g).front + (slotOffset (s.priv.groups g) R).toNat) % qfqMaxSlots))) := by
  obtain ⟨full, -, rfl⟩ := Option.map_eq_some_iff.1 he
  have hnot : ∀ g j, q ∉ (s.priv.groups g).slots j := fun g j hmem => by
    rw [h.mem, hq] at hmem
    simp at hmem
  refine ⟨fun g' j q' => ?_, fun g' j => ?_⟩
  · rw [slots_setGroup rfl]
    split_ifs with hgj
    · obtain ⟨rfl, rfl⟩ := hgj
      rw [List.mem_cons, h.mem]
      rcases eq_or_ne q' q with rfl | hne
      · simp
      · simp [hne]
    · rw [h.mem]
      rcases eq_or_ne q' q with rfl | hne
      · rw [hq, Function.update_self, Option.some.injEq, Prod.mk.injEq]
        simp only [reduceCtorEq, false_iff]
        exact fun heq => hgj ⟨heq.1.symm, heq.2.symm⟩
      · rw [Function.update_of_ne hne]
  · rw [slots_setGroup rfl]
    split_ifs with hgj
    · exact List.nodup_cons.2 ⟨hnot _ _, h.nodup _ _⟩
    · exact h.nodup g' j

/-- The first class of the front slot leaves it. -/
theorem Listed.remove (h : Listed s loc)
    (hq : ((s.priv.groups g).slots (s.priv.groups g).front).head? = some q)
    (he : qfqFrontSlotRemove s g = some t) : Listed t (Function.update loc q none) := by
  obtain ⟨rest, hrest⟩ := List.head?_eq_some_iff.1 hq
  simp only [qfqFrontSlotRemove, hrest] at he
  obtain ⟨full, -, rfl⟩ := Option.map_eq_some_iff.1 he
  have hnd := h.nodup g (s.priv.groups g).front
  rw [hrest, List.nodup_cons] at hnd
  have hloc : loc q = some (g, (s.priv.groups g).front) := by
    rw [← h.mem, hrest]
    exact List.mem_cons_self
  refine ⟨fun g' j q' => ?_, fun g' j => ?_⟩
  · rw [slots_setGroup rfl]
    split_ifs with hgj
    · obtain ⟨rfl, rfl⟩ := hgj
      rcases eq_or_ne q' q with rfl | hne
      · simp [hnd.1]
      · rw [Function.update_of_ne hne, ← h.mem, hrest, List.mem_cons]
        simp [hne]
    · rw [h.mem]
      rcases eq_or_ne q' q with rfl | hne
      · rw [hloc, Function.update_self, Option.some.injEq, Prod.mk.injEq]
        simp only [reduceCtorEq, iff_false]
        exact fun heq => hgj ⟨heq.1.symm, heq.2.symm⟩
      · rw [Function.update_of_ne hne]
  · rw [slots_setGroup rfl]
    split_ifs
    · exact hnd.2
    · exact h.nodup g' j

/-! ### The invariant -/

/-- The class belongs to the instance and has packets. -/
def Backlogged (s : Qfq) (q : QPtr) : Prop := q ∈ s.live ∧ s.mq q ≠ []

instance (s : Qfq) (q : QPtr) : Decidable (Backlogged s q) := inferInstanceAs (Decidable (_ ∧ _))

/-- The lists hold the classes with packets, each one in its own group. -/
structure ListInv (s : Qfq) (loc : QPtr → Option (ℕ × ℕ)) : Prop where
  listed : Listed s loc
  grp : ∀ q g j, loc q = some (g, j) → (s.ext q).grp = some g
  backlog : ∀ q, loc q ≠ none ↔ Backlogged s q

theorem ListInv.eq_none (hi : ListInv s loc) (hq : ¬ Backlogged s q) : loc q = none := by
  by_contra hne
  exact hq ((hi.backlog q).1 hne)

/-- The packets and the place of one class change together. -/
theorem ListInv.of_update {p : Option (ℕ × ℕ)} (hi : ListInv s loc)
    (hl : Listed t (Function.update loc q p)) (hgrp : ∀ q, (t.ext q).grp = (s.ext q).grp)
    (hp : ∀ g j, p = some (g, j) → (s.ext q).grp = some g) (hq : p ≠ none ↔ Backlogged t q)
    (hother : ∀ q', q' ≠ q → (Backlogged t q' ↔ Backlogged s q')) :
    ListInv t (Function.update loc q p) := by
  refine ⟨hl, fun q' g j hloc => ?_, fun q' => ?_⟩
  · rw [hgrp]
    rcases eq_or_ne q' q with rfl | hne
    · rw [Function.update_self] at hloc
      exact hp g j hloc
    · rw [Function.update_of_ne hne] at hloc
      exact hi.grp q' g j hloc
  · rcases eq_or_ne q' q with rfl | hne
    · rw [Function.update_self]
      exact hq
    · rw [Function.update_of_ne hne, hother q' hne]
      exact hi.backlog q'

theorem backlogged_of_sameBut {u : Qfq} {l : List Mbuf} (hbut : SameBut s u q l)
    (hbase : base t = base u) {q' : QPtr} (hne : q' ≠ q) : Backlogged t q' ↔ Backlogged s q' := by
  rw [Backlogged, Backlogged, live_eq hbase, hbut.live, mq_eq hbase, hbut.mq_of_ne hne]

theorem backlogged_self {u : Qfq} {l : List Mbuf} (hbut : SameBut s u q l)
    (hbase : base t = base u) (hq : q ∈ s.live) : Backlogged t q ↔ l ≠ [] := by
  rw [Backlogged, live_eq hbase, hbut.live, mq_eq hbase, hbut.mq_self]
  exact and_iff_right hq

theorem grp_of_sameBut {u : Qfq} {l : List Mbuf} (hbut : SameBut s u q l)
    (hbase : base t = base u) (q' : QPtr) : (t.ext q').grp = (s.ext q').grp := by
  rw [grp_eq hbase, hbut.ext]

theorem Listed.of_sameBut {u : Qfq} {l : List Mbuf} (h : Listed s loc) (hbut : SameBut s u q l) :
    Listed u loc :=
  h.of_slots fun g => by rw [hbut.priv]

/-- A class that was served stays in a list as long as it has packets. -/
theorem Listed.updateClass {b : Bool} (h : Listed s loc)
    (hq : ((s.priv.groups g).slots (s.priv.groups g).front).head? = some q)
    (he : qfqUpdateClass s g q = some (b, t)) :
    ∃ p, Listed t (Function.update loc q p) ∧ (p ≠ none ↔ s.mq q ≠ []) ∧
      ∀ g' j, p = some (g', j) → g' = g := by
  have hset : ∀ S F : BitVec 64, Listed (setTimes s q S F) loc := fun S F =>
    h.of_core (core_setTimes s q S F)
  simp only [qfqUpdateClass] at he
  split at he
  · next hmq =>
    obtain ⟨u, hu, ht⟩ := Option.map_eq_some_iff.1 he
    obtain ⟨-, rfl⟩ := Prod.mk.inj ht
    exact ⟨none, (hset _ _).remove hq hu, by simp [hmq], by simp⟩
  · next m rest hmq =>
    split_ifs at he
    · obtain ⟨-, rfl⟩ := Prod.mk.inj (Option.some.inj he)
      have hloc : loc q = some (g, (s.priv.groups g).front) := by
        rw [← h.mem]
        exact List.mem_of_mem_head? hq
      refine ⟨some (g, (s.priv.groups g).front), ?_, by simp [hmq], fun g' j hp => ?_⟩
      · rw [← hloc, Function.update_eq_self]
        exact hset _ _
      · exact (Prod.mk.inj (Option.some.inj hp)).1.symm
    · obtain ⟨u, hu, he⟩ := Option.bind_eq_some_iff.1 he
      obtain ⟨v, hv, ht⟩ := Option.map_eq_some_iff.1 he
      obtain ⟨-, rfl⟩ := Prod.mk.inj ht
      have hins := ((hset _ _).remove hq hu).insert (Function.update_self ..) hv
      rw [Function.update_idem] at hins
      exact ⟨_, hins, by simp [hmq], fun g' j hp => (Prod.mk.inj (Option.some.inj hp)).1.symm⟩

theorem qfqDequeue_listInv {o : Option Mbuf} (hi : ListInv s loc)
    (he : qfqDequeue s = some (o, t)) : ∃ loc', ListInv t loc' := by
  obtain ⟨-, -, rfl⟩ | ⟨g, q, -, hq, ⟨-, -, rfl⟩ | ⟨m, rest, u, hm, hbut, -, hserved⟩⟩ :=
    qfqDequeue_cases he
  · exact ⟨loc, hi⟩
  · exact ⟨loc, hi⟩
  · have hbase := base_served hserved
    obtain ⟨b, v, w, hv, hw, ht⟩ := qfqServed_cases hserved
    have hloc : loc q = some (g, (s.priv.groups g).front) := by
      rw [← hi.listed.mem]
      exact List.mem_of_mem_head? hq
    have hlive : q ∈ s.live := ((hi.backlog q).1 (by simp [hloc])).1
    have hu := (hi.listed.of_sameBut hbut).of_core
      (core_setV u (u.priv.V + m.len64 * BitVec.ofNat 64 iwsum))
    obtain ⟨p, hp, hnone, hgrp⟩ := hu.updateClass (by rw [← hbut.priv] at hq; exact hq) hv
    have hmq : (setV u (u.priv.V + m.len64 * BitVec.ofNat 64 iwsum)).mq q = rest := hbut.mq_self
    have hw' : core w = core v := by
      rcases hw with ⟨-, rfl⟩ | ⟨-, hw⟩
      · rfl
      · exact core_updateGroup hw
    refine ⟨_, hi.of_update (hp.of_core ((core_updateEligible ht).trans hw'))
      (grp_of_sameBut hbut hbase) (fun g' j hg => ?_) ?_ fun q' => backlogged_of_sameBut hbut hbase⟩
    · rw [hgrp g' j hg]
      exact hi.grp q g _ hloc
    · rw [hnone, hmq, backlogged_self hbut hbase hlive]

theorem qfqEnqueue_listInv {m : Mbuf} {r : Draws} {b : Bool} (hi : ListInv s loc)
    (hq : q ∈ s.live) (hm : ¬ s.isHead q m) (he : qfqEnqueue s q m r = some (b, t)) :
    ∃ loc', ListInv t loc' := by
  obtain ⟨u, hbut, ⟨hb, rfl⟩ | ⟨rfl, hmq, hact⟩⟩ := qfqEnqueue_cases hm he
  · -- no class becomes idle or active
    refine ⟨_, hi.of_update (p := loc q) ?_ (grp_of_sameBut hbut rfl) (hi.grp q) ?_
      fun q' => backlogged_of_sameBut hbut rfl⟩
    · rw [Function.update_eq_self]
      exact hi.listed.of_sameBut hbut
    · rw [hi.backlog, backlogged_self hbut rfl hq, Backlogged, and_iff_right hq]
      rcases b with _ | _
      · simp [hb.resolve_left Bool.false_ne_true]
      · rfl
  · have hbase := base_activate hact
    obtain ⟨g, hg, hact⟩ := Option.bind_eq_some_iff.1 hact
    obtain ⟨S, -, hact⟩ := Option.bind_eq_some_iff.1 hact
    obtain ⟨v, hv, ht⟩ := Option.bind_eq_some_iff.1 hact
    have hnone : loc q = none := hi.eq_none fun hbl => hbl.2 hmq
    have hl := ((hi.listed.of_sameBut hbut).of_core (core_setTimes u q S _)).of_core
      (core_updateState hv)
    rw [hbut.ext] at hg
    refine ⟨_, hi.of_update (hl.insert hnone ht) (grp_of_sameBut hbut hbase) (fun g' j hp => ?_) ?_
      fun q' => backlogged_of_sameBut hbut hbase⟩
    · rw [← (Prod.mk.inj (Option.some.inj hp)).1]
      exact hg
    · rw [backlogged_self hbut hbase hq]
      simp

theorem qNew_listInv {fs : DnFsk} (hi : ListInv s loc) (hq : q ∉ s.live)
    (h : qNew qfqDesc s q (qfqDesc.newFsk fs) = some t) : ListInv t loc := by
  obtain ⟨hlive, hmq, hother, hnew⟩ := qNew_cases h
  have hslots : ∀ g, (t.priv.groups g).slots = (s.priv.groups g).slots := by
    rcases hnew with ⟨-, hpriv, -⟩ | ⟨-, hpriv, -⟩ <;>
    · intro g
      rw [hpriv]
  have hnone : loc q = none := hi.eq_none fun hb => hq hb.1
  refine ⟨hi.listed.of_slots hslots, fun q' g j hloc => ?_, fun q' => ?_⟩
  · have hne : q' ≠ q := by
      rintro rfl
      simp [hnone] at hloc
    rw [(hother q' hne).2]
    exact hi.grp q' g j hloc
  · rcases eq_or_ne q' q with rfl | hne
    · simp [hnone, Backlogged, hmq]
    · rw [hi.backlog q', Backlogged, Backlogged, hlive, Inst.mq, Inst.mq, (hother q' hne).1]
      simp [hne]

/-- **A class that is deleted** leaves no trace in the lists if it is idle. -/
theorem dnDeleteQueue_listInv {destroy safe b : Bool} (hi : ListInv s loc) (hq : s.mq q = [])
    (h : dnDeleteQueue qfqDesc s q destroy safe = some (b, t)) :
    b = false ∧ ListInv t loc ∧ t.live = s.live.erase q ∧ ∀ q', q' ≠ q → t.mq q' = s.mq q' := by
  obtain ⟨hb, hlive, hother, hpriv⟩ := dnDeleteQueue_cases h
  have hmq : ∀ q', q' ≠ q → t.mq q' = s.mq q' := fun q' hne => by
    rw [Inst.mq, Inst.mq, (hother q' hne).1]
  have hnone : loc q = none := hi.eq_none fun hbl => hbl.2 hq
  refine ⟨hb, ⟨hi.listed.of_slots fun g => by rw [hpriv], fun q' g j hloc => ?_, fun q' => ?_⟩,
    hlive, hmq⟩
  · have hne : q' ≠ q := by
      rintro rfl
      simp [hnone] at hloc
    rw [(hother q' hne).2]
    exact hi.grp q' g j hloc
  · rcases eq_or_ne q' q with rfl | hne
    · simp [hnone, Backlogged, hlive]
    · rw [hi.backlog q', Backlogged, Backlogged, hlive, hmq q' hne]
      simp [hne]

/-- A class is deleted only when it has no packets. -/
def IdleFree (s : Qfq) : SchedOp → Prop
  | .delete q _ _ => s.mq q = []
  | _ => True

instance (s : Qfq) : (i : SchedOp) → Decidable (IdleFree s i)
  | .delete q _ _ => inferInstanceAs (Decidable (s.mq q = []))
  | .new .. | .enqueue .. | .dequeue => instDecidableTrue

/-- **Every step** that does not delete a class with packets keeps the lists right. -/
theorem step_listInv {i : SchedOp} {o : Option Mbuf} (hi : ListInv s loc) (hp : i.Promised s)
    (hok : IdleFree s i) (he : qfqDesc.step s i = some (o, t)) : ∃ loc', ListInv t loc' := by
  rcases i with ⟨q, fs⟩ | ⟨q, destroy, safe⟩ | ⟨q, m, r⟩ | _
  · obtain ⟨u, hu, hut⟩ := Option.map_eq_some_iff.1 he
    obtain ⟨rfl, rfl⟩ := Prod.mk.inj hut
    exact ⟨loc, qNew_listInv hi hp.1 hu⟩
  · obtain ⟨⟨b, u⟩, hu, hut⟩ := Option.map_eq_some_iff.1 he
    obtain ⟨rfl, rfl⟩ := Prod.mk.inj hut
    exact ⟨loc, (dnDeleteQueue_listInv hi hok hu).2.1⟩
  · obtain ⟨⟨b, u⟩, hu, hut⟩ := Option.map_eq_some_iff.1 he
    obtain ⟨rfl, rfl⟩ := Prod.mk.inj hut
    exact qfqEnqueue_listInv hi hp.1 hp.2 hu
  · exact qfqDequeue_listInv hi he

theorem IsNew.listInv (h : IsNew s) : ListInv s fun _ => none := by
  refine ⟨⟨fun g j q => ?_, fun g j => ?_⟩, by simp, fun q => ?_⟩
  · rw [h.priv]
    simp [qfqNewSched]
  · rw [h.priv]
    exact List.nodup_nil
  · simp [Backlogged, h.live]

end Dummynet.Qfq
