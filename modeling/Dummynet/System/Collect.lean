import Dummynet.System.Configure
import Dummynet.System.Drain
import Dummynet.System.Holdings

/-!
# Idle objects are collected

The drain routines as paths through states with a graph, on which no packet is lost.

## Main definitions

* `collectMoves`: the changes that the drain makes.
* `Collected`: the graph is kept, and so are the packets and what the drain does not look at.

## Main results

* `drainQueueFsCb_collected`, `drainSchedulerSchCb_collected`: the callbacks.
* `doDrain_collected`: the drain.
-/

namespace Dummynet

variable {F : Set FskPtr} {S : Set SchkPtr} {L : Option FskPtr} {s t u : Dn} {p : SiPtr}
  {fp : FskPtr} {sp : SchkPtr} {a : QAddr}

/-- What holds of the elements that a loop has not met yet is kept by its rounds. -/
theorem foldlM_inv {α σ : Type} {f : σ → α → Option σ} {I : List α → σ → Prop}
    (hf : ∀ {a l s t}, I (a :: l) s → f s a = some t → I l t) {l : List α} {s t : σ}
    (h : l.foldlM f s = some t) (hI : I l s) : I [] t := by
  induction l generalizing s with
  | nil =>
    obtain rfl := Option.some.inj h
    exact hI
  | cons a as ih =>
    rw [List.foldlM_cons] at h
    obtain ⟨u, hu, h⟩ := Option.bind_eq_some_iff.1 h
    exact ih h (hf hI hu)

/-- The changes that the drain makes. -/
def collectMoves : Set MoveKind := dropMoves fun _ => False

/-- The drain leads from `s` to `t`. -/
structure Collected (F : Set FskPtr) (S : Set SchkPtr) (L : Option FskPtr) (s t : Dn) : Prop
  extends Goes collectMoves F S L s t, Kept s t where
  spares : Spares s t

theorem Collected.refl (hg : Graph F S L s) : Collected F S L s s :=
  ⟨.refl hg, .refl s, .refl s⟩

theorem Collected.trans (h : Collected F S L s t) (h' : Collected F S L t u) :
    Collected F S L s u :=
  ⟨h.toGoes.trans h'.toGoes, h.toKept.trans h'.toKept, h.spares.trans h'.spares⟩

/-- A change of the state of the drain. -/
theorem collected_of_eq (hg : Graph F S L s) (hfsk : t.fsk = s.fsk) (hschk : t.schk = s.schk)
    (hfs : t.fshash = s.fshash) (hsh : t.schedhash = s.schedhash) (hfsu : t.fsu = s.fsu)
    (hbrk : s.brk ≤ t.brk) (hq : Quiet s t) : Collected F S L s t :=
  ⟨⟨hg.of_eq hfsk hschk hq.inst hq.sis hfsu hbrk,
    .single (.quiet hq fun sp => by rw [hschk]) quiet_mem_dropMoves⟩, .of_eq hfsk hschk hfs hsh,
    .of_eq hq.inst hq.sis⟩

/-- A scheduler with other instances, or another bucket for the drain. -/
theorem kept_setSchk {x : Schk} (hsch : x.sch = (s.schk sp).sch) (hfp : x.fp = (s.schk sp).fp)
    (hfs : x.fs = (s.schk sp).fs) (hlink : x.link = (s.schk sp).link) :
    Kept s (s.setSchk sp x) := by
  refine ⟨⟨rfl, rfl, fun sp' => ?_, fun sp' => ?_, fun sp' => ?_, fun _ => rfl, fun _ => rfl⟩,
    fun _ => rfl, fun sp' => ?_⟩
  all_goals
    rcases eq_or_ne sp' sp with rfl | hne
    · simpa [Dn.setSchk]
    · simp [Dn.setSchk, hne]

/-! ### Queues -/

/-- **`drain_queue_cb`** on a queue of the flowset. -/
theorem drainQueueCb_collected (hg : Graph F S L s) (ha : a ∈ (s.fsk fp).qht.list)
    (h : drainQueueCb fp s a = some t) : Collected F S L s t ∧
      ∀ a', a' ≠ a → a' ∈ (s.fsk fp).qht.list → a' ∈ (t.fsk fp).qht.list := by
  unfold drainQueueCb at h
  dsimp only at h
  split_ifs at h with hlen hexp
  · obtain ⟨⟨kept, u⟩, hu, h⟩ := Option.bind_eq_some_iff.1 h
    obtain rfl := Option.some.inj h
    obtain ⟨hfsk, -, hgo⟩ := deleteQueue_goes (K := fun _ => False) hg ha (.inl hlen) hu
    obtain ⟨hp, hq, -⟩ := (hg.queues fp a).1 ha
    obtain ⟨hkept, hspares⟩ : Kept s u ∧ Spares s u := by
      obtain ⟨_, -, hu⟩ := Option.bind_eq_some_iff.1 hu
      obtain ⟨_, -, hu⟩ := Option.bind_eq_some_iff.1 hu
      have hspares := callback_delete_spares hp hq (hg.sound_load hp) hlen hu
      obtain ⟨r, -, rfl⟩ := callback_spec hu
      exact ⟨.of_eq rfl rfl rfl rfl, hspares⟩
    cases kept with
    | true =>
      rw [if_pos rfl] at hgo
      exact ⟨⟨hgo, hkept, hspares⟩, fun a' _ ha' => by simpa [hfsk] using ha'⟩
    | false =>
      rw [if_neg (by decide)] at hgo
      simp only [Bool.false_eq_true, if_false]
      have hset := hkept.trans (@found_setFsk u fp
        { u.fsk fp with qht := (u.fsk fp).qht.remove a } rfl rfl rfl).toKept
      rw [hfsk] at hgo hset ⊢
      exact ⟨⟨hgo, hset, hspares.trans (.of_eq rfl rfl)⟩,
        fun a' hne ha' => by simpa [Dn.setFsk] using ⟨ha', hne⟩⟩
  · obtain rfl := Option.some.inj h
    exact ⟨collected_of_eq hg rfl rfl rfl rfl rfl le_rfl
      ⟨⟨rfl, rfl, rfl, rfl, rfl, id⟩, rfl, rfl, rfl⟩, fun _ _ => id⟩
  · obtain rfl := Option.some.inj h
    exact ⟨.refl hg, fun _ _ => id⟩

/-- The queues of one bucket. -/
theorem drainQueues_collected {l : List QAddr} (hg : Graph F S L s) (hnodup : l.Nodup)
    (hl : ∀ a ∈ l, a ∈ (s.fsk fp).qht.list) (h : l.foldlM (drainQueueCb fp) s = some t) :
    Collected F S L s t := by
  refine (foldlM_inv (I := fun l u => Collected F S L s u ∧ l.Nodup ∧
    ∀ a ∈ l, a ∈ (u.fsk fp).qht.list) (fun {a l u v} hI hv => ?_) h ⟨.refl hg, hnodup, hl⟩).1
  obtain ⟨hcol, hnd, hin⟩ := hI
  obtain ⟨hnot, hnd⟩ := List.nodup_cons.1 hnd
  obtain ⟨hc, hrest⟩ := drainQueueCb_collected hcol.graph (hin a List.mem_cons_self) hv
  exact ⟨hcol.trans hc, hnd, fun a' ha' => hrest a' (fun he => hnot (he ▸ ha'))
    (hin a' (List.mem_cons_of_mem a ha'))⟩

/-- The objects of one bucket are among those of the table, and met once. -/
theorem chain_of_table {α : Type} {ht : DnHt α} (hnodup : (Objs.table ht).Nodup)
    (i : Fin (ht.buckets + 1)) :
    (ht.chain i).Nodup ∧ ∀ a ∈ ht.chain i, a ∈ (Objs.table ht).list :=
  ⟨hnodup.sublist (List.filter_sublist.map Prod.snd),
    fun _ ha => DnHt.mem_ordered.2 ⟨i, DnHt.mem_chain.1 ha⟩⟩

/-- A flowset with queues exists. -/
theorem Graph.mem_of_queue (hg : Graph F S L s) (ha : (s.fsk fp).qht ≠ .null) : fp ∈ F := by
  by_contra hfp
  rw [hg.fsk_zero fp hfp] at ha
  exact ha rfl

/-- A scheduler with instances exists. -/
theorem Graph.mem_of_inst (hg : Graph F S L s) (ha : (s.schk sp).siht ≠ .null) : sp ∈ S := by
  by_contra hsp
  rw [hg.schk_zero sp hsp] at ha
  exact ha rfl

/-- **`drain_queue_fs_cb`**. -/
theorem drainQueueFsCb_collected (hg : Graph F S L s) (h : drainQueueFsCb s fp = some t) :
    Collected F S L s t := by
  unfold drainQueueFsCb at h
  dsimp only at h
  split at h
  · cases hq : (s.fsk fp).qht with
    | null =>
      simp only [hq] at h
      obtain rfl := Option.some.inj h
      exact .refl hg
    | one a => simp [hq] at h
    | table ht =>
      simp only [hq] at h
      rw [← hq] at h
      have hfp : fp ∈ F := hg.mem_of_queue (by simp [hq])
      obtain ⟨hnodup, hsub⟩ := chain_of_table (hq ▸ hg.queues_nodup fp)
        (ht.scanBucket (s.fsk fp).drainBucket)
      have hset := hg.setFsk (f := { s.fsk fp with
        drainBucket := BitVec.ofNat 32 ((ht.scanBucket (s.fsk fp).drainBucket : ℕ) + 1) }) hfp
        ⟨rfl, rfl, id, rfl⟩
      have hkept := (@found_setFsk s fp { s.fsk fp with
        drainBucket := BitVec.ofNat 32 ((ht.scanBucket (s.fsk fp).drainBucket : ℕ) + 1) }
        rfl rfl rfl).toKept
      refine Collected.trans ⟨⟨hset, path_setFsk quiet_mem_dropMoves⟩, hkept, .of_eq rfl rfl⟩
        (drainQueues_collected hset hnodup (fun a ha => ?_) h)
      simpa [Dn.setFsk, hq] using hsub a ha
  · cases hq : (s.fsk fp).qht with
    | null =>
      simp only [hq] at h
      obtain rfl := Option.some.inj h
      exact .refl hg
    | one a =>
      simp only [hq] at h
      exact (drainQueueCb_collected hg (by simp [hq, Objs.list]) h).1
    | table ht => simp [hq] at h

/-- **`dn_drain_queue`**. -/
theorem dnDrainQueue_collected (hg : Graph F S L s) (h : dnDrainQueue s = some t) :
    Collected F S L s t := by
  unfold dnDrainQueue at h
  cases hht : s.fshash with
  | none =>
    simp only [hht] at h
    obtain rfl := Option.some.inj h
    exact .refl hg
  | some ht =>
    simp only [hht] at h
    rw [← hht] at h
    refine foldlM_inv (I := fun _ u => Collected F S L s u) (fun hI hv =>
      hI.trans (drainQueueFsCb_collected hI.graph hv)) h ?_
    exact collected_of_eq hg rfl rfl rfl rfl rfl le_rfl
      ⟨⟨rfl, rfl, rfl, rfl, rfl, id⟩, rfl, rfl, rfl⟩

/-! ### Instances -/

/-- **`drain_scheduler_cb`** on an instance of the scheduler. -/
theorem drainSchedulerCb_collected (hg : Graph F S L s) (hp : p ∈ (s.schk sp).siht.list)
    (h : drainSchedulerCb sp s p = some t) : Collected F S L s t ∧
      ∀ p', p' ≠ p → p' ∈ (s.schk sp).siht.list → p' ∈ (t.schk sp).siht.list := by
  obtain ⟨hmem, hsched⟩ := (hg.insts sp p).1 hp
  unfold drainSchedulerCb at h
  dsimp only at h
  split at h
  · obtain rfl := Option.some.inj h
    exact ⟨.refl hg, fun _ _ => id⟩
  next hbusy =>
  split at h
  · next hlen =>
    split at h
    · next hidle =>
      obtain ⟨u, hu, h⟩ := Option.bind_eq_some_iff.1 h
      obtain rfl := Option.some.inj h
      have hsound := hg.sound p hmem
      have hlive : (s.inst p).s.live = ∅ := by
        cases hm : (s.inst p).kind.multiqueue with
        | false => exact hsound.single hm
        | true =>
          have hcount := hsound.count
          rw [hidle.1 hm] at hcount
          exact Finset.card_eq_zero.1 (by exact_mod_cast hcount.symm)
      obtain ⟨hgo, hlists, hfsk, -, -⟩ := siDestroy_goes (K := fun _ => False) hg hmem hlive
        hsched hu
      have hdl : (s.inst p).dline = [] := by simp_all
      refine ⟨⟨hgo, (Kept.of_eq hfsk hlists.schk hlists.fshash hlists.schedhash).trans
        (kept_setSchk rfl rfl rfl rfl), (siDestroy_spares hmem hlive hlen hdl hu).trans
        (.of_eq rfl rfl)⟩, fun p' hne hp' => ?_⟩
      simpa [Dn.setSchk, hlists.schk] using ⟨hp', hne⟩
    · obtain rfl := Option.some.inj h
      exact ⟨collected_of_eq hg rfl rfl rfl rfl rfl le_rfl
        ⟨⟨rfl, rfl, rfl, rfl, rfl, id⟩, rfl, rfl, rfl⟩, fun _ _ => id⟩
  · obtain rfl := Option.some.inj h
    exact ⟨.refl hg, fun _ _ => id⟩

/-- The instances of one bucket. -/
theorem drainInsts_collected {l : List SiPtr} (hg : Graph F S L s) (hnodup : l.Nodup)
    (hl : ∀ p ∈ l, p ∈ (s.schk sp).siht.list) (h : l.foldlM (drainSchedulerCb sp) s = some t) :
    Collected F S L s t := by
  refine (foldlM_inv (I := fun l u => Collected F S L s u ∧ l.Nodup ∧
    ∀ p ∈ l, p ∈ (u.schk sp).siht.list) (fun {p l u v} hI hv => ?_) h ⟨.refl hg, hnodup, hl⟩).1
  obtain ⟨hcol, hnd, hin⟩ := hI
  obtain ⟨hnot, hnd⟩ := List.nodup_cons.1 hnd
  obtain ⟨hc, hrest⟩ := drainSchedulerCb_collected hcol.graph (hin p List.mem_cons_self) hv
  exact ⟨hcol.trans hc, hnd, fun p' hp' => hrest p' (fun he => hnot (he ▸ hp'))
    (hin p' (List.mem_cons_of_mem p hp'))⟩

/-- **`drain_scheduler_sch_cb`**. -/
theorem drainSchedulerSchCb_collected (hg : Graph F S L s) (h : drainSchedulerSchCb s sp = some t) :
    Collected F S L s t := by
  unfold drainSchedulerSchCb at h
  dsimp only at h
  split at h
  · cases hq : (s.schk sp).siht with
    | null =>
      simp only [hq] at h
      obtain rfl := Option.some.inj h
      exact .refl hg
    | one p => simp [hq] at h
    | table ht =>
      simp only [hq] at h
      rw [← hq] at h
      have hsp : sp ∈ S := hg.mem_of_inst (by simp [hq])
      obtain ⟨hnodup, hsub⟩ := chain_of_table (hq ▸ hg.insts_nodup sp)
        (ht.scanBucket (s.schk sp).drainBucket)
      have hset := hg.setSchk (x := { s.schk sp with
        drainBucket := BitVec.ofNat 32 ((ht.scanBucket (s.schk sp).drainBucket : ℕ) + 1) }) hsp
        rfl rfl fun _ => rfl
      refine Collected.trans ⟨⟨hset, path_setSchk quiet_mem_dropMoves rfl⟩,
        kept_setSchk rfl rfl rfl rfl, .of_eq rfl rfl⟩
        (drainInsts_collected hset hnodup (fun p hp => ?_) h)
      simpa [Dn.setSchk, hq] using hsub p hp
  · cases hq : (s.schk sp).siht with
    | null =>
      simp only [hq] at h
      obtain rfl := Option.some.inj h
      exact .refl hg
    | one p =>
      simp only [hq] at h
      exact (drainSchedulerCb_collected hg (by simp [hq, Objs.list]) h).1
    | table ht => simp [hq] at h

/-- **`dn_drain_scheduler`**. -/
theorem dnDrainScheduler_collected (hg : Graph F S L s) (h : dnDrainScheduler s = some t) :
    Collected F S L s t := by
  unfold dnDrainScheduler at h
  cases hht : s.schedhash with
  | none =>
    simp only [hht] at h
    obtain rfl := Option.some.inj h
    exact .refl hg
  | some ht =>
    simp only [hht] at h
    rw [← hht] at h
    refine foldlM_inv (I := fun _ u => Collected F S L s u) (fun hI hv =>
      hI.trans (drainSchedulerSchCb_collected hI.graph hv)) h ?_
    exact collected_of_eq hg rfl rfl rfl rfl rfl le_rfl
      ⟨⟨rfl, rfl, rfl, rfl, rfl, id⟩, rfl, rfl, rfl⟩

/-! ### The drain -/

/-- The loop of `do_drain`. -/
theorem drainLoop_collected {n : ℕ} (hg : Graph F S L s) (h : drainLoop n s = some t) :
    Collected F S L s t := by
  induction n generalizing s with
  | zero =>
    obtain rfl := Option.some.inj h
    exact .refl hg
  | succ n ih =>
    rw [drainLoop] at h
    dsimp only at h
    have hend : ∀ {v : Dn} {c : Prop} [Decidable c], Collected F S L s v →
        (if c then drainLoop n v else some v) = some t → Collected F S L s t := by
      intro v c _ hsv h
      split_ifs at h
      · exact hsv.trans (ih hsv.graph h)
      · obtain rfl := Option.some.inj h
        exact hsv
    split at h
    · obtain ⟨u, hu, h⟩ := Option.bind_eq_some_iff.1 h
      have hsu := dnDrainQueue_collected hg hu
      split at h
      · obtain ⟨v, hv, h⟩ := Option.bind_eq_some_iff.1 h
        exact hend (hsu.trans (dnDrainScheduler_collected hsu.graph hv)) h
      · obtain ⟨v, hv, h⟩ := Option.bind_eq_some_iff.1 h
        obtain rfl := Option.some.inj hv
        exact hend hsu h
    · obtain ⟨u, hu, h⟩ := Option.bind_eq_some_iff.1 h
      obtain rfl := Option.some.inj hu
      split at h
      · obtain ⟨v, hv, h⟩ := Option.bind_eq_some_iff.1 h
        exact hend (dnDrainScheduler_collected hg hv) h
      · obtain ⟨v, hv, h⟩ := Option.bind_eq_some_iff.1 h
        obtain rfl := Option.some.inj hv
        exact hend (.refl hg) h

/-- **`do_drain`.** -/
theorem doDrain_collected (hg : Graph F S L s) (h : doDrain s = some t) : Collected F S L s t := by
  unfold doDrain at h
  dsimp only at h
  split_ifs at h
  · obtain rfl := Option.some.inj h
    exact .refl hg
  · obtain rfl := Option.some.inj h
    exact collected_of_eq hg rfl rfl rfl rfl rfl le_rfl
      ⟨⟨rfl, rfl, rfl, rfl, rfl, id⟩, rfl, rfl, rfl⟩
  · have hc := collected_of_eq (t := { s with
        expireCycle := 0, idleQueueWait := 0, idleSiWait := 0 }) hg rfl rfl rfl rfl rfl le_rfl
      ⟨⟨rfl, rfl, rfl, rfl, rfl, id⟩, rfl, rfl, rfl⟩
    exact hc.trans (drainLoop_collected hc.graph h)

end Dummynet
