import Dummynet.System.Reach

/-!
# What schedulers hold

The bandwidths of the links and the profiles of the schedulers come from requests. What holds of the
ones that requests bring, and of the bandwidth 0, holds of all of them.

## Main definitions

* `Dn.Keeps`: a property of the bandwidths and one of the profiles.
* `Dn.ReachBy`: the states that requests of a kind lead to.

## Main results

* `configSched_holds`, `configLink_holds`, `configProfile_holds`: the handlers.
* `Dn.ReachBy.holds`: runs.
-/

namespace Dummynet

variable {s t u v : Dn} {sp sp' : SchkPtr} {i : BitVec 32} {j : SchedJob} {err : ℕ}
  {B : BitVec 32 → Prop} {Q : DnProfile → Prop} {pf : DnProfile} {kind : SchedType}

/-- The bandwidths of all links and all profiles have a property. -/
structure Dn.Keeps (B : BitVec 32 → Prop) (Q : DnProfile → Prop) (s : Dn) : Prop where
  link : ∀ sp, B (s.schk sp).link.bandwidth
  profile : ∀ sp pf, (s.schk sp).profile = some pf → Q pf

theorem Dn.Keeps.of_schk (h : s.Keeps B Q) (ht : t.schk = s.schk) : t.Keeps B Q :=
  ⟨fun sp => ht ▸ h.link sp, fun sp => ht ▸ h.profile sp⟩

/-- Only `sp` is new. -/
theorem Dn.Keeps.of_core (h : s.Keeps B Q)
    (hcore : ∀ sp', sp' ≠ sp → (t.schk sp').core = (s.schk sp').core)
    (hb : B (t.schk sp).link.bandwidth) (hq : ∀ pf, (t.schk sp).profile = some pf → Q pf) :
    t.Keeps B Q where
  link sp' := by
    rcases eq_or_ne sp' sp with rfl | hne
    · exact hb
    · rw [Schk.link_of_core (hcore sp' hne)]
      exact h.link sp'
  profile sp' pf hpf := by
    rcases eq_or_ne sp' sp with rfl | hne
    · exact hq pf hpf
    · rw [Schk.profile_of_core (hcore sp' hne)] at hpf
      exact h.profile sp' pf hpf

theorem Fixed.holds (h : Fixed s t) (hs : s.Keeps B Q) : t.Keeps B Q where
  link sp := by
    rw [Schk.link_of_core (h.core sp)]
    exact hs.link sp
  profile sp pf hpf := by
    rw [Schk.profile_of_core (h.core sp)] at hpf
    exact hs.profile sp pf hpf

theorem Wrote.holds (h : Wrote sp s t) (hs : s.Keeps B Q) (hb : B (t.schk sp).link.bandwidth)
    (hq : ∀ pf, (t.schk sp).profile = some pf → Q pf) : t.Keeps B Q :=
  hs.of_core h.core hb hq

/-- A scheduler that is freed. -/
theorem Wrote.holds_of_free (h : Wrote sp s t) (hs : s.Keeps B Q) (hzero : B 0)
    (hfree : (t.schk sp).core = ({} : Schk).core) : t.Keeps B Q := by
  refine h.holds hs ?_ fun pf hpf => ?_
  · rw [Schk.link_of_core hfree]
    exact hzero
  · rw [Schk.profile_of_core hfree] at hpf
    exact absurd hpf (by simp)

/-- A scheduler is written. -/
theorem Dn.Keeps.setSchk {x : Schk} (h : s.Keeps B Q) (hb : B x.link.bandwidth)
    (hq : ∀ pf, x.profile = some pf → Q pf) : (s.setSchk sp x).Keeps B Q := by
  have hself : (s.setSchk sp x).schk sp = x := Function.update_self ..
  refine (wrote_setSchk s sp x).holds h ?_ fun pf hpf => ?_
  · rw [hself]
    exact hb
  · rw [hself] at hpf
    exact hq pf hpf

/-! ### Schedulers go -/

theorem schkDeleteCb_holds (hs : s.Keeps B Q) (hzero : B 0) (h : schkDeleteCb s sp = some t) :
    t.Keeps B Q := by
  obtain ⟨hw, hfree⟩ := schkDeleteCb_wrote h
  exact hw.holds_of_free hs hzero hfree

theorem deleteSchk_holds (hs : s.Keeps B Q) (hzero : B 0) (h : deleteSchk s i = some (err, t)) :
    t.Keeps B Q := by
  unfold deleteSchk at h
  dsimp only at h
  split at h
  · obtain ⟨-, rfl⟩ := Prod.mk.inj (Option.some.inj h)
    exact hs.of_schk rfl
  · obtain ⟨⟨e, u⟩, hu, h⟩ := Option.bind_eq_some_iff.1 h
    obtain ⟨v, hv, h⟩ := Option.bind_eq_some_iff.1 h
    obtain ⟨-, rfl⟩ := Prod.mk.inj (Option.some.inj h)
    exact schkDeleteCb_holds ((deleteFs_fixed hu).holds (hs.of_schk rfl)) hzero hv

theorem schkDeleteAll_holds {l : List SchkPtr} (hs : s.Keeps B Q) (hzero : B 0)
    (h : schkDeleteAll s l = some t) : t.Keeps B Q := by
  induction l generalizing s with
  | nil =>
    obtain rfl := Option.some.inj h
    exact hs
  | cons sp sps ih =>
    obtain ⟨u, hu, h⟩ := Option.bind_eq_some_iff.1 h
    refine ih (schkDeleteCb_holds ?_ hzero hu) h
    exact hs.of_schk rfl

theorem fskDeleteList_fixed {l : List FskPtr} (h : fskDeleteList s l = some t) : Fixed s t := by
  induction l generalizing s with
  | nil =>
    obtain rfl := Option.some.inj h
    exact .refl s
  | cons fp fps ih =>
    obtain ⟨u, hu, h⟩ := Option.bind_eq_some_iff.1 h
    exact (Fixed.after (s := s) (fskDetach_fixed hu) rfl).trans (ih h)

/-- **`dummynet_flush`**. -/
theorem dummynetFlush_holds (hs : s.Keeps B Q) (hzero : B 0) (h : dummynetFlush s = some t) :
    t.Keeps B Q := by
  obtain ⟨u, hu, h⟩ := Option.bind_eq_some_iff.1 h
  obtain ⟨v, hv, h⟩ := Option.bind_eq_some_iff.1 h
  obtain rfl := Option.some.inj h
  have hsu := schkDeleteAll_holds hs hzero hu
  exact ((fskDeleteList_fixed hv).holds (hsu.of_schk rfl)).of_schk rfl

/-! ### Schedulers come -/

theorem findOrNewSched_holds {x : DnSch} {o : Option SchkPtr} (hs : s.Keeps B Q) (hzero : B 0)
    (h : findOrNewSched s i x = (o, t)) : t.Keeps B Q := by
  unfold findOrNewSched at h
  split at h
  · obtain ⟨-, rfl⟩ := Prod.mk.inj h
    exact hs
  split at h
  · obtain ⟨-, rfl⟩ := Prod.mk.inj h
    exact hs
  obtain ⟨o', u, hu⟩ : ∃ o' u, schkNew s x = (o', u) := ⟨_, _, rfl⟩
  rw [hu] at h
  rcases schkNew_cases hu with ⟨rfl, hsu⟩ | ⟨y, rfl, hy, -, -, -, hschk⟩
  · obtain ⟨-, rfl⟩ := Prod.mk.inj h
    exact hsu.holds hs
  · obtain ⟨-, rfl⟩ := Prod.mk.inj h
    have hset : (s.setSchk s.brk y).Keeps B Q := by
      refine hs.setSchk ?_ fun pf hpf => ?_
      · rw [Schk.link_of_core hy]
        exact hzero
      · rw [Schk.profile_of_core hy] at hpf
        exact absurd hpf (by simp [newSchk])
    exact hset.of_schk hschk

theorem internalFs_holds {ok : Bool} (hs : s.Keeps B Q) (hzero : B 0)
    (h : internalFs s sp kind i = some (ok, t)) : t.Keeps B Q := by
  obtain ⟨hw, ⟨-, hcore⟩ | ⟨-, hfree⟩⟩ := internalFs_wrote h
  · refine hw.holds hs ?_ fun pf hpf => ?_
    · rw [Schk.link_of_core hcore]
      exact hs.link sp
    · rw [Schk.profile_of_core hcore] at hpf
      exact hs.profile sp pf hpf
  · exact hw.holds_of_free hs hzero hfree

/-- The request for the next round brings the link of a scheduler. -/
theorem configSchedAt_holds {r : ℕ ⊕ SchedJob} (hs : s.Keeps B Q) (hzero : B 0)
    (hj : B j.p.bandwidth) (h : configSchedAt s sp kind j = some (r, t)) :
    t.Keeps B Q ∧ ∀ k, r = .inr k → B k.p.bandwidth := by
  have hnext : ∀ (k : SchedJob) (w : Dn), B k.p.bandwidth →
      ∀ k', k.next w = .inr k' → B k'.p.bandwidth := by
    intro k w hk k' hk'
    obtain ⟨rfl, -⟩ := SchedJob.next_eq hk'
    rw [SchedJob.twin_p]
    exact hk
  obtain ⟨u, hu, h⟩ := Option.bind_eq_some_iff.1 h
  have hsu : u.Keeps B Q := by
    unfold restoreLink at hu
    split_ifs at hu
    · obtain rfl := Option.some.inj hu
      exact hs
    · obtain rfl := Option.some.inj hu
      exact hs.setSchk hj (by simp)
  dsimp only at h
  split_ifs at h
  · obtain ⟨w, hw, h⟩ := Option.bind_eq_some_iff.1 h
    obtain ⟨rfl, rfl⟩ := Prod.mk.inj (Option.some.inj h)
    have hsv := (saveProfile_spec u sp j.pf).1.holds hsu
    refine ⟨schkDeleteCb_holds ?_ hzero hw, fun k hk => ?_⟩
    · exact hsv.of_schk rfl
    obtain rfl := Sum.inr.inj hk
    exact hsu.link sp
  · obtain ⟨⟨ok, v⟩, hv, h⟩ := Option.bind_eq_some_iff.1 h
    have hset : (u.setSchk sp { u.schk sp with sch := j.sch, fp := some kind }).Keeps B Q :=
      hsu.setSchk (hsu.link sp) (hsu.profile sp)
    have hsv := internalFs_holds hset hzero hv
    dsimp only at h
    split_ifs at h
    · obtain ⟨rfl, rfl⟩ := Prod.mk.inj (Option.some.inj h)
      exact ⟨hsv, fun k hk => absurd hk (by simp)⟩
    · obtain ⟨w, hw, h⟩ := Option.bind_eq_some_iff.1 h
      obtain ⟨rfl, rfl⟩ := Prod.mk.inj (Option.some.inj h)
      exact ⟨(updateFs_fixed hw).holds hsv, hnext { j with p := { j.p with linkNr := 0 } } w hj⟩

/-- **One round of `config_sched`.** -/
theorem configSchedRound_holds {r : ℕ ⊕ SchedJob} (hs : s.Keeps B Q) (hzero : B 0)
    (hj : B j.p.bandwidth) (h : configSchedRound s j = some (r, t)) :
    t.Keeps B Q ∧ ∀ k, r = .inr k → B k.p.bandwidth := by
  have hsu : s.nextId.Keeps B Q := hs.of_schk rfl
  cases configSchedRound_cases h with
  | noMemory _ hv => exact ⟨findOrNewSched_holds hsu hzero hv, fun k hk => absurd hk (by simp)⟩
  | known _ hv hat =>
    exact configSchedAt_holds (findOrNewSched_holds hsu hzero hv) hzero (by exact hj) hat
  | pipe _ _ _ =>
    refine ⟨hsu, fun k hk => ?_⟩
    obtain ⟨rfl, -⟩ := SchedJob.next_eq hk
    rw [SchedJob.twin_p]
    exact hj
  | old _ _ _ _ _ hat => exact configSchedAt_holds hsu hzero (by exact hj) hat
  | default _ _ =>
    refine ⟨hsu, fun k hk => ?_⟩
    obtain rfl := Sum.inr.inj hk
    exact hj
  | unknown _ => exact ⟨hsu, fun k hk => absurd hk (by simp)⟩

/-- **`config_sched`**. -/
theorem configSched_holds {x : DnSch} (hs : s.Keeps B Q) (hzero : B 0)
    (h : configSched s x = some (err, t)) : t.Keeps B Q := by
  have hloop : ∀ (n : ℕ) {s : Dn} {j : SchedJob}, s.Keeps B Q → B j.p.bandwidth →
      configSchedLoop n s j = some (err, t) → t.Keeps B Q := by
    intro n
    induction n with
    | zero => exact fun _ _ h => absurd h (by simp [configSchedLoop])
    | succ n ih =>
      intro s j hs hj h
      obtain ⟨⟨r, u⟩, hu, h⟩ := Option.bind_eq_some_iff.1 h
      obtain ⟨hsu, hk⟩ := configSchedRound_holds hs hzero hj hu
      rcases r with e | k
      · obtain ⟨-, rfl⟩ := Prod.mk.inj (Option.some.inj h)
        exact hsu
      · exact ih hsu (hk k rfl) h
  rw [configSched_eq] at h
  split_ifs at h
  · obtain ⟨-, rfl⟩ := Prod.mk.inj (Option.some.inj h)
    exact hs
  · refine hloop 8 (hs.of_schk ?_) hzero h
    unfold needSchedhash
    split <;> rfl

/-! ### Links and profiles -/

/-- **`config_link`**: profiles go. -/
theorem configLink_holds {p : DnLink} (hs : s.Keeps B Q) (hp : B p.bandwidth)
    (h : configLink s p = some (err, t)) : t.Keeps B Q := by
  have hset : ∀ {s t : Dn} {sp : SchkPtr} {i : BitVec 32} {p' : DnLink}, s.Keeps B Q →
      p'.bandwidth = p.bandwidth → setLink s sp i p' = some t → t.Keeps B Q := by
    intro s t sp i p' hs hp' h
    obtain ⟨hwrote, -, hlink, hprof⟩ := setLink_wrote h
    refine hwrote.holds hs ?_ fun pf hpf => absurd (hprof.symm.trans hpf) (by simp)
    rw [hlink]
    change B p'.bandwidth
    rw [hp']
    exact hp
  unfold configLink at h
  dsimp only at h
  split at h
  · obtain ⟨-, rfl⟩ := Prod.mk.inj (Option.some.inj h)
    exact hs
  split at h
  · obtain ⟨-, rfl⟩ := Prod.mk.inj (Option.some.inj h)
    exact hs
  obtain ⟨u, hu, h⟩ := Option.bind_eq_some_iff.1 h
  have hsu := hset hs (by rfl) hu
  split at h
  · obtain ⟨-, rfl⟩ := Prod.mk.inj (Option.some.inj h)
    exact hsu
  obtain ⟨v, hv, h⟩ := Option.bind_eq_some_iff.1 h
  obtain ⟨-, rfl⟩ := Prod.mk.inj (Option.some.inj h)
  exact (hset hsu (by rfl) hv).of_schk rfl

/-- What a profile is copied over: the old one, unless it is shorter, or new memory. -/
def DnProfile.under (pf : DnProfile) (o : Option DnProfile) : DnProfile :=
  (o.filter fun old => !old.oid.len.ult pf.oid.len).getD {}

/-- One round of the loop in `config_profile`. -/
theorem setProfile_holds {ok : Bool} (hs : s.Keeps B Q)
    (hpf : pf.samplesNo ≠ 0 → Q (pf.copied (pf.under (s.schk sp).profile)))
    (h : setProfile s sp pf = (ok, t)) :
    t.Keeps B Q ∧ (t.schk sp).sch = (s.schk sp).sch ∧
      ∀ sp', sp' ≠ sp → (t.schk sp').core = (s.schk sp').core := by
  have hset : ∀ {u : Dn} (o : Option DnProfile), u.schk = s.schk → (∀ pf, o = some pf → Q pf) →
      (u.setSchk sp { s.schk sp with profile := o }).Keeps B Q ∧
        ((u.setSchk sp { s.schk sp with profile := o }).schk sp).sch = (s.schk sp).sch ∧
        ∀ sp', sp' ≠ sp →
          ((u.setSchk sp { s.schk sp with profile := o }).schk sp').core = (s.schk sp').core := by
    intro u o hu ho
    refine ⟨(hs.of_schk hu).setSchk (hs.link sp) ho, ?_, fun sp' hne => ?_⟩
    · change (Function.update u.schk sp _ sp).sch = _
      rw [Function.update_self]
    · rw [← hu]
      exact congrArg Schk.core (Function.update_of_ne hne ..)
  unfold setProfile at h
  dsimp only at h
  split at h
  · obtain ⟨-, rfl⟩ := Prod.mk.inj h
    refine hset _ rfl fun old hold => ?_
    exact hs.profile sp old (Option.eq_some_of_filter_eq_some hold)
  next hno =>
  have hunder : pf.under (s.schk sp).profile = ((s.schk sp).profile.filter fun old =>
      !decide (pf.samplesNo = 0 ∨ old.oid.len.ult pf.oid.len = true)).getD {} := by
    unfold DnProfile.under
    simp only [hno, false_or, Bool.decide_eq_true]
  rw [hunder] at hpf
  split at h
  · next old hold =>
    obtain ⟨-, rfl⟩ := Prod.mk.inj h
    refine hset _ rfl fun pf' hpf' => ?_
    obtain rfl := Option.some.inj hpf'
    rw [hold] at hpf
    exact hpf hno
  · next hold =>
    obtain ⟨-, rfl⟩ := Prod.mk.inj h
    refine hset _ rfl fun pf' hpf' => ?_
    split_ifs at hpf'
    obtain rfl := Option.some.inj hpf'
    rw [hold] at hpf
    exact hpf hno

/-- **`config_profile`**: the two schedulers that it writes. -/
theorem configProfile_holds (hs : s.Keeps B Q)
    (hpf : pf.samplesNo ≠ 0 → ∀ sp, s.schedNr sp = pf.linkNr ∨ s.schedNr sp = pf.linkNr + dnMaxId →
      Q (pf.copied (pf.under (s.schk sp).profile)))
    (h : configProfile s pf = (err, t)) : t.Keeps B Q := by
  unfold configProfile at h
  dsimp only at h
  split at h
  · obtain ⟨-, rfl⟩ := Prod.mk.inj h
    exact hs
  split at h
  · obtain ⟨-, rfl⟩ := Prod.mk.inj h
    exact hs
  next sp hfind =>
  have hnr : s.schedNr sp = pf.linkNr := (inBucket_of_find hfind).2
  have hset : ∀ {ok : Bool} {u : Dn}, setProfile { s with id := s.id + 1 } sp pf = (ok, u) →
      u.Keeps B Q ∧ (u.schk sp).sch = (s.schk sp).sch ∧
        ∀ sp', sp' ≠ sp → (u.schk sp').core = (s.schk sp').core := fun hu =>
    setProfile_holds (s := { s with id := s.id + 1 }) (hs.of_schk rfl)
      (fun hno => hpf hno sp (.inl hnr)) hu
  split at h
  · next u hu =>
    obtain ⟨-, rfl⟩ := Prod.mk.inj h
    exact (hset hu).1
  next u hu =>
  obtain ⟨hsu, hsch, hcore⟩ := hset hu
  split at h
  · obtain ⟨-, rfl⟩ := Prod.mk.inj h
    exact hsu
  next sp' hfind' =>
  have hnr' : u.schedNr sp' = pf.linkNr + dnMaxId := (inBucket_of_find hfind').2
  -- the twin is another scheduler
  have hne : sp' ≠ sp := by
    rintro rfl
    have heq : pf.linkNr = pf.linkNr + dnMaxId :=
      hnr.symm.trans ((congrArg DnSch.schedNr hsch).symm.trans hnr')
    rw [left_eq_add] at heq
    exact absurd heq (by decide)
  have hold : s.schedNr sp' = pf.linkNr + dnMaxId :=
    (congrArg DnSch.schedNr (Schk.sch_of_core (hcore sp' hne))).symm.trans hnr'
  have htwin : ∀ {ok : Bool} {v : Dn}, setProfile { u with id := u.id + 1 } sp' pf = (ok, v) →
      v.Keeps B Q := by
    intro ok v hv
    refine (setProfile_holds (s := { u with id := u.id + 1 }) (hsu.of_schk rfl)
      (fun hno => ?_) hv).1
    have hold' := hpf hno sp' (.inr hold)
    rwa [← Schk.profile_of_core (hcore sp' hne)] at hold'
  split at h
  all_goals
    next v hv =>
    obtain ⟨-, rfl⟩ := Prod.mk.inj h
    exact htwin hv

/-! ### Messages -/

/-- What requests bring. -/
def DnObj.Brings (B : BitVec 32 → Prop) (Q : DnProfile → Prop) (s : Dn) : DnObj → Prop
  | .link p => B p.bandwidth
  | .profile pf => pf.samplesNo ≠ 0 → ∀ sp,
      s.schedNr sp = pf.linkNr ∨ s.schedNr sp = pf.linkNr + dnMaxId →
        Q (pf.copied (pf.under (s.schk sp).profile))
  | _ => True

/-- **An object of a message.** -/
theorem doObject_holds {o : DnObj} (hs : s.Keeps B Q) (hzero : B 0) (ho : o.Brings B Q s)
    (h : doObject s o = some (err, t)) : t.Keeps B Q := by
  cases doObject_handled h with
  | skip _ => exact hs
  | flush hf => exact dummynetFlush_holds hs hzero hf
  | link hl => exact configLink_holds hs ho hl
  | profile hpf => exact configProfile_holds hs ho hpf
  | sch hc => exact configSched_holds hs hzero hc
  | fs hc => exact (configFs_fixed hc).holds hs
  | deleteLink _ _ hu hv => exact deleteSchk_holds (deleteSchk_holds hs hzero hu) hzero hv
  | deleteFs _ hd => exact (deleteFs_fixed hd).holds hs

/-- The states that requests which meet a condition lead to, with packets, the timer and the
parameters. -/
inductive Dn.ReachBy (C : Dn → DnObj → Prop) (parms : DnParms) (schedlist : List SchedType) :
    Dn → Prop
  | init : ReachBy C parms schedlist (Dn.init parms schedlist)
  | env {s : Dn} (e : Env) (log : List Event) : ReachBy C parms schedlist s →
      ReachBy C parms schedlist { s with env := e, log := log }
  | sysctl {s : Dn} (parms' : DnParms) : ReachBy C parms schedlist s →
      ReachBy C parms schedlist { s with parms := parms' }
  | io {s t : Dn} {a : IoArgs} {r : IoResult} : ReachBy C parms schedlist s →
      dummynetIo s a = some (r, t) → ReachBy C parms schedlist t
  | task {s t : Dn} : ReachBy C parms schedlist s → dummynetTask s = some t →
      ReachBy C parms schedlist t
  | object {s t : Dn} {o : DnObj} {err : ℕ} : ReachBy C parms schedlist s → C s o →
      doObject s o = some (err, t) → ReachBy C parms schedlist t

variable {C : Dn → DnObj → Prop} {parms : DnParms} {schedlist : List SchedType}

theorem Dn.ReachBy.reach (h : Dn.ReachBy C parms schedlist s) : Dn.Reach parms schedlist s := by
  induction h with
  | init => exact .init
  | env e log _ ih => exact .env e log ih
  | sysctl parms' _ ih => exact .sysctl parms' ih
  | io _ h ih => exact .io ih h
  | task _ h ih => exact .task ih h
  | object _ _ h ih => exact .object ih h

/-- **What all requests bring holds in every state.** -/
theorem Dn.ReachBy.holds (h : Dn.ReachBy C parms schedlist s) (hzero : B 0)
    (hC : ∀ s o, s.Keeps B Q → C s o → o.Brings B Q s) : s.Keeps B Q := by
  induction h with
  | init => exact ⟨fun _ => hzero, fun _ _ hpf => absurd hpf (by simp [Dn.init])⟩
  | env e log _ ih => exact ih.of_schk rfl
  | sysctl parms' _ ih => exact ih.of_schk rfl
  | io _ h ih => exact (dummynetIo_fixed h).holds ih
  | task _ h ih => exact (dummynetTask_fixed h).holds ih
  | object _ ho h ih => exact doObject_holds ih hzero (hC _ _ ih ho) h

end Dummynet
