import Dummynet.System.Table
import Dummynet.System.Commands

/-!
# One round of `config_sched`

What a round does to the scheduler with the number of the request, and that the schedulers with
other numbers stay as they are.

## Main definitions

* `SchedJob.Replaces`: the request replaces a scheduler.
* `Round`: how a round ends.

## Main results

* `configSchedRound_spec`: every round ends in one of these ways.
-/

namespace Dummynet

variable {s t u v w : Dn} {sp sp' : SchkPtr} {i n : BitVec 32} {kind : SchedType}
  {j j' : SchedJob} {r : ℕ ⊕ SchedJob}

/-! ### Requests -/

/-- The request asks for the algorithm `kind`, by its type or its name, or because it has neither
and the scheduler exists. -/
def SchedJob.Asks (s : Dn) (j : SchedJob) (kind : SchedType) : Prop :=
  findSchedType s j.sch.oid.subtype j.sch.name = some kind ∨
    findSchedType s j.sch.oid.subtype j.sch.name = none ∧ j.sch.oid.subtype = 0 ∧
      j.sch.name = [] ∧ j.pipe = none ∧
      ∃ sp, s.findSched j.i = some sp ∧ (s.schk sp).fp = some kind

/-- The request replaces the scheduler `sp`: its type or its parameters are different. -/
def SchedJob.Replaces (s : Dn) (j : SchedJob) (sp : SchkPtr) : Prop :=
  s.findSched j.i = some sp ∧ (s.schk sp).fp.isSome ∧
    ∃ kind, j.Asks s kind ∧
      ((s.schk sp).fp ≠ some kind ∨ (s.schk sp).sch ≠ (j.normal kind).sch)

/-- The requests differ in the type, and in what the FIFO twin overwrites. -/
structure SchedJob.Like (j j' : SchedJob) : Prop where
  i : j'.i = j.i
  nr : j'.sch.schedNr = j.sch.schedNr
  pf : j'.pf = j.pf
  pipe : j'.pipe = j.pipe
  twin : j'.twin.sch = j.twin.sch

theorem SchedJob.Like.refl (j : SchedJob) : j.Like j := ⟨rfl, rfl, rfl, rfl, rfl⟩

theorem SchedJob.Like.trans {k : SchedJob} (h : j.Like j') (h' : j'.Like k) : j.Like k :=
  ⟨h'.i.trans h.i, h'.nr.trans h.nr, h'.pf.trans h.pf, h'.pipe.trans h.pipe, h'.twin.trans h.twin⟩

theorem SchedJob.like_normal (j : SchedJob) (kind : SchedType) : j.Like (j.normal kind) := by
  refine ⟨rfl, rfl, rfl, rfl, ?_⟩
  obtain ⟨i, sch, p, pf, pipe⟩ := j
  cases pipe <;> rfl

/-- Only one kind of algorithm is asked for. -/
theorem SchedJob.Asks.unique {kind' : SchedType} (h : j.Asks s kind) (h' : j.Asks s kind') :
    kind' = kind := by
  rcases h with h | ⟨h, -, -, -, sp, hsp, hfp⟩ <;> rcases h' with h' | ⟨h', -, -, -, sp', hsp', hfp'⟩
  · exact Option.some.inj (h'.symm.trans h)
  · exact absurd (h.symm.trans h') (by simp)
  · exact absurd (h'.symm.trans h) (by simp)
  · obtain rfl := Option.some.inj (hsp.symm.trans hsp')
    exact Option.some.inj (hfp'.symm.trans hfp)

/-- How a round ends: with an error; with the default type; with a scheduler that is replaced; with
one that stays; and with a new one. -/
inductive Round (s : Dn) (j : SchedJob) (t : Dn) : ℕ ⊕ SchedJob → Prop
  | fail {err : ℕ} : err ≠ 0 → Round s j t (.inl err)
  | default {j' : SchedJob} : s.findSched j.i = none → t.findSched j.i = none → j.Like j' →
      j'.p = j.p → Round s j t (.inr j')
  | replace {sp : SchkPtr} {j' : SchedJob} : j.Replaces s sp → t.findSched j.i = none →
      ((s.schk sp).profile = none → j.Like j') → j'.i = j.i → j'.sch.schedNr = j.sch.schedNr →
      j'.pipe = j.pipe → j'.twin.sch = j.twin.sch → j'.p = (s.schk sp).link →
      Round s j t (.inr j')
  | keep {sp : SchkPtr} {j' : SchedJob} {r : ℕ ⊕ SchedJob} : s.findSched j.i = some sp →
      ¬ j.Replaces s sp → t.findSched j.i = some sp →
      (t.schk sp).link = (s.schk sp).link → (t.schk sp).profile = (s.schk sp).profile →
      j.Like j' → j'.p.linkNr = 0 → r = j'.next t → Round s j t r
  | make {sp : SchkPtr} {j' : SchedJob} {r : ℕ ⊕ SchedJob} : s.findSched j.i = none →
      t.findSched j.i = some sp → (t.schk sp).profile = none →
      (j.p.linkNr ≠ 0 → (t.schk sp).link = j.p) → j.Like j' → j'.p.linkNr = 0 → r = j'.next t →
      Round s j t r

/-! ### The parts of a round -/

/-- **The internal flowset.** On failure the scheduler is freed, and stays in the table. -/
theorem internalFs_wrote {ok : Bool} (h : internalFs s sp kind i = some (ok, t)) :
    Wrote sp s t ∧ (ok = true ∧ (t.schk sp).core = (s.schk sp).core ∨
      ok = false ∧ (t.schk sp).core = ({} : Schk).core) := by
  have hset : ∀ (u : Dn) (o : Option FskPtr), Fixed u (u.setSchk sp { u.schk sp with fs := o }) :=
    fun u o => fixed_setSchk rfl
  unfold internalFs at h
  split_ifs at h
  · obtain ⟨rfl, rfl⟩ := Prod.mk.inj (Option.some.inj h)
    exact ⟨.refl sp s, .inl ⟨rfl, rfl⟩⟩
  · split at h
    · obtain ⟨rfl, rfl⟩ := Prod.mk.inj (Option.some.inj h)
      exact ⟨(hset s _).wrote sp, .inl ⟨rfl, (hset s _).core sp⟩⟩
    · obtain ⟨⟨o, u⟩, hconf, h⟩ := Option.bind_eq_some_iff.1 h
      have hsu := (configFs_fixed hconf).trans (hset u o)
      dsimp only at h
      split_ifs at h
      · obtain ⟨rfl, rfl⟩ := Prod.mk.inj (Option.some.inj h)
        exact ⟨hsu.wrote sp, .inl ⟨rfl, hsu.core sp⟩⟩
      · obtain ⟨v, hdel, h⟩ := Option.bind_eq_some_iff.1 h
        obtain ⟨rfl, rfl⟩ := Prod.mk.inj (Option.some.inj h)
        obtain ⟨hw, hfree⟩ := schkDeleteCb_wrote hdel
        exact ⟨(hsu.wrote sp).trans hw, .inr ⟨rfl, hfree⟩⟩

theorem saveProfile_spec (s : Dn) (sp : SchkPtr) (pf : Option DnProfile) :
    Fixed s (saveProfile s sp pf).2 ∧
      ((s.schk sp).profile = none → (saveProfile s sp pf).1 = pf) := by
  unfold saveProfile
  split
  · exact ⟨.refl s, fun _ => rfl⟩
  · next pr hpr =>
    split
    · exact ⟨.refl s, fun h => absurd (hpr.symm.trans h) (by simp)⟩
    · exact ⟨fixed_malloc s, fun h => absurd (hpr.symm.trans h) (by simp)⟩

/-- The scheduler is written, and keeps its number. -/
theorem Wrote.found (h : Wrote sp s t) (hs : Tabled s) (hi : i ≠ 0)
    (hfind : s.findSched i = some sp) (hnr : t.schedNr sp = i)
    (hlink : (t.schk sp).link.linkNr = i) :
    Tabled t ∧ t.findSched i = some sp ∧ ∀ n, n ≠ 0 → n ≠ i → SameAt n s t := by
  obtain ⟨hin, hold⟩ := inBucket_of_find hfind
  have ht := h.tabled hs (.inl (hnr.trans hold.symm)) (hlink.trans hnr.symm)
  exact ⟨ht, (ht.findSched_iff hi).2 ⟨h.inBucket.2 hin, hnr⟩, fun n hn hne =>
    h.sameAt hs ht hn (fun he => hne (he.symm.trans hold)) fun he => hne (he.symm.trans hnr)⟩

/-- The scheduler is freed, and stays in the table. -/
theorem Wrote.lost (h : Wrote sp s t) (hs : Tabled s) (hfind : s.findSched i = some sp)
    (hfree : (t.schk sp).core = ({} : Schk).core) :
    Tabled t ∧ ∀ n, n ≠ 0 → n ≠ i → SameAt n s t := by
  obtain ⟨-, hold⟩ := inBucket_of_find hfind
  have hnr : t.schedNr sp = 0 := congrArg DnSch.schedNr (Schk.sch_of_core hfree)
  have ht := h.tabled hs (.inr hnr) (by rw [Schk.link_of_core hfree, hnr])
  exact ⟨ht, fun n hn hne => h.sameAt hs ht hn (fun he => hne (he.symm.trans hold))
    fun he => hn (he.symm.trans hnr)⟩

/-- A scheduler that the round has found or made: the table is in order, and the other numbers are
as they were. -/
structure Framed (i : BitVec 32) (s t : Dn) : Prop where
  tabled : Tabled t
  schedlist : t.schedlist = s.schedlist
  others : ∀ n, n ≠ 0 → n ≠ i → SameAt n s t

theorem Framed.trans (h : Framed i s t) (h' : Framed i t u) : Framed i s u :=
  ⟨h'.tabled, h'.schedlist.trans h.schedlist, fun n hn hne =>
    (h.others n hn hne).trans (h'.others n hn hne)⟩

theorem Fixed.framed (h : Fixed s t) (hs : Tabled s) (i : BitVec 32) : Framed i s t :=
  ⟨h.tabled hs, h.schedlist, fun n _ _ => h.sameAt n⟩

/-- The part of `config_sched` that completes a scheduler. -/
theorem completeSched_spec (hs : Tabled s) (hi : j.i ≠ 0) (hfind : s.findSched j.i = some sp)
    (hnr : j.sch.schedNr = j.i)
    (h : (do
      let s := s.setSchk sp { s.schk sp with sch := j.sch, fp := some kind }
      let (ok, s) ← internalFs s sp kind j.i
      if !ok then pure (.inl enomem, s)
      else do
        let s ← updateFs s sp
        pure (j.next s, s)) = some (r, t)) :
    Framed j.i s t ∧ (r = .inl enomem ∨ t.findSched j.i = some sp ∧
      (t.schk sp).link = (s.schk sp).link ∧ (t.schk sp).profile = (s.schk sp).profile ∧
      r = j.next t) := by
  obtain ⟨⟨ok, u⟩, hu, h⟩ := Option.bind_eq_some_iff.1 h
  obtain ⟨hwrote, hcases⟩ := internalFs_wrote hu
  set s₁ := s.setSchk sp { s.schk sp with sch := j.sch, fp := some kind } with hs₁
  have hself : s₁.schk sp = { s.schk sp with sch := j.sch, fp := some kind } :=
    Function.update_self ..
  have hsu := (wrote_setSchk s sp _).trans hwrote
  have hlink : (s.schk sp).link.linkNr = j.i := by
    obtain ⟨hin, hold⟩ := inBucket_of_find hfind
    rw [hs.link hin, hold]
  rcases hcases with ⟨rfl, hcore⟩ | ⟨rfl, hfree⟩
  · simp only [Bool.not_true, Bool.false_eq_true, if_false] at h
    obtain ⟨v, hv, h⟩ := Option.bind_eq_some_iff.1 h
    obtain ⟨rfl, rfl⟩ := Prod.mk.inj (Option.some.inj h)
    have hfix := updateFs_fixed hv
    have hsv := hsu.trans (hfix.wrote sp)
    have hcore' : (v.schk sp).core =
        ({ s.schk sp with sch := j.sch, fp := some kind } : Schk).core := by
      rw [hfix.core, hcore, hself]
    have hl : (v.schk sp).link = (s.schk sp).link := (Schk.link_of_core hcore' :)
    have hn : v.schedNr sp = j.i :=
      (congrArg DnSch.schedNr (Schk.sch_of_core hcore')).trans hnr
    obtain ⟨htab, hfound, hothers⟩ := hsv.found hs hi hfind hn (by rw [hl, hlink])
    exact ⟨⟨htab, hsv.schedlist, hothers⟩, .inr ⟨hfound, hl,
      (Schk.profile_of_core hcore' :), rfl⟩⟩
  · simp only [Bool.not_false, if_true] at h
    obtain ⟨rfl, rfl⟩ := Prod.mk.inj (Option.some.inj h)
    obtain ⟨htab, hothers⟩ := hsu.lost hs hfind hfree
    exact ⟨⟨htab, hsu.schedlist, hothers⟩, .inl rfl⟩

/-- **`config_sched`** from the lookup of the scheduler on. -/
theorem configSchedAt_spec (hs : Tabled s) (hi : j.i ≠ 0) (hfind : s.findSched j.i = some sp)
    (hnr : j.sch.schedNr = j.i)
    (hp : j.p.linkNr = 0 ∨ j.p.linkNr = j.i ∧ (s.schk sp).fp = none)
    (h : configSchedAt s sp kind j = some (r, t)) :
    Framed j.i s t ∧ (r = .inl enomem ∨
      ((s.schk sp).fp.isSome ∧ ((s.schk sp).fp ≠ some kind ∨ (s.schk sp).sch ≠ j.sch) ∧
        t.findSched j.i = none ∧ ∃ pf, ((s.schk sp).profile = none → pf = j.pf) ∧
          r = .inr { j with p := (s.schk sp).link, pf := pf }) ∨
      (¬ ((s.schk sp).fp.isSome ∧ ((s.schk sp).fp ≠ some kind ∨ (s.schk sp).sch ≠ j.sch)) ∧
        t.findSched j.i = some sp ∧
        (t.schk sp).link = (if j.p.linkNr = 0 then (s.schk sp).link else j.p) ∧
        (t.schk sp).profile = (if j.p.linkNr = 0 then (s.schk sp).profile else none) ∧
        r = ({ j with p := { j.p with linkNr := 0 } } : SchedJob).next t)) := by
  obtain ⟨u, hu, h⟩ := Option.bind_eq_some_iff.1 h
  have hsu : Framed j.i s u ∧ u.findSched j.i = some sp ∧
      (u.schk sp).fp = (s.schk sp).fp ∧ (u.schk sp).sch = (s.schk sp).sch ∧
      (u.schk sp).link = (if j.p.linkNr = 0 then (s.schk sp).link else j.p) ∧
      (u.schk sp).profile = (if j.p.linkNr = 0 then (s.schk sp).profile else none) := by
    unfold restoreLink at hu
    split_ifs at hu with hzero
    · obtain rfl := Option.some.inj hu
      rw [if_pos hzero, if_pos hzero]
      exact ⟨(Fixed.refl s).framed hs j.i, hfind, rfl, rfl, rfl, rfl⟩
    · obtain rfl := Option.some.inj hu
      have hself : (s.setSchk sp { s.schk sp with link := j.p, profile := none }).schk sp =
          { s.schk sp with link := j.p, profile := none } := Function.update_self ..
      have hw := wrote_setSchk s sp { s.schk sp with link := j.p, profile := none }
      have hold := (inBucket_of_find hfind).2
      obtain ⟨htab, hfound, hothers⟩ := hw.found hs hi hfind
        ((congrArg (fun x : Schk => x.sch.schedNr) hself).trans hold)
        ((congrArg (fun x : Schk => x.link.linkNr) hself).trans (hp.resolve_left hzero).1)
      rw [if_neg hzero, if_neg hzero]
      exact ⟨⟨htab, hw.schedlist, hothers⟩, hfound, by rw [hself], by rw [hself], by rw [hself],
        by rw [hself]⟩
  obtain ⟨hframe, hfound, hfp, hsch, hlink, hprof⟩ := hsu
  dsimp only at h
  split_ifs at h with hrep
  · obtain ⟨w, hw, h⟩ := Option.bind_eq_some_iff.1 h
    obtain ⟨rfl, rfl⟩ := Prod.mk.inj (Option.some.inj h)
    obtain ⟨hsave, hpf⟩ := saveProfile_spec u sp j.pf
    have hzero : j.p.linkNr = 0 := hp.resolve_right fun hp' => by
      rw [hfp, hp'.2] at hrep
      exact absurd hrep.1 (by simp)
    rw [hzero] at hlink hprof
    simp only [if_true] at hlink hprof
    set v := (saveProfile u sp j.pf).2
    have hfv := hframe.trans (hsave.framed hframe.tabled j.i)
    have hfound' : v.findSched j.i = some sp := (hsave.sameAt j.i).1.trans hfound
    have hrem := (removed_map v sp).wrote (schkDeleteCb_wrote hw).1
    obtain ⟨hnone, hothers⟩ := hrem.findSched hfv.tabled hi hfound'
    rw [hfp, hsch] at hrep
    refine ⟨hfv.trans ⟨hrem.tabled hfv.tabled, hrem.schedlist, hothers⟩,
      .inr (.inl ⟨hrep.1, hrep.2, hnone, _, fun hp => hpf (hprof.trans hp), ?_⟩)⟩
    rw [hlink]
  · obtain ⟨hframe', hcases⟩ := completeSched_spec (j := { j with
      p := { j.p with linkNr := 0 } }) hframe.tabled hi hfound hnr h
    rw [hfp, hsch] at hrep
    refine ⟨hframe.trans hframe', hcases.imp id fun ⟨hf, hl, hpr, hr⟩ => .inr
      ⟨hrep, hf, hl.trans hlink, hpr.trans hprof, hr⟩⟩

/-! ### A round -/

/-- A round with a scheduler that exists. -/
theorem round_existing (hsu : Fixed s u) (hs : Tabled s) (hi : j.i ≠ 0)
    (hfind : s.findSched j.i = some sp) (hnr : j.sch.schedNr = j.i) (hp : j.p.linkNr = 0)
    (hasks : j.Asks s kind) (h : configSchedAt u sp kind (j.normal kind) = some (r, t)) :
    Framed j.i s t ∧ Round s j t r := by
  have hlike := j.like_normal kind
  have hdone : j.Like { j.normal kind with p := { j.p with linkNr := 0 } } :=
    ⟨rfl, rfl, rfl, rfl, hlike.twin⟩
  have hcore := hsu.core sp
  have hfind' : u.findSched j.i = some sp := (hsu.sameAt j.i).1.trans hfind
  obtain ⟨hframe, hcases⟩ :=
    configSchedAt_spec (j := j.normal kind) (hsu.tabled hs) hi hfind' hnr (.inl hp) h
  rw [Schk.fp_of_core hcore, Schk.sch_of_core hcore, Schk.link_of_core hcore,
    Schk.profile_of_core hcore] at hcases
  refine ⟨(hsu.framed hs j.i).trans hframe, ?_⟩
  rcases hcases with rfl | ⟨hsome, hdiff, hnone, pf, hpf, rfl⟩ | ⟨hsame, hfound, hlink, hprof, rfl⟩
  · exact .fail (by decide)
  · exact .replace ⟨hfind, hsome, kind, hasks, hdiff⟩ hnone
      (fun hprof => ⟨rfl, rfl, hpf hprof, rfl, hlike.twin⟩) rfl rfl rfl hlike.twin rfl
  · have hp' : (j.normal kind).p.linkNr = 0 := hp
    rw [if_pos hp'] at hlink hprof
    refine .keep hfind (fun hrep => ?_) hfound hlink hprof hdone rfl rfl
    obtain ⟨-, hsome, kind', hasks', hdiff⟩ := hrep
    obtain rfl := hasks.unique hasks'
    exact hsame ⟨hsome, hdiff⟩

/-- A round with a scheduler that is new. -/
theorem round_new (hsu : Fixed s u) (hs : Tabled s) (hadd : Added j.i sp u v) (hi : j.i ≠ 0)
    (hnr : j.sch.schedNr = j.i) (hp : j.p.linkNr = 0 ∨ j.p.linkNr = j.i)
    (h : configSchedAt v sp kind (j.normal kind) = some (r, t)) :
    Framed j.i s t ∧ Round s j t r := by
  have hu := hsu.tabled hs
  have hdone : j.Like { j.normal kind with p := { j.p with linkNr := 0 } } :=
    ⟨rfl, rfl, rfl, rfl, (j.like_normal kind).twin⟩
  obtain ⟨hfind, hothers⟩ := hadd.findSched hu hi
  have huv : Framed j.i u v := ⟨hadd.tabled hu, hadd.schedlist, hothers⟩
  have hfree : s.findSched j.i = none := (hsu.sameAt j.i).1.symm.trans hadd.free
  obtain ⟨hframe, hcases⟩ := configSchedAt_spec (j := j.normal kind) huv.tabled hi hfind hnr
    (hp.imp id fun hp => ⟨hp, hadd.fp⟩) h
  refine ⟨(hsu.framed hs j.i).trans (huv.trans hframe), ?_⟩
  rcases hcases with rfl | ⟨hsome, -⟩ | ⟨-, hfound, hlink, hprof, rfl⟩
  · exact .fail (by decide)
  · rw [hadd.fp] at hsome
    exact absurd hsome (by simp)
  · refine .make hfree hfound ?_ (fun hne => ?_) hdone rfl rfl
    · rw [hprof]
      split_ifs
      · exact hadd.profile
      · rfl
    · have hne' : (j.normal kind).p.linkNr ≠ 0 := hne
      rw [hlink, if_neg hne']
      rfl

/-- **One round of `config_sched`.** -/
theorem configSchedRound_spec (hs : Tabled s) (hi : j.i ≠ 0) (hnr : j.sch.schedNr = j.i)
    (hp : j.p.linkNr = 0 ∨ j.p.linkNr = j.i ∧ s.findSched j.i = none)
    (h : configSchedRound s j = some (r, t)) : Framed j.i s t ∧ Round s j t r := by
  have hzero : ∀ {sp}, s.findSched j.i = some sp → j.p.linkNr = 0 := fun hfind =>
    hp.resolve_right fun hp => by
      rw [hp.2] at hfind
      exact absurd hfind (by simp)
  have hsu : Fixed s s.nextId := .of_eq rfl
  have hfu := hsu.framed hs j.i
  cases configSchedRound_cases h with
  | noMemory _ hv =>
    rcases findOrNewSched_cases hnr hv with ⟨-, huv⟩ | ⟨sp, he, -⟩
    · exact ⟨hfu.trans (huv.framed hfu.tabled j.i), .fail (by decide)⟩
    · exact absurd he (by simp)
  | known hkind hv hat =>
    rcases findOrNewSched_cases hnr hv with ⟨he, -⟩ | ⟨sp, he, hcases⟩
    · exact absurd he (by simp)
    · obtain rfl := Option.some.inj he
      rcases hcases with ⟨hfind, rfl⟩ | ⟨hadd, -⟩
      · exact round_existing hsu hs hi hfind hnr (hzero hfind) (.inl hkind) hat
      · exact round_new hsu hs hadd hi hnr (hp.imp id And.left) hat
  | pipe hkind hfind hpipe =>
    refine ⟨hfu, .keep hfind (fun hrep => ?_) hfind rfl rfl (.refl j) (hzero hfind) rfl⟩
    obtain ⟨-, -, kind, hasks | ⟨-, -, -, hnone, -⟩, -⟩ := hrep
    · exact absurd (hkind.symm.trans hasks) (by simp)
    · rw [hnone] at hpipe
      exact absurd hpipe (by simp)
  | old hkind hempty hfind hpipe hfp hat =>
    exact round_existing hsu hs hi hfind hnr (hzero hfind)
      (.inr ⟨hkind, hempty.1, hempty.2, hpipe, _, hfind, hfp⟩) hat
  | default _ hfree =>
    refine ⟨hfu, .default hfree hfree ⟨rfl, ?_, rfl, rfl, ?_⟩ rfl⟩
    · unfold SchedJob.wf2q
      dsimp only
      split_ifs <;> rfl
    · obtain ⟨i, sch, p, pf, pipe⟩ := j
      cases pipe <;> rfl
  | unknown _ => exact ⟨hfu, .fail (by decide)⟩

end Dummynet
