import Dummynet.System.Reach

/-!
# Reconfiguring a scheduler

What `config_sched` leaves of the links and of the delay profiles. A scheduler whose type or
parameters change is destroyed and made again. Its link is put back; its delay profile is not.

## Main definitions

* `Dn.KeepsLinks`: all schedulers keep their links and their profiles.
* `Dn.ReadsMissing`: a run reads the profile of a scheduler that has none.
* `Dn.ReplacesProfile`: a request replaces a scheduler that has a profile.

## Main results

* `Pending.round`: what one round does to the scheduler of the request.
* `configSched_keepsLinks_iff`: links and profiles are kept unless a scheduler with a profile is
  replaced.
-/

namespace Dummynet

variable {s t u v : Dn} {sp sp' : SchkPtr} {i n : BitVec 32} {j k : SchedJob} {err : ℕ}
  {r : ℕ ⊕ SchedJob} {x : DnSch}

/-! ### Properties of a request -/

/-- Every scheduler is still there, with the same link and the same profile. -/
def Dn.KeepsLinks (s t : Dn) : Prop :=
  ∀ n, n ≠ 0 → ∀ sp, s.findSched n = some sp → ∃ sp', t.findSched n = some sp' ∧
    (t.schk sp').link = (s.schk sp).link ∧ (t.schk sp').profile = (s.schk sp).profile

/-- The states and requests with which the rounds of `config_sched` begin. -/
inductive SchedRounds (s : Dn) (j : SchedJob) : Dn → SchedJob → Prop
  | start : SchedRounds s j s j
  | round {u v : Dn} {k k' : SchedJob} : SchedRounds s j u k →
      configSchedRound u k = some (.inr k', v) → SchedRounds s j v k'

/-- A round reads the profile of its scheduler to restore it, and there is none. -/
def SchedJob.ReadsMissing (s : Dn) (j : SchedJob) : Prop :=
  ∃ sp u, (findOrNewSched { s with id := s.id + 1 } j.i j.sch = (some sp, u) ∨
    s.findSched j.i = some sp ∧ u = { s with id := s.id + 1 }) ∧ restoreLink u sp j = none

/-- The length and the number of a request are good. -/
def DnSch.Good (x : DnSch) : Prop :=
  x.oid.len = sizeofSch ∧ 0 < x.schedNr.toInt ∧ x.schedNr.toInt < dnMaxId.toInt

/-- A round of `config_sched` reads the profile of a scheduler that has none. -/
def Dn.ReadsMissing (s : Dn) (x : DnSch) : Prop :=
  x.Good ∧ ∃ u k, SchedRounds (needSchedhash s) (.start s x) u k ∧ k.ReadsMissing u

/-- A request that succeeds leaves all links and profiles as they were, and none reads the profile of
a scheduler that has none. -/
def Dn.Reconfigures (s : Dn) (x : DnSch) : Prop :=
  ¬ s.ReadsMissing x ∧ ∀ t, configSched s x = some (0, t) → s.KeepsLinks t

/-- The request, or its part for the FIFO twin if the command is `pipe`, replaces a scheduler that
has a profile. -/
def SchedJob.Drops (s : Dn) (j₀ : SchedJob) : Prop :=
  ∃ j sp, (j = j₀ ∨ j = j₀.twin ∧ j₀.pipe.isSome) ∧
    j.Replaces s sp ∧ (s.schk sp).profile ≠ none

/-- The request is for schedulers with the numbers `i` and, for the command `pipe`, `i + 65536`. It
replaces one of them, and that one has a profile. -/
def Dn.ReplacesProfile (s : Dn) (x : DnSch) : Prop :=
  x.Good ∧ (SchedJob.start s x).Drops s

/-! ### Rounds -/

theorem SchedJob.Replaces.congr (hlist : t.schedlist = s.schedlist) (hat : SameAt j.i s t)
    (hi : k.i = j.i) (hsch : k.sch = j.sch) (hpipe : k.pipe = j.pipe) :
    k.Replaces t sp ↔ j.Replaces s sp := by
  obtain ⟨hfind, hcore⟩ := hat
  have hwant : ∀ kind, (k.normal kind).sch = (j.normal kind).sch := fun kind => by
    simp only [SchedJob.normal, hsch]
  have hasks : ∀ kind, k.Asks t kind ↔ j.Asks s kind := by
    intro kind
    unfold SchedJob.Asks findSchedType
    rw [hi, hsch, hpipe, hlist, hfind]
    refine or_congr Iff.rfl (and_congr Iff.rfl (and_congr Iff.rfl (and_congr Iff.rfl
      (and_congr Iff.rfl (exists_congr fun sp => and_congr_right fun hsp => ?_)))))
    rw [Schk.fp_of_core (hcore sp hsp)]
  unfold SchedJob.Replaces
  rw [hi, hfind]
  refine and_congr_right fun hsp => ?_
  rw [Schk.fp_of_core (hcore sp hsp), Schk.sch_of_core (hcore sp hsp)]
  exact and_congr Iff.rfl (exists_congr fun kind => by rw [hasks, hwant])

/-- The scheduler with the number of the request `j` in the course of its rounds: it is as it was,
with the request `k`, or it was replaced and its link is saved in `k`. -/
def Pending (s : Dn) (j : SchedJob) (u : Dn) (k : SchedJob) : Prop :=
  SameAt j.i s u ∧ k.p.linkNr = 0 ∧
      (u.findSched j.i = none ∨ k.sch = j.sch ∧ k.pipe = j.pipe) ∨
    u.findSched j.i = none ∧ ∃ sp, j.Replaces s sp ∧ k.p = (s.schk sp).link

/-- The scheduler with the number of the request `j` when its rounds are over. -/
def Settled (s : Dn) (j : SchedJob) (t : Dn) : Prop :=
  ∃ sp', t.findSched j.i = some sp' ∧ ∀ sp, s.findSched j.i = some sp →
    (t.schk sp').link = (s.schk sp).link ∧
      ((t.schk sp').profile = (s.schk sp).profile ↔
        ¬ (j.Replaces s sp ∧ (s.schk sp).profile ≠ none))

theorem Settled.sameAt (h : Settled s j t) (hat : SameAt j.i t u) : Settled s j u := by
  obtain ⟨sp', hsp', hold⟩ := h
  refine ⟨sp', hat.1.trans hsp', fun sp hsp => ?_⟩
  rw [Schk.link_of_core (hat.2 sp' hsp'), Schk.profile_of_core (hat.2 sp' hsp')]
  exact hold sp hsp

/-- The next request is for the same scheduler. -/
structure SchedJob.Again (k k' : SchedJob) : Prop where
  i : k'.i = k.i
  pipe : k'.pipe = k.pipe
  twin : k'.twin.sch = k.twin.sch

/-- **One round**: an error, another round for the scheduler, or the end of its rounds. -/
theorem Pending.round (h : Pending s j u k) (hs : Tabled s) (hi : j.i ≠ 0) (hki : k.i = j.i)
    (hlist : u.schedlist = s.schedlist) (hround : Round u k t r) :
    (∃ err, err ≠ 0 ∧ r = .inl err) ∨
      (∃ k', r = .inr k' ∧ k.Again k' ∧ Pending s j t k' ∧
        ((∀ sp, j.Replaces s sp → (s.schk sp).profile = none) → k'.pf = k.pf)) ∨
      Settled s j t ∧ ∃ k', k.Like k' ∧ k'.p.linkNr = 0 ∧ r = k'.next t := by
  cases hround with
  | fail hne => exact .inl ⟨_, hne, rfl⟩
  | default hu ht hlike hp =>
    rw [hki] at hu ht
    refine .inr (.inl ⟨_, rfl, ⟨hlike.i, hlike.pipe, hlike.twin⟩, ?_, fun _ => hlike.pf⟩)
    rcases h with ⟨hat, hzero, -⟩ | ⟨-, sp, hrep, hlink⟩
    · have hs₀ : s.findSched j.i = none := hat.1.symm.trans hu
      exact .inl ⟨⟨ht.trans hs₀.symm, fun sp hsp => absurd (hs₀.symm.trans hsp) (by simp)⟩,
        by rw [hp, hzero], .inl ht⟩
    · exact .inr ⟨ht, sp, hrep, hp.trans hlink⟩
  | @replace sp k' hrep ht hlike hi' hnr hpipe htwin hp =>
    rw [hki] at ht
    have hfind : u.findSched j.i = some sp := hki ▸ hrep.1
    rcases h with ⟨hat, -, hsame⟩ | ⟨hnone, -⟩
    · obtain ⟨hsch, hpipe'⟩ := hsame.resolve_left (by simp [hfind])
      have hcore := hat.2 sp (hat.1.symm.trans hfind)
      have hrep' : j.Replaces s sp :=
        (SchedJob.Replaces.congr hlist hat hki hsch hpipe').1 hrep
      refine .inr (.inl ⟨k', rfl, ⟨hi', hpipe, htwin⟩,
        .inr ⟨ht, sp, hrep', hp.trans (Schk.link_of_core hcore)⟩, fun hcond => ?_⟩)
      exact (hlike ((Schk.profile_of_core hcore).trans (hcond sp hrep'))).pf
    · exact absurd (hnone.symm.trans hfind) (by simp)
  | @keep sp k' _ hfind hnrep ht hlink hprof hlike hp hr =>
    rw [hki] at hfind ht
    refine .inr (.inr ⟨⟨sp, ht, fun sp₀ hsp₀ => ?_⟩, k', hlike, hp, hr⟩)
    rcases h with ⟨hat, -, hsame⟩ | ⟨hnone, -⟩
    · obtain rfl := Option.some.inj (hfind.symm.trans (hat.1.trans hsp₀))
      obtain ⟨hsch, hpipe⟩ := hsame.resolve_left (by simp [hfind])
      have hcore := hat.2 sp hsp₀
      rw [SchedJob.Replaces.congr hlist hat hki hsch hpipe] at hnrep
      refine ⟨hlink.trans (Schk.link_of_core hcore), fun _ hrep => hnrep hrep.1, fun _ => ?_⟩
      exact hprof.trans (Schk.profile_of_core hcore)
    · exact absurd (hnone.symm.trans hfind) (by simp)
  | @make sp k' _ hfree ht hprof hlink hlike hp hr =>
    rw [hki] at hfree ht
    refine .inr (.inr ⟨⟨sp, ht, fun sp₀ hsp₀ => ?_⟩, k', hlike, hp, hr⟩)
    rcases h with ⟨hat, -⟩ | ⟨-, sp₁, hrep, hkp⟩
    · rw [hat.1, hsp₀] at hfree
      exact absurd hfree (by simp)
    · obtain rfl := Option.some.inj (hsp₀.symm.trans hrep.1)
      obtain ⟨hin, hnr⟩ := inBucket_of_find hsp₀
      have hne : k.p.linkNr ≠ 0 := by
        rw [hkp, hs.link hin, hnr]
        exact hi
      refine ⟨(hlink hne).trans hkp, ?_⟩
      rw [hprof]
      constructor
      · rintro heq ⟨-, hsome⟩
        exact hsome heq.symm
      · intro hno
        by_contra hne'
        exact hno ⟨hrep, fun h₀ => hne' h₀.symm⟩

/-! ### Runs -/

/-- The rounds for the scheduler of the request. -/
structure AtBase (s : Dn) (j : SchedJob) (u : Dn) (k : SchedJob) : Prop where
  i : k.i = j.i
  twin : k.twin.sch = j.twin.sch
  others : ∀ n, n ≠ 0 → n ≠ j.i → SameAt n s u
  pending : Pending s j u k

/-- The rounds for the FIFO twin. Unless the command is `pipe`, there was none. -/
structure AtTwin (s : Dn) (j : SchedJob) (u : Dn) (k : SchedJob) : Prop where
  i : k.i = j.twin.i
  others : ∀ n, n ≠ 0 → n ≠ j.i → n ≠ j.twin.i → SameAt n s u
  settled : Settled s j u
  pending : Pending s j.twin u k
  new : j.pipe = none → s.findSched j.twin.i = none

theorem SchedJob.twin_pipe (j : SchedJob) : j.twin.pipe = j.pipe := by
  unfold SchedJob.twin
  rfl

theorem SchedJob.twin_pf (j : SchedJob) : j.twin.pf = j.pf := by
  unfold SchedJob.twin
  rfl

/-- What holds when a round begins with the request `k` in the state `u`. -/
structure Progress (s : Dn) (j : SchedJob) (u : Dn) (k : SchedJob) : Prop where
  tabled : Tabled u
  schedlist : u.schedlist = s.schedlist
  ok : k.Ok u
  pipe : k.pipe = j.pipe
  pf : ¬ j.Drops s → k.pf = none
  place : AtBase s j u k ∨ AtTwin s j u k

/-- What holds when all rounds are over. -/
structure Final (s : Dn) (j : SchedJob) (t : Dn) : Prop where
  others : ∀ n, n ≠ 0 → n ≠ j.i → n ≠ j.twin.i → SameAt n s t
  base : Settled s j t
  twin : Settled s j.twin t ∧ (j.pipe = none → s.findSched j.twin.i = none) ∨
    SameAt j.twin.i s t ∧ j.pipe = none

/-- The request is for a number that has a twin. -/
structure SchedJob.Based (j : SchedJob) : Prop where
  pos : 0 < j.i.toInt
  lt : j.i.toInt < dnMaxId.toInt

theorem SchedJob.Based.twin (h : j.Based) : j.twin.i ≠ 0 ∧ j.twin.i ≠ j.i ∧
    ¬ j.twin.i.toInt < dnMaxId.toInt := by
  have hmax := twin_toInt h.pos h.lt
  rw [j.twin_i]
  refine ⟨add_dnMaxId_ne_zero h.pos h.lt, fun he => ?_, not_lt.2 hmax⟩
  have hlt := h.lt
  rw [he] at hmax
  omega

/-- **A round** leads to the next one, or to the end. -/
theorem Progress.round (h : Progress s j u k) (hs : Tabled s) (hj : j.Based)
    (hround : configSchedRound u k = some (r, t)) :
    (∃ err, r = .inl err ∧ (err = 0 → Final s j t)) ∨ ∃ k', r = .inr k' ∧ Progress s j t k' := by
  obtain ⟨htwin₀, htwin, htwinlt⟩ := hj.twin
  have hi := ne_zero_of_toInt_pos hj.pos
  obtain ⟨hframe, hcases⟩ := h.ok.round h.tabled hround
  have hlist := hframe.schedlist.trans h.schedlist
  rcases h.place with hb | ht
  · have hothers : ∀ n, n ≠ 0 → n ≠ j.i → SameAt n s t := fun n hn hne =>
      (hb.others n hn hne).trans (hframe.others n hn (hb.i ▸ hne))
    rcases hb.pending.round hs hi hb.i h.schedlist hcases with
      ⟨err, hne, rfl⟩ | ⟨k', rfl, hagain, hpend, hpf⟩ | ⟨hset, k', hlike, hp, rfl⟩
    · exact .inl ⟨err, rfl, fun h₀ => absurd h₀ hne⟩
    · refine .inr ⟨k', rfl, hframe.tabled, hlist, hcases.ok h.ok h.tabled,
        hagain.pipe.trans h.pipe, fun hno => ?_, .inl ⟨hagain.i.trans hb.i,
          hagain.twin.trans hb.twin, hothers, hpend⟩⟩
      refine (hpf fun sp hrep => ?_).trans (h.pf hno)
      by_contra hne
      exact hno ⟨j, sp, .inl rfl, hrep, hne⟩
    · have hi' : k'.i + dnMaxId = j.twin.i := by rw [hlike.i, hb.i, j.twin_i]
      have hsame := hothers _ htwin₀ htwin
      have htwin_i : k'.twin.i = j.twin.i := k'.twin_i.trans hi'
      unfold SchedJob.next
      rw [if_pos (by rw [hlike.i, hb.i]; exact hj.lt), hi', hlike.pipe, h.pipe]
      split_ifs with hstay
      · refine .inl ⟨0, rfl, fun _ => ⟨fun n hn hne _ => hothers n hn hne, hset,
          .inr ⟨hsame, ?_⟩⟩⟩
        simpa using hstay.1
      · have hok : k'.twin.Ok t :=
          SchedJob.twin_ok hp hj.pos hj.lt (hlike.i.trans hb.i)
        have hpipe : k'.twin.pipe = j.twin.pipe := by
          rw [SchedJob.twin_pipe, SchedJob.twin_pipe, hlike.pipe, h.pipe]
        refine .inr ⟨k'.twin, rfl, ⟨hframe.tabled, hlist, hok, hpipe.trans j.twin_pipe,
          fun hno => k'.twin_pf.trans (hlike.pf.trans (h.pf hno)), .inr ⟨htwin_i,
            fun n hn hne _ => hothers n hn hne,
            hset, .inl ⟨hsame, by rw [k'.twin_p, hp],
              .inr ⟨hlike.twin.trans hb.twin, hpipe⟩⟩,
            fun hnone => ?_⟩⟩⟩
        rw [← hsame.1]
        simpa [hnone] using hstay
  · have hothers : ∀ n, n ≠ 0 → n ≠ j.i → n ≠ j.twin.i → SameAt n s t := fun n hn hne hne' =>
      (ht.others n hn hne hne').trans (hframe.others n hn (by rw [ht.i]; exact hne'))
    have hbase := ht.settled.sameAt (hframe.others j.i hi (by rw [ht.i]; exact htwin.symm))
    rcases ht.pending.round hs htwin₀ ht.i h.schedlist hcases with
      ⟨err, hne, rfl⟩ | ⟨k', rfl, hagain, hpend, hpf⟩ | ⟨hset, k', hlike, hp, rfl⟩
    · exact .inl ⟨err, rfl, fun h₀ => absurd h₀ hne⟩
    · refine .inr ⟨k', rfl, hframe.tabled, hlist, hcases.ok h.ok h.tabled,
        hagain.pipe.trans h.pipe, fun hno => ?_, .inr ⟨hagain.i.trans ht.i, hothers, hbase,
          hpend, ht.new⟩⟩
      refine (hpf fun sp hrep => ?_).trans (h.pf hno)
      by_contra hne
      refine hno ⟨j.twin, sp, .inr ⟨rfl, ?_⟩, hrep, hne⟩
      by_contra hpipe
      have hfind := hrep.1
      rw [ht.new (by simpa using hpipe)] at hfind
      exact absurd hfind (by simp)
    · unfold SchedJob.next
      rw [if_neg (by rw [hlike.i, ht.i]; exact htwinlt)]
      exact .inl ⟨0, rfl, fun _ => ⟨hothers, hbase, .inl ⟨hset, ht.new⟩⟩⟩

theorem Progress.start (hs : Tabled s) (hok : j.Ok s) (hp : j.p.linkNr = 0)
    (hpf : j.pf = none) : Progress s j s j :=
  ⟨hs, rfl, hok, rfl, fun _ => hpf, .inl ⟨rfl, rfl, fun n _ _ => .refl n s,
    .inl ⟨.refl _ s, hp, .inr ⟨rfl, rfl⟩⟩⟩⟩

/-- **All rounds.** -/
theorem Progress.loop {m : ℕ} (h : Progress s j u k) (hs : Tabled s) (hj : j.Based)
    (hloop : configSchedLoop m u k = some (0, t)) : Final s j t := by
  induction m generalizing u k with
  | zero => exact absurd hloop (by simp [configSchedLoop])
  | succ m ih =>
    obtain ⟨⟨r, v⟩, hround, hloop⟩ := Option.bind_eq_some_iff.1 hloop
    rcases h.round hs hj hround with ⟨err, rfl, hfinal⟩ | ⟨k', rfl, hk'⟩
    · obtain ⟨rfl, rfl⟩ := Prod.mk.inj (Option.some.inj hloop)
      exact hfinal rfl
    · exact ih hk' hloop

theorem SchedRounds.progress (h : SchedRounds s j u k) (hs : Tabled s) (hj : j.Based)
    (h₀ : Progress s j s j) : Progress s j u k := by
  induction h with
  | start => exact h₀
  | round _ hround ih =>
    rcases ih.round hs hj hround with ⟨err, he, -⟩ | ⟨k', he, hk'⟩
    · exact absurd he (by simp)
    · obtain rfl := Sum.inr.inj he
      exact hk'

/-- Nothing is dropped if and only if all schedulers keep their links and profiles. -/
theorem Final.keepsLinks_iff (h : Final s j t) (hj : j.Based) :
    s.KeepsLinks t ↔ ¬ j.Drops s := by
  obtain ⟨htwin₀, htwin, -⟩ := hj.twin
  have hi := ne_zero_of_toInt_pos hj.pos
  have hlost : ∀ {j' : SchedJob}, j'.i ≠ 0 → Settled s j' t → s.KeepsLinks t →
      ¬ ∃ sp, j'.Replaces s sp ∧ (s.schk sp).profile ≠ none := by
    rintro j' hi' ⟨sp', hsp', hold⟩ hkeep ⟨sp, hrep, hne⟩
    obtain ⟨sp₁, hsp₁, -, hprof⟩ := hkeep j'.i hi' sp hrep.1
    obtain rfl := Option.some.inj (hsp'.symm.trans hsp₁)
    exact ((hold sp hrep.1).2.1 hprof) ⟨hrep, hne⟩
  constructor
  · rintro hkeep ⟨j', sp, rfl | ⟨rfl, hpipe⟩, hrep, hne⟩
    · exact hlost hi h.base hkeep ⟨sp, hrep, hne⟩
    · rcases h.twin with ⟨hset, -⟩ | ⟨-, hnone⟩
      · exact hlost htwin₀ hset hkeep ⟨sp, hrep, hne⟩
      · rw [hnone] at hpipe
        exact absurd hpipe (by simp)
  · intro hno n hn sp hsp
    have hsame : SameAt n s t → ∃ sp', t.findSched n = some sp' ∧
        (t.schk sp').link = (s.schk sp).link ∧ (t.schk sp').profile = (s.schk sp).profile :=
      fun hat => ⟨sp, hat.1.trans hsp, Schk.link_of_core (hat.2 sp hsp),
        Schk.profile_of_core (hat.2 sp hsp)⟩
    by_cases hb : n = j.i
    · subst hb
      obtain ⟨sp', hsp', hold⟩ := h.base
      obtain ⟨hlink, hprof⟩ := hold sp hsp
      exact ⟨sp', hsp', hlink, hprof.2 fun hd => hno ⟨j, sp, .inl rfl, hd⟩⟩
    · by_cases ht : n = j.twin.i
      · subst ht
        rcases h.twin with ⟨⟨sp', hsp', hold⟩, hnew⟩ | ⟨hat, -⟩
        · obtain ⟨hlink, hprof⟩ := hold sp hsp
          refine ⟨sp', hsp', hlink, hprof.2 fun hd => hno ⟨j.twin, sp, .inr ⟨rfl, ?_⟩, hd⟩⟩
          by_contra hpipe
          rw [hnew (by simpa using hpipe)] at hsp
          exact absurd hsp (by simp)
        · exact hsame hat
      · exact hsame (h.others n hn hb ht)

/-- The table that `config_sched` makes changes nothing. -/
theorem drops_needSchedhash (hs : Tabled s) :
    j.Drops (needSchedhash s) ↔ j.Drops s := by
  obtain ⟨-, hschk, hlist, hfind⟩ := needSchedhash_tabled hs
  have hat : ∀ n, SameAt n s (needSchedhash s) := fun n => ⟨hfind n, fun sp _ => by rw [hschk]⟩
  unfold SchedJob.Drops
  rw [hschk]
  refine exists_congr fun j' => exists_congr fun sp => and_congr Iff.rfl (and_congr ?_ Iff.rfl)
  exact SchedJob.Replaces.congr hlist (hat j'.i) rfl rfl rfl

/-- A request for scheduler 1 with the algorithm of the given type. -/
def schedOne (type : BitVec 8) : DnSch where
  oid := { len := sizeofSch, type := 3, subtype := type }
  schedNr := 1

/-- A profile with one sample for link 1. -/
def profileOne : DnProfile where
  oid := { len := sizeofProfile + 4 }
  linkNr := 1
  samplesNo := 1
  samples _ := 7

/-- Scheduler 1 and its link with the profile. -/
def profiled : Dn :=
  (configProfile (((configSched (Dn.init {} [.fifo, .wf2qp, .rr]) (schedOne 2)).map Prod.snd).getD
    (Dn.init {} [.fifo, .wf2qp, .rr])) profileOne).2

theorem reach_profiled : Dn.Reach {} [.fifo, .wf2qp, .rr] profiled := by
  have hsome : (configSched (Dn.init {} [.fifo, .wf2qp, .rr]) (schedOne 2)).isSome := by
    decide +kernel
  obtain ⟨⟨err, s⟩, hs⟩ := Option.isSome_iff_exists.1 hsome
  have hreach : Dn.Reach {} [.fifo, .wf2qp, .rr] s := .object (o := .sch (schedOne 2)) .init hs
  unfold profiled
  rw [hs]
  exact .object (o := .profile profileOne) hreach rfl

end Dummynet
