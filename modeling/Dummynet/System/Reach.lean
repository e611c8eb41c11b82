import Dummynet.System.Round

/-!
# Reachable states

The states that packets, the timer, the parameters and the objects of configuration messages lead
to, whatever the environment provides.

## Main definitions

* `Dn.Reach`: the reachable states.

## Main results

* `configSchedLoop_tabled`, `doObject_tabled`: objects of messages keep the table of the schedulers
  in order.
* `Dn.Reach.tabled`: it is in order in every reachable state.
-/

namespace Dummynet

variable {s t u v w : Dn} {sp sp' : SchkPtr} {i n : BitVec 32} {j k : SchedJob} {err : ℕ}

/-! ### Links and profiles -/

theorem schkResetCredit_fixed (s : Dn) (sp : SchkPtr) : Fixed s (schkResetCredit s sp) := by
  suffices h : ∀ (l : List SiPtr) (s : Dn), Fixed s (l.foldl siResetCredit s) from h _ s
  intro l
  induction l with
  | nil => exact .refl
  | cons p ps ih => exact fun s => Fixed.after (ih (siResetCredit s p)) rfl

/-- The link that is set has the values of the request. -/
def DnLink.at (p : DnLink) (i : BitVec 32) : DnLink :=
  { oid := p.oid, linkNr := i, bandwidth := p.bandwidth, delay := p.delay, burst := p.burst }

theorem setLink_wrote {p : DnLink} (h : setLink s sp i p = some t) :
    Wrote sp s t ∧ (t.schk sp).sch = (s.schk sp).sch ∧ (t.schk sp).link = p.at i ∧
      (t.schk sp).profile = none := by
  have hend : ∀ {u v : Dn}, Wrote sp s u → (u.schk sp).sch = (s.schk sp).sch →
      { (u.schk sp).link with burst := p.burst } = p.at i → (u.schk sp).profile = none →
      Fixed u v →
      schkResetCredit (v.setSchk sp { v.schk sp with
        link := { (v.schk sp).link with burst := p.burst } }) sp = t →
      Wrote sp s t ∧ (t.schk sp).sch = (s.schk sp).sch ∧ (t.schk sp).link = p.at i ∧
        (t.schk sp).profile = none := by
    rintro u v hw hsch hlink hprof hfix rfl
    set w := v.setSchk sp { v.schk sp with
      link := { (v.schk sp).link with burst := p.burst } }
    have hself : w.schk sp = { v.schk sp with
        link := { (v.schk sp).link with burst := p.burst } } := Function.update_self ..
    have hcore := (schkResetCredit_fixed w sp).core sp
    refine ⟨hw.trans ((hfix.wrote sp).trans ((wrote_setSchk v sp _).trans
      ((schkResetCredit_fixed w sp).wrote sp))), ?_, ?_, ?_⟩
    · rw [Schk.sch_of_core hcore, hself, ← hsch]
      exact (Schk.sch_of_core (hfix.core sp) :)
    · rw [Schk.link_of_core hcore, hself, ← hlink]
      exact congrArg (fun l : DnLink => { l with burst := p.burst })
        (Schk.link_of_core (hfix.core sp))
    · rw [Schk.profile_of_core hcore, hself, ← hprof]
      exact (Schk.profile_of_core (hfix.core sp) :)
  unfold setLink at h
  dsimp only at h
  set u := s.setSchk sp { s.schk sp with
    profile := none
    link := { (s.schk sp).link with
      oid := p.oid, linkNr := i, delay := p.delay, bandwidth := p.bandwidth } } with hu
  have hself : u.schk sp = { s.schk sp with
      profile := none
      link := { (s.schk sp).link with
        oid := p.oid, linkNr := i, delay := p.delay, bandwidth := p.bandwidth } } :=
    Function.update_self ..
  have hprof : (u.schk sp).profile = none := by rw [hself]
  split_ifs at h
  · obtain ⟨v, hv, h⟩ := Option.bind_eq_some_iff.1 h
    exact hend (wrote_setSchk s sp _) (by rw [hself]) (by rw [hself]; rfl) hprof
      (updateRed_fixed hv) (Option.some.inj h)
  · exact hend (wrote_setSchk s sp _) (by rw [hself]) (by rw [hself]; rfl) hprof (.refl u)
      (Option.some.inj h)

/-- **`config_link`**. -/
theorem configLink_tabled {p : DnLink} (hs : Tabled s) (h : configLink s p = some (err, t)) :
    Tabled t := by
  unfold configLink at h
  dsimp only at h
  split at h
  · obtain ⟨-, rfl⟩ := Prod.mk.inj (Option.some.inj h)
    exact hs
  next hbad =>
  rw [not_or, not_or, not_le, not_le] at hbad
  obtain ⟨-, hpos, hlt⟩ := hbad
  split at h
  · obtain ⟨-, rfl⟩ := Prod.mk.inj (Option.some.inj h)
    exact hs
  next sp hfind =>
  obtain ⟨u, hu, h⟩ := Option.bind_eq_some_iff.1 h
  obtain ⟨hw, hsch, hnr, -⟩ := setLink_wrote hu
  have hu' := (hw.found hs (ne_zero_of_toInt_pos hpos) hfind
    ((congrArg DnSch.schedNr hsch).trans (inBucket_of_find hfind).2)
    (by rw [hnr]; rfl)).1
  split at h
  · obtain ⟨-, rfl⟩ := Prod.mk.inj (Option.some.inj h)
    exact hu'
  next sp' hfind' =>
  obtain ⟨v, hv, h⟩ := Option.bind_eq_some_iff.1 h
  obtain ⟨-, rfl⟩ := Prod.mk.inj (Option.some.inj h)
  obtain ⟨hw', hsch', hnr', -⟩ := setLink_wrote hv
  have hv' := (hw'.found hu' (add_dnMaxId_ne_zero hpos hlt) hfind'
    ((congrArg DnSch.schedNr hsch').trans (inBucket_of_find hfind').2)
    (by rw [hnr']; rfl)).1
  exact Fixed.tabled (s := v) (.of_eq rfl) hv'

theorem setProfile_tabled {pf : DnProfile} {ok : Bool} (hs : Tabled s) (hi : i ≠ 0)
    (hfind : s.findSched i = some sp) (h : setProfile s sp pf = (ok, t)) : Tabled t := by
  obtain ⟨hin, hold⟩ := inBucket_of_find hfind
  have hset : ∀ {u : Dn} (o : Option DnProfile), Fixed s u →
      Tabled (u.setSchk sp { s.schk sp with profile := o }) := by
    intro u o hsu
    have hself : (u.setSchk sp { s.schk sp with profile := o }).schk sp =
        { s.schk sp with profile := o } := Function.update_self ..
    refine (((hsu.wrote sp).trans (wrote_setSchk u sp _)).found hs hi hfind ?_ ?_).1
    · exact (congrArg (fun x : Schk => x.sch.schedNr) hself).trans hold
    · exact (congrArg (fun x : Schk => x.link.linkNr) hself).trans ((hs.link hin).trans hold)
  unfold setProfile at h
  dsimp only at h
  split at h
  · obtain ⟨-, rfl⟩ := Prod.mk.inj h
    exact hset _ (.refl s)
  · split at h
    · obtain ⟨-, rfl⟩ := Prod.mk.inj h
      exact hset _ (.refl s)
    · obtain ⟨-, rfl⟩ := Prod.mk.inj h
      exact hset _ (fixed_malloc s)

/-- **`config_profile`**. -/
theorem configProfile_tabled {pf : DnProfile} (hs : Tabled s) (h : configProfile s pf = (err, t)) :
    Tabled t := by
  have hid : ∀ {u : Dn}, Tabled u → Tabled { u with id := u.id + 1 } := fun {u} hu =>
    Fixed.tabled (s := u) (.of_eq rfl) hu
  unfold configProfile at h
  dsimp only at h
  split at h
  · obtain ⟨-, rfl⟩ := Prod.mk.inj h
    exact hs
  next hbad =>
  rw [not_or, not_or, not_le, not_le] at hbad
  obtain ⟨-, hpos, hlt⟩ := hbad
  split at h
  · obtain ⟨-, rfl⟩ := Prod.mk.inj h
    exact hs
  next sp hfind =>
  have hset : ∀ {ok : Bool} {u : Dn}, setProfile { s with id := s.id + 1 } sp pf = (ok, u) →
      Tabled u := fun hu => setProfile_tabled (hid hs) (ne_zero_of_toInt_pos hpos) hfind hu
  split at h
  · next u hu =>
    obtain ⟨-, rfl⟩ := Prod.mk.inj h
    exact hset hu
  next u hu =>
  have hu' := hset hu
  split at h
  · obtain ⟨-, rfl⟩ := Prod.mk.inj h
    exact hu'
  next sp' hfind' =>
  split at h
  all_goals
    next v hv =>
    obtain ⟨-, rfl⟩ := Prod.mk.inj h
    exact setProfile_tabled (hid hu') (add_dnMaxId_ne_zero hpos hlt) hfind' hv

/-! ### Schedulers go -/

/-- **`delete_schk`**. -/
theorem deleteSchk_tabled (hs : Tabled s) (h : deleteSchk s i = some (err, t)) : Tabled t := by
  unfold deleteSchk at h
  dsimp only at h
  split at h
  · next hfind =>
    obtain ⟨-, rfl⟩ := Prod.mk.inj (Option.some.inj h)
    refine hs.of_sub le_rfl fun {hash sp} hsp => ?_
    obtain ⟨ht, hdrop, hmem⟩ := hsp
    change dnHtDrop s.schedhash (s.findSched i) = _ at hdrop
    rw [hfind] at hdrop
    unfold dnHtDrop at hdrop
    dsimp only at hdrop
    split_ifs at hdrop
    have hin : s.InBucket hash sp := ⟨ht, hdrop, hmem⟩
    exact ⟨hin, .inl rfl, hs.link hin⟩
  · next sp hfind =>
    obtain ⟨⟨e, u⟩, hu, h⟩ := Option.bind_eq_some_iff.1 h
    obtain ⟨v, hv, h⟩ := Option.bind_eq_some_iff.1 h
    obtain ⟨-, rfl⟩ := Prod.mk.inj (Option.some.inj h)
    rw [hfind] at hu
    exact ((removed_drop s sp).wrote (((deleteFs_fixed hu).wrote sp).trans
      (schkDeleteCb_wrote hv).1)).tabled hs

/-- **`dummynet_flush`** leaves no scheduler. -/
theorem dummynetFlush_empty {hash : BitVec 32} (h : dummynetFlush s = some t) :
    ¬ t.InBucket hash sp := by
  obtain ⟨u, -, h⟩ := Option.bind_eq_some_iff.1 h
  obtain ⟨v, -, h⟩ := Option.bind_eq_some_iff.1 h
  obtain rfl := Option.some.inj h
  rintro ⟨ht, hht, hmem⟩
  obtain ⟨ht', -, rfl⟩ := Option.map_eq_some_iff.1 hht
  rw [DnHt.mem_chain] at hmem
  exact absurd hmem List.not_mem_nil

theorem dummynetFlush_tabled (h : dummynetFlush s = some t) : Tabled t :=
  ⟨fun hin => absurd hin (dummynetFlush_empty h), fun _ hin => absurd hin (dummynetFlush_empty h),
    fun hin => absurd hin (dummynetFlush_empty h)⟩

/-! ### Schedulers come -/

/-- What a request keeps from round to round. -/
structure SchedJob.Ok (s : Dn) (j : SchedJob) : Prop where
  pos : 0 < j.i.toInt
  nr : j.sch.schedNr = j.i
  p : j.p.linkNr = 0 ∨ j.p.linkNr = j.i ∧ s.findSched j.i = none

theorem SchedJob.Ok.round (hj : j.Ok s) (hs : Tabled s) {r : ℕ ⊕ SchedJob}
    (h : configSchedRound s j = some (r, t)) : Framed j.i s t ∧ Round s j t r :=
  configSchedRound_spec hs (ne_zero_of_toInt_pos hj.pos) hj.nr hj.p h

theorem SchedJob.next_eq {j' : SchedJob} (h : j.next s = .inr j') :
    j' = j.twin ∧ j.i.toInt < dnMaxId.toInt := by
  unfold SchedJob.next at h
  split_ifs at h with hlt
  exact ⟨(Sum.inr.inj h).symm, hlt⟩

theorem SchedJob.twin_i (j : SchedJob) : j.twin.i = j.i + dnMaxId := by
  unfold SchedJob.twin
  rfl

theorem SchedJob.twin_nr (j : SchedJob) : j.twin.sch.schedNr = j.twin.i := by
  unfold SchedJob.twin
  rfl

theorem SchedJob.twin_p (j : SchedJob) : j.twin.p = j.p := by
  unfold SchedJob.twin
  rfl

/-- The request for the FIFO twin. -/
theorem SchedJob.twin_ok (hp : j.p.linkNr = 0) (hpos : 0 < i.toInt) (hlt : i.toInt < dnMaxId.toInt)
    (hi : j.i = i) : j.twin.Ok s := by
  refine ⟨?_, j.twin_nr, .inl (by rw [j.twin_p, hp])⟩
  rw [j.twin_i, hi]
  exact lt_of_lt_of_le (hpos.trans hlt) (twin_toInt hpos hlt)

theorem Round.ok (h : Round s j t (.inr k)) (hj : j.Ok s) (hs : Tabled s) : k.Ok t := by
  have hnext : ∀ {j' : SchedJob}, j.Like j' → j'.p.linkNr = 0 → .inr k = j'.next t → k.Ok t := by
    intro j' hlike hp hk
    obtain ⟨rfl, hlt⟩ := SchedJob.next_eq hk.symm
    exact SchedJob.twin_ok hp hj.pos (hlike.i ▸ hlt) hlike.i
  cases h with
  | default hs' ht hlike hp =>
    refine ⟨hlike.i ▸ hj.pos, by rw [hlike.nr, hlike.i, hj.nr], ?_⟩
    rw [hp, hlike.i]
    exact hj.p.imp id fun h => ⟨h.1, ht⟩
  | replace hrep ht hlike hi hnr hpipe htwin hp =>
    refine ⟨hi ▸ hj.pos, by rw [hnr, hi, hj.nr], .inr ?_⟩
    obtain ⟨hin, hold⟩ := inBucket_of_find hrep.1
    rw [hp, hi]
    exact ⟨(hs.link hin).trans hold, ht⟩
  | keep _ _ _ _ _ hlike hp hr => exact hnext hlike hp hr
  | make _ _ _ _ hlike hp hr => exact hnext hlike hp hr

/-- **`config_sched`** from the label `again`. -/
theorem configSchedLoop_tabled {m : ℕ} (hs : Tabled s) (hj : j.Ok s)
    (h : configSchedLoop m s j = some (err, t)) : Tabled t := by
  induction m generalizing s j with
  | zero => exact absurd h (by simp [configSchedLoop])
  | succ m ih =>
    obtain ⟨⟨r, u⟩, hround, h⟩ := Option.bind_eq_some_iff.1 h
    obtain ⟨hframe, hcases⟩ := hj.round hs hround
    rcases r with e | k
    · obtain ⟨-, rfl⟩ := Prod.mk.inj (Option.some.inj h)
      exact hframe.tabled
    · exact ih hframe.tabled (hcases.ok hj hs) h

/-- A table that is new is empty. -/
theorem needSchedhash_inBucket {hash : BitVec 32} (h : (needSchedhash s).InBucket hash sp) :
    s.InBucket hash sp ∧ needSchedhash s = s := by
  obtain ⟨ht, hht, hmem⟩ := h
  rcases hsh : s.schedhash with _ | ht'
  · have hinit : dnHtInit (α := SchkPtr) s.malloc.1 s.malloc.2.parms.hashSize.toInt = some ht := by
      unfold needSchedhash at hht
      rw [hsh] at hht
      exact hht
    unfold dnHtInit at hinit
    split_ifs at hinit
    obtain rfl := Option.some.inj hinit
    rw [DnHt.mem_chain] at hmem
    exact absurd hmem List.not_mem_nil
  · have heq : needSchedhash s = s := by
      unfold needSchedhash
      rw [hsh]
    rw [heq] at hht
    exact ⟨⟨ht, hht, hmem⟩, heq⟩

theorem needSchedhash_tabled (hs : Tabled s) :
    Tabled (needSchedhash s) ∧ (needSchedhash s).schk = s.schk ∧
      (needSchedhash s).schedlist = s.schedlist ∧
      ∀ n, (needSchedhash s).findSched n = s.findSched n := by
  have hfields : (needSchedhash s).schk = s.schk ∧ (needSchedhash s).schedlist = s.schedlist ∧
      (needSchedhash s).brk = s.brk := by
    unfold needSchedhash
    split <;> exact ⟨rfl, rfl, rfl⟩
  obtain ⟨hschk, hlist, hbrk⟩ := hfields
  refine ⟨hs.of_sub hbrk.ge fun {hash sp} hin => ?_, hschk, hlist, fun n => ?_⟩
  · obtain ⟨hin', heq⟩ := needSchedhash_inBucket hin
    rw [heq]
    exact ⟨hin', .inl rfl, hs.link hin'⟩
  · rcases hfind : (needSchedhash s).findSched n with _ | sp
    · rcases hsh : s.schedhash with _ | ht
      · rw [Dn.findSched, hsh]
        rfl
      · have heq : needSchedhash s = s := by
          unfold needSchedhash
          rw [hsh]
        rw [← hfind, heq]
    · rw [← hfind, (needSchedhash_inBucket (inBucket_of_find hfind).1).2]

/-- The first request of `config_sched`. -/
def SchedJob.start (s : Dn) (sch : DnSch) : SchedJob :=
  let buckets := if sch.flags &&& dnHaveMask ≠ 0 then
      boundWord sch.buckets s.parms.hashSize.toInt 1 s.parms.maxHashSize.toInt
    else sch.buckets
  let isPipe := sch.flags &&& dnPipeCmd ≠ 0
  let sch := { sch with buckets := buckets, flags := sch.flags &&& ~~~dnPipeCmd }
  { i := sch.schedNr
    sch := sch
    p := {}
    pf := none
    pipe := if isPipe then some (sch.schedMask, sch.buckets, sch.flags) else none }

theorem configSched_eq (s : Dn) (x : DnSch) :
    configSched s x =
      if x.oid.len ≠ sizeofSch ∨ x.schedNr.toInt ≤ 0 ∨ dnMaxId.toInt ≤ x.schedNr.toInt then
        some (einval, s)
      else configSchedLoop 8 (needSchedhash s) (.start s x) := by
  unfold configSched SchedJob.start
  rfl

/-- **`config_sched`**. -/
theorem configSched_tabled {x : DnSch} (hs : Tabled s) (h : configSched s x = some (err, t)) :
    Tabled t := by
  rw [configSched_eq] at h
  split_ifs at h with hbad
  · obtain ⟨-, rfl⟩ := Prod.mk.inj (Option.some.inj h)
    exact hs
  · rw [not_or, not_or, not_le, not_le] at hbad
    exact configSchedLoop_tabled (needSchedhash_tabled hs).1 ⟨hbad.2.1, rfl, .inl rfl⟩ h

/-! ### Runs -/

/-- **An object of a message** keeps the table in order. -/
theorem doObject_tabled {o : DnObj} (hs : Tabled s) (h : doObject s o = some (err, t)) :
    Tabled t := by
  cases doObject_handled h with
  | skip _ => exact hs
  | flush hf => exact dummynetFlush_tabled hf
  | link hl => exact configLink_tabled hs hl
  | profile hpf => exact configProfile_tabled hs hpf
  | sch hc => exact configSched_tabled hs hc
  | fs hc => exact (configFs_fixed hc).tabled hs
  | deleteLink _ _ hu hv => exact deleteSchk_tabled (deleteSchk_tabled hs hu) hv
  | deleteFs _ hd => exact (deleteFs_fixed hd).tabled hs

/-- The reachable states. Between the objects of a message, and before each operation, the
environment may change. -/
inductive Dn.Reach (parms : DnParms) (schedlist : List SchedType) : Dn → Prop
  | init : Reach parms schedlist (Dn.init parms schedlist)
  | env {s : Dn} (e : Env) (log : List Event) : Reach parms schedlist s →
      Reach parms schedlist { s with env := e, log := log }
  | sysctl {s : Dn} (parms' : DnParms) : Reach parms schedlist s →
      Reach parms schedlist { s with parms := parms' }
  | io {s t : Dn} {a : IoArgs} {r : IoResult} : Reach parms schedlist s →
      dummynetIo s a = some (r, t) → Reach parms schedlist t
  | task {s t : Dn} : Reach parms schedlist s → dummynetTask s = some t → Reach parms schedlist t
  | object {s t : Dn} {o : DnObj} {err : ℕ} : Reach parms schedlist s →
      doObject s o = some (err, t) → Reach parms schedlist t

/-- **The table of the schedulers is in order in every reachable state.** -/
theorem Dn.Reach.tabled {parms : DnParms} {schedlist : List SchedType}
    (h : Dn.Reach parms schedlist s) : Tabled s := by
  induction h with
  | init =>
    have hno : ∀ {hash sp}, ¬ (Dn.init parms schedlist).InBucket hash sp := by
      rintro hash sp ⟨ht, hht, -⟩
      exact absurd hht (by simp [Dn.init])
    exact ⟨fun hin => absurd hin hno, fun _ hin => absurd hin hno, fun hin => absurd hin hno⟩
  | env e log _ ih => exact ih.of_sub le_rfl fun hin => ⟨hin, .inl rfl, ih.link hin⟩
  | sysctl parms' _ ih => exact ih.of_sub le_rfl fun hin => ⟨hin, .inl rfl, ih.link hin⟩
  | io _ h ih => exact (dummynetIo_fixed h).tabled ih
  | task _ h ih => exact (dummynetTask_fixed h).tabled ih
  | object _ h ih => exact doObject_tabled ih h

end Dummynet
