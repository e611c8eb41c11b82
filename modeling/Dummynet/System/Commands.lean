import Dummynet.System.Configure

/-!
# Scheduler commands and messages

`config_sched`, which goes round for a scheduler and its FIFO twin, `config_profile`, and the
messages of `do_config`, as stages through states with a graph.

## Main results

* `configSched_becomes`, `configProfile_goes`: the handlers.
* `doObject_becomes`, `doConfig_becomes`: an object of a message, and the message.
-/

namespace Dummynet

variable {F : Set FskPtr} {S : Set SchkPtr} {L : Option FskPtr} {s t u : Dn} {p : SiPtr}
  {fp : FskPtr} {sp : SchkPtr} {c : Prop} {i : BitVec 32}

/-! ### The scheduler of a request -/

/-- A new scheduler under a number that was free. -/
theorem Numbered.add {ht : DnHt SchkPtr} (h : Numbered S s) (hg : Graph F S L s) (hi : i ≠ 0)
    (hfree : s.findSched i = none) (hht : s.schedhash = some ht)
    (htab : t.schedhash = some (ht.insert (nrHash i) sp)) (hnr : (t.schk sp).sch.schedNr = i)
    (hsch : ∀ sp' ∈ S, (t.schk sp').sch = (s.schk sp').sch) : Numbered (insert sp S) t := by
  have hother : ∀ sp' ∈ S, (t.schk sp').sch.schedNr ≠ i := fun sp' hsp' heq => by
    rw [hsch sp' hsp'] at heq
    have hfind := h.find hg hsp'
    rw [heq, hfree] at hfind
    exact absurd hfind (by simp)
  refine ⟨fun sp' hsp' => ?_, fun sp₁ h₁ sp₂ h₂ heq => ?_, fun sp' hsp' => ?_⟩
  · refine ⟨_, htab, DnHt.mem_chain.2 ?_⟩
    rcases hsp' with rfl | hsp'
    · rw [hnr]
      exact List.mem_cons_self
    · obtain ⟨ht', hht', hmem⟩ := h.table sp' hsp'
      obtain rfl := Option.some.inj (hht.symm.trans hht')
      rw [hsch sp' hsp']
      exact List.mem_cons_of_mem _ (DnHt.mem_chain.1 hmem)
  · rcases h₁ with rfl | h₁
    · rcases h₂ with rfl | h₂
      · rfl
      · exact absurd (heq.symm.trans hnr) (hother sp₂ h₂)
    · rcases h₂ with rfl | h₂
      · exact absurd (heq.trans hnr) (hother sp₁ h₁)
      · rw [hsch sp₁ h₁, hsch sp₂ h₂] at heq
        exact h.unique sp₁ h₁ sp₂ h₂ heq
  · rcases hsp' with rfl | hsp'
    · rw [hnr]
      exact hi
    · rw [hsch sp' hsp']
      exact h.pos sp' hsp'

/-- The scheduler `sp` of a request for the number `i`: all others are complete, and it is complete
or new. -/
structure Open (c : Prop) (S : Set SchkPtr) (sp : SchkPtr) (i : BitVec 32) (s : Dn) : Prop
    extends Numbered S s where
  mem : sp ∈ S
  nr : (s.schk sp).sch.schedNr = i
  others : ∀ sp' ∈ S, sp' ≠ sp → (s.schk sp').Ready
  self : (s.schk sp).Ready ∨ (s.schk sp).fp = none ∧
    (c → ∀ fp, (s.fsk fp).head.fsNr = i + dnMaxId → s.Idle fp)

/-- A complete scheduler is open. -/
theorem Hashed.open (h : Hashed S s) (hg : Graph F S L s) (hi : i ≠ 0)
    (hfind : s.findSched i = some sp) : Open c S sp i s :=
  ⟨h.toNumbered, (hg.mem_of_findSched hfind hi).1, (hg.mem_of_findSched hfind hi).2,
    fun sp' hsp' _ => h.ready sp' hsp', .inl (h.ready sp (hg.mem_of_findSched hfind hi).1)⟩

/-- A lookup in `schedhash` that makes what it does not find. -/
theorem findOrNewSched_becomes {x : DnSch} {o : Option SchkPtr} (hg : Graph F S none s)
    (hh : Hashed S s) (hx : x.schedNr = i) (hi : i ≠ 0) (hspare : c → s.Spares i)
    (h : findOrNewSched s i x = (o, t)) :
    o = none ∧ Becomes c F S s t ∧ Hashed S t ∨
      ∃ sp S', o = some sp ∧ Becomes c F S' s t ∧ Open c S' sp i t := by
  unfold findOrNewSched at h
  split at h
  · obtain ⟨rfl, rfl⟩ := Prod.mk.inj h
    exact .inl ⟨rfl, .refl hg, hh⟩
  · next ht hht =>
    split at h
    · next sp hfind =>
      obtain ⟨rfl, rfl⟩ := Prod.mk.inj h
      exact .inr ⟨sp, S, rfl, .refl hg, hh.open hg hi hfind⟩
    · next hfree =>
      obtain ⟨o', u, hu⟩ : ∃ o' u, schkNew s x = (o', u) := ⟨_, _, rfl⟩
      obtain ⟨hfsk, -, hsh, hcases⟩ := schkNew_goes (K := fun _ => False) hg hu
      rw [hu] at h
      rcases hcases with ⟨rfl, hgo, hschk⟩ | ⟨sp, y, rfl, hsp, hgo, hschk, hsch, hfp, hfs, hlist⟩
      · obtain ⟨rfl, rfl⟩ := Prod.mk.inj h
        refine .inl ⟨rfl, .of_goes hg hgo fun fp sp' hsched => .inr (.inr ?_), ?_⟩
        · rw [hfsk] at hsched ⊢
          exact ⟨hsched, rfl, by rw [hschk]⟩
        · refine hh.congr ?_ ?_ ?_ hsh <;> exact fun sp' => by rw [hschk]
      · obtain ⟨rfl, rfl⟩ := Prod.mk.inj h
        have hother : ∀ sp' ∈ S, u.schk sp' = s.schk sp' := fun sp' hsp' => by
          have hne : sp' ≠ sp := fun he => hsp (he ▸ hsp')
          rw [hschk, Function.update_of_ne hne]
        have hself : u.schk sp = y := by rw [hschk, Function.update_self]
        have hgo' := goes_setSchedhash (K := fun _ => False)
          (some (ht.insert (nrHash i) sp)) hgo.graph
        have hb : Becomes c F (insert sp S) s { u with
            schedhash := some (ht.insert (nrHash i) sp) } := by
          refine .of_goes hg ⟨hgo'.graph, hgo.path.trans (hgo'.path.mono dropMoves_subset)⟩
            fun fp sp' hsched => .inr (.inr ?_)
          change (u.fsk fp).sched = _ at hsched
          have hne : sp' ≠ sp := by
            rintro rfl
            have hmem := (hgo.graph.mem_of_sched hsched).1
            rw [hself, hlist] at hmem
            exact absurd hmem List.not_mem_nil
          change _ ∧ (u.fsk fp).head.fsNr = _ ∧ (u.schk sp').sch.schedNr = _
          rw [hfsk] at hsched ⊢
          rw [hschk, Function.update_of_ne hne]
          exact ⟨hsched, rfl, rfl⟩
        refine .inr ⟨sp, insert sp S, rfl, hb, ?_⟩
        refine ⟨hh.toNumbered.add hg hi hfree hht rfl ?_ fun sp' hsp' => ?_, Set.mem_insert _ _, ?_,
          fun sp' hsp' hne => ?_, .inr ⟨?_, fun hc fp hfp => ?_⟩⟩
        · change (u.schk sp).sch.schedNr = i
          rw [hself, hsch, hx]
        · change (u.schk sp').sch = _
          rw [hother sp' hsp']
        · change (u.schk sp).sch.schedNr = i
          rw [hself, hsch, hx]
        · have hsp'' := hsp'.resolve_left hne
          change (u.schk sp').Ready
          rw [hother sp' hsp'']
          exact hh.ready sp' hsp''
        · change (u.schk sp).fp = none
          rw [hself, hfp]
        · change (u.fsk fp).head.fsNr = _ at hfp
          rw [hfsk] at hfp
          rcases hspare hc fp hfp with hidle | ⟨sp', hfind, -⟩
          · exact hb.calm.idle fp hidle
          · rw [hfree] at hfind
            exact absurd hfind (by simp)

/-! ### A scheduler is completed -/

/-- The link of a scheduler that was replaced. -/
theorem restoreLink_goes {K : SiPtr → Prop} {j : SchedJob} (hg : Graph F S none s) (hsp : sp ∈ S)
    (h : restoreLink s sp j = some t) :
    Goes (confMoves K) F S none s t ∧ SameNumbers s t ∧ t.fsk = s.fsk ∧ t.inst = s.inst := by
  unfold restoreLink at h
  split_ifs at h
  · obtain rfl := Option.some.inj h
    exact ⟨.refl hg, .refl s, rfl, rfl⟩
  · obtain rfl := Option.some.inj h
    obtain ⟨hgo, hsame⟩ := setSchk_goes (K := K) (x := { s.schk sp with link := j.p, profile := none })
      hg hsp rfl rfl rfl rfl rfl
    exact ⟨hgo, hsame, rfl, rfl⟩

/-- A scheduler that was open may have been completed. -/
theorem Open.of_same {S' : Set SchkPtr} (h : Open c S sp i s) (hsub : S' ⊆ S)
    (hsh : t.schedhash = s.schedhash)
    (hother : ∀ sp' ∈ S', sp' ≠ sp → (t.schk sp').sch = (s.schk sp').sch ∧
      (t.schk sp').fp = (s.schk sp').fp ∧ (t.schk sp').fs = (s.schk sp').fs)
    (hself : sp ∈ S' → (t.schk sp).sch.schedNr = i ∧ (t.schk sp).Ready) : Hashed S' t where
  toNumbered := h.toNumbered.mono hsub (fun sp' hsp' => by
    rcases eq_or_ne sp' sp with rfl | hne
    · rw [(hself hsp').1, h.nr]
    · rw [(hother sp' hsp' hne).1]) fun sp' _ hash hmem => by rwa [hsh]
  ready sp' hsp' := by
    rcases eq_or_ne sp' sp with rfl | hne
    · exact (hself hsp').2
    · exact (h.others sp' (hsub hsp') hne).congr (hother sp' hsp' hne).2.1 (hother sp' hsp' hne).2.2

/-- The internal flowset of a scheduler with one queue. -/
theorem internalFs_becomes {kind : SchedType} {ok : Bool} (hg : Graph F S none s) (hsp : sp ∈ S)
    (hidle : c → kind.multiqueue = false → (s.schk sp).fs = none →
      ∀ fp, (s.fsk fp).head.fsNr = i + dnMaxId → s.Idle fp)
    (h : internalFs s sp kind i = some (ok, t)) :
    t.schedhash = s.schedhash ∧ (∀ sp', sp' ≠ sp → (t.schk sp').sch = (s.schk sp').sch ∧
      (t.schk sp').fp = (s.schk sp').fp ∧ (t.schk sp').fs = (s.schk sp').fs) ∧
      (ok = true ∧ (∃ F', F ⊆ F' ∧ Becomes c F' S s t) ∧ (t.schk sp).sch = (s.schk sp).sch ∧
          (t.schk sp).fp = (s.schk sp).fp ∧
          (kind.multiqueue = false → (t.schk sp).fs ≠ none) ∨
        ok = false ∧ ∃ F', F ⊆ F' ∧ Becomes c F' (S \ {sp}) s t) := by
  have hset : ∀ {F' : Set FskPtr} {v : Dn} (o : Option FskPtr), Graph F' S none v →
      Becomes c F' S v (v.setSchk sp { v.schk sp with fs := o }) := by
    intro F' v o hgv
    refine .of_goes hgv ⟨hgv.setSchk hsp rfl rfl fun _ => rfl, path_setSchk trivial rfl⟩
      fun fp sp' hsched => .inr (.inr ⟨hsched, rfl, ?_⟩)
    rcases eq_or_ne sp' sp with rfl | hne
    · simp [Dn.setSchk]
    · simp [Dn.setSchk, hne]
  have hothers : ∀ {v : Dn} (o : Option FskPtr) (sp' : SchkPtr), sp' ≠ sp →
      (v.setSchk sp { v.schk sp with fs := o }).schk sp' = v.schk sp' := fun o sp' hne =>
    Function.update_of_ne hne ..
  have hself : ∀ {v : Dn} (o : Option FskPtr), (v.setSchk sp { v.schk sp with fs := o }).schk sp =
      { v.schk sp with fs := o } := fun o => Function.update_self ..
  unfold internalFs at h
  split_ifs at h with hdone
  · obtain ⟨rfl, rfl⟩ := Prod.mk.inj (Option.some.inj h)
    refine ⟨rfl, fun _ _ => ⟨rfl, rfl, rfl⟩, .inl ⟨rfl, ⟨F, subset_rfl, .refl hg⟩, rfl, rfl,
      fun hk => ?_⟩⟩
    rcases hdone with hm | hfs
    · rw [hk] at hm
      exact absurd hm (by simp)
    · exact Option.isSome_iff_ne_none.1 hfs
  · rw [not_or] at hdone
    split at h
    · next fp hfind =>
      obtain ⟨rfl, rfl⟩ := Prod.mk.inj (Option.some.inj h)
      refine ⟨rfl, fun sp' hne => by rw [hothers _ sp' hne]; exact ⟨rfl, rfl, rfl⟩, .inl ⟨rfl,
        ⟨F, subset_rfl, hset _ hg⟩, ?_, ?_, fun _ => ?_⟩⟩ <;> rw [hself]
      simp
    · obtain ⟨⟨o, u⟩, hconf, h⟩ := Option.bind_eq_some_iff.1 h
      obtain ⟨F', hF, hb, hsame⟩ := configFs_becomes hg (fun hc fp hfp => .inr (by
        obtain ⟨ht, -, hmatch⟩ := Option.bind_eq_some_iff.1 hfp
        exact hidle hc (by simpa using hdone.1) (by simpa using hdone.2) fp
          (by simpa using (DnHt.find_eq_some hmatch).2))) hconf
      have hb' := hb.trans (hset o hb.graph)
      dsimp only at h
      split_ifs at h with ho
      · obtain ⟨rfl, rfl⟩ := Prod.mk.inj (Option.some.inj h)
        refine ⟨hsame.schedhash, fun sp' hne => ?_, .inl ⟨rfl, ⟨F', hF, hb'⟩, ?_, ?_, fun _ => ?_⟩⟩
        · rw [hothers _ sp' hne]
          exact ⟨hsame.sch sp', hsame.fp sp', hsame.fs sp'⟩
        · rw [hself]
          exact hsame.sch sp
        · rw [hself]
          exact hsame.fp sp
        · rw [hself]
          exact Option.isSome_iff_ne_none.1 ho
      · obtain ⟨v, hdel, h⟩ := Option.bind_eq_some_iff.1 h
        obtain ⟨rfl, rfl⟩ := Prod.mk.inj (Option.some.inj h)
        obtain ⟨hdb, hdet, hschk⟩ := schkDeleteCb_becomes (c := c) hb'.graph hdel
        refine ⟨hdet.schedhash.trans hsame.schedhash, fun sp' hne => ?_,
          .inr ⟨rfl, F', hF, hb'.trans hdb⟩⟩
        rw [hschk, Function.update_of_ne hne, hothers _ sp' hne]
        exact ⟨hsame.sch sp', hsame.fp sp', hsame.fs sp'⟩

/-- `update_fs` as a stage. -/
theorem AttachedTo.becomes (h : AttachedTo sp s t) (hg : Graph F S none s)
    (hgo : Goes (confMoves fun _ => False) F S none s t) : Becomes c F S s t := by
  refine .of_goes hg hgo fun fp sp' hsched => .inr ?_
  rcases h.sched fp with heq | ⟨hnone, -⟩
  · exact .inr ⟨heq ▸ hsched, by rw [h.head], by rw [h.sch]⟩
  · exact .inl (hg.idle hnone)

/-- What a round of `config_sched` leaves for the next one. -/
def SchedJob.Follows (j j' : SchedJob) : Prop :=
  j'.sch.schedNr = j'.i ∧ (j'.i = j.i ∨ j'.i = j.i + dnMaxId ∧ j.i.toInt < dnMaxId.toInt)

theorem SchedJob.next_follows {j j' : SchedJob} (h : j.next s = .inr j') : j.Follows j' := by
  unfold SchedJob.next at h
  split_ifs at h with hi hkeep
  obtain rfl := Sum.inr.inj h
  exact ⟨rfl, .inr ⟨rfl, hi⟩⟩

/-- The part of `config_sched` that completes a scheduler. -/
theorem completeSched_becomes {kind : SchedType} {j : SchedJob} {r : ℕ ⊕ SchedJob}
    (hg : Graph F S none s) (hopen : Open c S sp j.i s)
    (hkind : (s.schk sp).fp = none ∨ (s.schk sp).fp = some kind) (hj : j.sch.schedNr = j.i)
    (h : (do
      let s := s.setSchk sp { s.schk sp with sch := j.sch, fp := some kind }
      let (ok, s) ← internalFs s sp kind j.i
      if !ok then pure (.inl enomem, s)
      else do
        let s ← updateFs s sp
        pure (j.next s, s)) = some (r, t)) :
    ∃ F' S', Becomes c F' S' s t ∧ Hashed S' t ∧ ∀ j', r = .inr j' → j.Follows j' := by
  have hsp := hopen.mem
  set u := s.setSchk sp { s.schk sp with sch := j.sch, fp := some kind } with hu
  have hother : ∀ sp', sp' ≠ sp → u.schk sp' = s.schk sp' := fun sp' hne =>
    Function.update_of_ne hne ..
  have hself : u.schk sp = { s.schk sp with sch := j.sch, fp := some kind } :=
    Function.update_self ..
  have hgu : Graph F S none u := hg.setSchk hsp rfl rfl fun hsiht => by
    rcases hkind with hnone | hsome
    · obtain ⟨p, hp⟩ := List.exists_mem_of_ne_nil _ hsiht
      obtain ⟨hmem, hsched⟩ := (hg.insts sp p).1 hp
      have := hg.kind p hmem
      rw [hsched, hnone] at this
      exact absurd this (by simp)
    · exact hsome.symm
  have hbu : Becomes c F S s u := by
    refine .of_goes hg ⟨hgu, path_setSchk trivial rfl⟩ fun fp sp' hsched =>
      .inr (.inr ⟨hsched, rfl, ?_⟩)
    rcases eq_or_ne sp' sp with rfl | hne
    · rw [hself, hopen.nr, ← hj]
    · rw [hother sp' hne]
  obtain ⟨⟨ok, v⟩, hint, h⟩ := Option.bind_eq_some_iff.1 h
  obtain ⟨hsh, hrest, hcases⟩ := internalFs_becomes (c := c) hgu hsp (fun hc hk hfs fp hfp => by
    rw [hself] at hfs
    rcases hopen.self with ⟨kind', hkind', hready⟩ | ⟨-, hidle⟩
    · obtain rfl : kind' = kind := by
        rcases hkind with hnone | hsome
        · rw [hnone] at hkind'
          exact absurd hkind' (by simp)
        · exact Option.some.inj (hkind'.symm.trans hsome)
      exact absurd hfs (hready hk)
    · exact hidle hc fp hfp) hint
  have hrest' : ∀ sp', sp' ≠ sp → (v.schk sp').sch = (s.schk sp').sch ∧
      (v.schk sp').fp = (s.schk sp').fp ∧ (v.schk sp').fs = (s.schk sp').fs := fun sp' hne => by
    rw [← hother sp' hne]
    exact hrest sp' hne
  rcases hcases with ⟨rfl, ⟨F', hF', hbv⟩, hsch, hfp, hfs⟩ | ⟨rfl, F', hF', hbv⟩
  · simp only [Bool.not_true, Bool.false_eq_true, if_false] at h
    obtain ⟨w, hw, h⟩ := Option.bind_eq_some_iff.1 h
    obtain ⟨rfl, rfl⟩ := Prod.mk.inj (Option.some.inj h)
    obtain ⟨hgo, hat⟩ := updateFs_goes (K := fun _ => False) hbv.graph hw
    rw [hself] at hsch hfp
    have hhv : Hashed S v := hopen.of_same subset_rfl hsh (fun sp' _ hne => hrest' sp' hne)
      fun _ => ⟨by rw [hsch, hj], kind, hfp, hfs⟩
    exact ⟨F', S, hbu.trans (hbv.trans (hat.becomes hbv.graph hgo)), hat.toSameScheds.hashed hhv,
      fun j' hj' => SchedJob.next_follows hj'⟩
  · simp only [Bool.not_false, if_true] at h
    obtain ⟨rfl, rfl⟩ := Prod.mk.inj (Option.some.inj h)
    refine ⟨F', S \ {sp}, hbu.trans hbv, hopen.of_same Set.sdiff_subset hsh
      (fun sp' _ hne => hrest' sp' hne) fun hmem => absurd rfl hmem.2, fun j' hj' => ?_⟩
    exact absurd hj' (by simp)

/-- **`config_sched`** from the lookup of the scheduler on. -/
theorem configSchedAt_becomes {kind : SchedType} {j : SchedJob} {r : ℕ ⊕ SchedJob}
    (hg : Graph F S none s) (hopen : Open c S sp j.i s) (hj : j.sch.schedNr = j.i)
    (h : configSchedAt s sp kind j = some (r, t)) :
    ∃ F' S', Becomes c F' S' s t ∧ Hashed S' t ∧ ∀ j', r = .inr j' → j.Follows j' := by
  obtain ⟨u, hu, h⟩ := Option.bind_eq_some_iff.1 h
  obtain ⟨hgo, hsame, hfsk, hinst⟩ := restoreLink_goes (K := fun _ => False) hg hopen.mem hu
  have hb : Becomes c F S s u := hsame.becomes hg hgo
  have hnum : Numbered S u := hopen.toNumbered.mono subset_rfl (fun sp' _ => by rw [hsame.sch])
    fun sp' _ hash hmem => by rwa [hsame.schedhash]
  have hopen' : Open c S sp j.i u := by
    refine ⟨hnum, hopen.mem, by rw [hsame.sch, hopen.nr], fun sp' hsp' hne =>
      (hopen.others sp' hsp' hne).congr (hsame.fp sp') (hsame.fs sp'), ?_⟩
    refine hopen.self.imp (fun hr => hr.congr (hsame.fp sp) (hsame.fs sp)) fun hr => ⟨?_, ?_⟩
    · rw [hsame.fp, hr.1]
    · intro hc fp hfp
      rw [hfsk] at hfp
      exact hb.calm.idle fp (hr.2 hc fp hfp)
  dsimp only at h
  split_ifs at h with hrep
  · obtain ⟨w, hw, h⟩ := Option.bind_eq_some_iff.1 h
    obtain ⟨rfl, rfl⟩ := Prod.mk.inj (Option.some.inj h)
    have hready : (u.schk sp).Ready := hopen'.self.resolve_right fun hr => by
      rw [hr.1] at hrep
      exact absurd hrep.1 (by simp)
    have hsil : Silent u (saveProfile u sp j.pf).2 ∧
        (saveProfile u sp j.pf).2.schedhash = u.schedhash := by
      unfold saveProfile
      split
      · exact ⟨.refl u, rfl⟩
      · split
        · exact ⟨.refl u, rfl⟩
        · exact ⟨silent_malloc u, rfl⟩
    set v := (saveProfile u sp j.pf).2
    have hbv : Becomes c F S s v := hb.trans (hsil.1.becomes hb.graph)
    have hgo' := goes_setSchedhash (K := fun _ => False)
      (v.schedhash.map fun ht => ht.remove sp) hbv.graph
    have hbx := hbv.trans (.of_goes (c := c) hbv.graph
      ⟨hgo'.graph, hgo'.path.mono dropMoves_subset⟩ fun fp sp' hsched =>
        .inr (.inr ⟨hsched, rfl, rfl⟩))
    obtain ⟨hdb, hdet, hschk⟩ := schkDeleteCb_becomes (c := c) hbx.graph hw
    refine ⟨F, S \ {sp}, hbx.trans hdb, ?_, fun j' hj' => ?_⟩
    · have hv : ∀ sp' ∈ S \ {sp}, w.schk sp' = u.schk sp' := fun sp' hsp' => by
        rw [hschk, Function.update_of_ne hsp'.2]
        exact congrFun hsil.1.schk sp'
      refine ⟨hnum.mono Set.sdiff_subset (fun sp' hsp' => by rw [hv sp' hsp'])
        fun sp' hsp' hash hmem => ?_, fun sp' hsp' => ?_⟩
      · rw [hdet.schedhash]
        change ∃ ht, v.schedhash.map _ = some ht ∧ _
        rw [hsil.2]
        exact mem_remove_chain hmem hsp'.2
      · rw [hv sp' hsp']
        exact hopen'.others sp' hsp'.1 hsp'.2
    · obtain rfl := Sum.inr.inj hj'
      exact ⟨hj, .inl rfl⟩
  · rw [not_and_or, not_or, not_not, not_not] at hrep
    obtain ⟨F', S', hb', hh', hnext⟩ := completeSched_becomes (j := { j with
      p := { j.p with linkNr := 0 } }) hb.graph hopen' (hrep.imp (by simpa using ·) And.left) hj h
    exact ⟨F', S', hb.trans hb', hh', hnext⟩

/-- **One round of `config_sched`.** -/
theorem configSchedRound_becomes {j : SchedJob} {r : ℕ ⊕ SchedJob} (hg : Graph F S none s)
    (hh : Hashed S s) (hj : j.sch.schedNr = j.i) (hi : j.i ≠ 0) (hspare : c → s.Spares j.i)
    (h : configSchedRound s j = some (r, t)) :
    ∃ F' S', Becomes c F' S' s t ∧ Hashed S' t ∧ ∀ j', r = .inr j' → j.Follows j' := by
  have hsil : Silent s s.nextId :=
    ⟨⟨⟨⟨rfl, rfl, rfl, rfl, rfl, id⟩, rfl, rfl, rfl⟩, rfl, rfl, rfl, le_rfl⟩, rfl, rfl, rfl⟩
  have hbu : Becomes c F S s s.nextId := hsil.becomes hg
  have hhu : Hashed S s.nextId := hh.congr (fun _ => rfl) (fun _ => rfl) (fun _ => rfl) rfl
  cases configSchedRound_cases h with
  | noMemory _ hv =>
    rcases findOrNewSched_becomes (c := c) hbu.graph hhu hj hi hspare hv with
      ⟨-, hb, hh'⟩ | ⟨sp, S', he, -⟩
    · exact ⟨F, S, hbu.trans hb, hh', fun j' hj' => absurd hj' (by simp)⟩
    · exact absurd he (by simp)
  | @known kind _ _ _ _ _ hv hat =>
    rcases findOrNewSched_becomes (c := c) hbu.graph hhu hj hi hspare hv with
      ⟨he, -⟩ | ⟨sp, S', he, hb, hopen⟩
    · exact absurd he (by simp)
    · obtain rfl := Option.some.inj he
      obtain ⟨F₁, S₁, hb₁, hh₁, hnext⟩ := configSchedAt_becomes (j := j.normal kind) hb.graph hopen
        hj hat
      exact ⟨F₁, S₁, hbu.trans (hb.trans hb₁), hh₁, hnext⟩
  | pipe _ _ _ => exact ⟨F, S, hbu, hhu, fun j' hj' => SchedJob.next_follows hj'⟩
  | @old kind _ _ _ _ _ hfind _ _ hat =>
    obtain ⟨F₁, S₁, hb₁, hh₁, hnext⟩ := configSchedAt_becomes (c := c) (j := j.normal kind)
      hbu.graph (hhu.open hbu.graph hi hfind) hj hat
    exact ⟨F₁, S₁, hbu.trans hb₁, hh₁, hnext⟩
  | default _ _ =>
    refine ⟨F, S, hbu, hhu, fun j' hj' => ?_⟩
    obtain rfl := Sum.inr.inj hj'
    refine ⟨?_, .inl rfl⟩
    unfold SchedJob.wf2q
    dsimp only
    split_ifs <;> exact hj
  | unknown _ => exact ⟨F, S, hbu, hhu, fun j' hj' => absurd hj' (by simp)⟩

/-- The number of the FIFO twin is too large to have a twin. -/
theorem twin_toInt (hi : 0 < i.toInt) (hlt : i.toInt < dnMaxId.toInt) :
    dnMaxId.toInt ≤ (i + dnMaxId).toInt := by
  have hmax : dnMaxId.toInt = 65536 := by decide
  have hval : dnMaxId.toNat = 65536 := by decide
  have hcond := BitVec.toInt_eq_toNat_cond i
  have hcond' := BitVec.toInt_eq_toNat_cond (i + dnMaxId)
  have hlti := i.isLt
  rw [BitVec.toNat_add, hval] at hcond'
  rw [hmax] at hlt ⊢
  split_ifs at hcond hcond' <;> omega

/-- **`config_sched`** from the label `again`. -/
theorem configSchedLoop_becomes {n err : ℕ} {j : SchedJob} (hpos : 0 < i.toInt)
    (hlt : i.toInt < dnMaxId.toInt) (hg : Graph F S none s) (hh : Hashed S s)
    (hj : j.sch.schedNr = j.i) (hji : j.i = i ∨ j.i = i + dnMaxId)
    (hspare : c → s.Spares i ∧ s.Spares (i + dnMaxId))
    (h : configSchedLoop n s j = some (err, t)) :
    ∃ F' S', Becomes c F' S' s t ∧ Hashed S' t := by
  induction n generalizing s F S j with
  | zero => exact absurd h (by simp [configSchedLoop])
  | succ n ih =>
    obtain ⟨⟨r, u⟩, hround, h⟩ := Option.bind_eq_some_iff.1 h
    have hi : j.i ≠ 0 := by
      rcases hji with he | he <;> rw [he]
      · exact ne_zero_of_toInt_pos hpos
      · exact add_dnMaxId_ne_zero hpos hlt
    obtain ⟨F₁, S₁, hb, hh₁, hnext⟩ := configSchedRound_becomes hg hh hj hi (fun hc => by
      rcases hji with he | he <;> rw [he]
      · exact (hspare hc).1
      · exact (hspare hc).2) hround
    rcases r with err' | j'
    · obtain ⟨rfl, rfl⟩ := Prod.mk.inj (Option.some.inj h)
      exact ⟨F₁, S₁, hb, hh₁⟩
    · obtain ⟨hj', hfollow⟩ := hnext j' rfl
      have hji' : j'.i = i ∨ j'.i = i + dnMaxId := by
        rcases hfollow with he | ⟨he, hlt'⟩
        · rwa [he]
        · rcases hji with hi' | hi'
          · exact .inr (by rw [he, hi'])
          · rw [hi'] at hlt'
            exact absurd hlt' (not_lt.2 (twin_toInt hpos hlt))
      obtain ⟨F₂, S₂, hb₂, hh₂⟩ := ih hb.graph hh₁ hj' hji' (fun hc =>
        ⟨hb.calm.spares hg hb.graph hh₁.toNumbered (ne_zero_of_toInt_pos hpos) (hspare hc).1,
          hb.calm.spares hg hb.graph hh₁.toNumbered (add_dnMaxId_ne_zero hpos hlt) (hspare hc).2⟩) h
      exact ⟨F₂, S₂, hb.trans hb₂, hh₂⟩

/-- **`config_sched`**. -/
theorem configSched_becomes {x : DnSch} {err : ℕ} (hg : Graph F S none s) (hh : Hashed S s)
    (hspare : c → s.Spares x.schedNr ∧ s.Spares (x.schedNr + dnMaxId))
    (h : configSched s x = some (err, t)) : ∃ F' S', Becomes c F' S' s t ∧ Hashed S' t := by
  unfold configSched at h
  dsimp only at h
  split at h
  · obtain ⟨-, rfl⟩ := Prod.mk.inj (Option.some.inj h)
    exact ⟨F, S, .refl hg, hh⟩
  · next hbad =>
    rw [not_or, not_or, not_le, not_le] at hbad
    obtain ⟨-, hpos, hlt⟩ := hbad
    obtain ⟨hsil, -, hsh⟩ := needSchedhash_spec s
    have hb : Becomes c F S s (needSchedhash s) := hsil.becomes hg
    have hh' : Hashed S (needSchedhash s) := by
      refine hh.mono subset_rfl (fun sp _ => by rw [hsil.schk]; exact ⟨rfl, rfl, rfl⟩)
        fun sp _ hash hmem => ?_
      rcases hsh with hnone | heq
      · rw [hnone] at hmem
        exact absurd hmem (by simp)
      · rwa [heq]
    obtain ⟨F₁, S₁, hb₁, hh₁⟩ := configSchedLoop_becomes hpos hlt hb.graph hh' rfl (.inl rfl)
      (fun hc => ⟨hb.calm.spares hg hb.graph hh'.toNumbered (ne_zero_of_toInt_pos hpos) (hspare hc).1,
        hb.calm.spares hg hb.graph hh'.toNumbered (add_dnMaxId_ne_zero hpos hlt) (hspare hc).2⟩) h
    exact ⟨F₁, S₁, hb.trans hb₁, hh₁⟩

/-! ### Profiles -/

/-- One round of the loop in `config_profile`. -/
theorem setProfile_goes {K : SiPtr → Prop} {pf : DnProfile} {ok : Bool} (hg : Graph F S none s)
    (hsp : sp ∈ S) (h : setProfile s sp pf = (ok, t)) :
    Goes (confMoves K) F S none s t ∧ SameNumbers s t := by
  have hset : ∀ {v : Dn} (o : Option DnProfile), Silent s v → SameLists s v →
      Goes (confMoves K) F S none s (v.setSchk sp { s.schk sp with profile := o }) ∧
        SameNumbers s (v.setSchk sp { s.schk sp with profile := o }) := by
    intro v o hv hl
    have hgv := hv.goes (A := confMoves K) hg trivial
    obtain ⟨hgo, hsame⟩ := setSchk_goes (K := K) (x := { s.schk sp with profile := o }) hgv.graph hsp
      (by rw [hv.schk]) (by rw [hv.schk]) (by rw [hv.schk]) (by rw [hv.schk]) (by rw [hv.schk])
    refine ⟨hgv.trans hgo, SameNumbers.trans ⟨hl.fshash, hl.schedhash, ?_, ?_, ?_, ?_, ?_⟩ hsame⟩
    · exact fun sp' => by rw [hv.schk]
    · exact fun sp' => by rw [hv.schk]
    · exact fun sp' => by rw [hv.schk]
    · exact fun fp => by rw [hv.fsk]
    · exact fun fp => by rw [hv.fsk]
  unfold setProfile at h
  dsimp only at h
  split at h
  · obtain ⟨-, rfl⟩ := Prod.mk.inj h
    exact hset _ (.refl s) (.refl s)
  · split at h
    · obtain ⟨-, rfl⟩ := Prod.mk.inj h
      exact hset _ (.refl s) (.refl s)
    · obtain ⟨-, rfl⟩ := Prod.mk.inj h
      exact hset _ (silent_malloc s) ⟨rfl, rfl, rfl, rfl⟩

/-- **`config_profile`**. -/
theorem configProfile_goes {K : SiPtr → Prop} {pf : DnProfile} {err : ℕ} (hg : Graph F S none s)
    (h : configProfile s pf = (err, t)) : Goes (confMoves K) F S none s t ∧ SameNumbers s t := by
  have hid : ∀ {v : Dn}, Graph F S none v →
      Goes (confMoves K) F S none v { v with id := v.id + 1 } ∧
        SameNumbers v { v with id := v.id + 1 } := fun hgv =>
    ⟨⟨hgv.of_eq rfl rfl rfl rfl rfl le_rfl, .single (.quiet
      ⟨⟨rfl, rfl, rfl, rfl, rfl, id⟩, rfl, rfl, rfl⟩ fun _ => rfl) trivial⟩,
      ⟨rfl, rfl, fun _ => rfl, fun _ => rfl, fun _ => rfl, fun _ => rfl, fun _ => rfl⟩⟩
  unfold configProfile at h
  dsimp only at h
  split at h
  · obtain ⟨-, rfl⟩ := Prod.mk.inj h
    exact ⟨.refl hg, .refl s⟩
  next hbad =>
  rw [not_or, not_or, not_le, not_le] at hbad
  obtain ⟨-, hpos, hlt⟩ := hbad
  split at h
  · obtain ⟨-, rfl⟩ := Prod.mk.inj h
    exact ⟨.refl hg, .refl s⟩
  next sp hfind =>
  have hsp := (hg.mem_of_findSched hfind (ne_zero_of_toInt_pos hpos)).1
  obtain ⟨hgo₀, hsame₀⟩ := hid hg
  split at h
  · next u hset =>
    obtain ⟨-, rfl⟩ := Prod.mk.inj h
    obtain ⟨hgo, hsame⟩ := setProfile_goes (K := K) hgo₀.graph hsp hset
    exact ⟨hgo₀.trans hgo, hsame₀.trans hsame⟩
  next u hset =>
  obtain ⟨hgo, hsame⟩ := setProfile_goes (K := K) hgo₀.graph hsp hset
  have hgo' := hgo₀.trans hgo
  have hsame' := hsame₀.trans hsame
  split at h
  · obtain ⟨-, rfl⟩ := Prod.mk.inj h
    exact ⟨hgo', hsame'⟩
  next sp' hfind' =>
  have hsp' := (hgo'.graph.mem_of_findSched hfind' (add_dnMaxId_ne_zero hpos hlt)).1
  obtain ⟨hgo₁, hsame₁⟩ := hid hgo'.graph
  split at h
  all_goals
    next v hset' =>
    obtain ⟨-, rfl⟩ := Prod.mk.inj h
    obtain ⟨hgo₂, hsame₂⟩ := setProfile_goes (K := K) hgo₁.graph hsp' hset'
    exact ⟨hgo'.trans (hgo₁.trans hgo₂), hsame'.trans (hsame₁.trans hsame₂)⟩

/-! ### Messages -/

/-- An object of a message that deletes no queue with packets unless its instance goes as well. -/
def Dn.Careful (s : Dn) : DnObj → Prop
  | .delete oid a =>
    (oid.subtype = 1 → s.Spares (a.setWidth 32) ∧ s.Spares (a.setWidth 32 + dnMaxId)) ∧
      (oid.subtype = 2 → ∀ fp, s.findFs (a.setWidth 32) = some fp → s.Idle fp)
  | .sch x => s.Spares x.schedNr ∧ s.Spares (x.schedNr + dnMaxId)
  | .fs x => ∀ fp, s.findFs x.head.fsNr = some fp →
      (s.fsk fp).fs = (x.bounded s.parms).inherit (s.fsk fp).fs ∨ s.Idle fp
  | _ => True

/-- The objects of a message, each in the state in which it is handled. -/
def Dn.CarefulAll : List DnObj → Dn → Prop
  | [], _ => True
  | o :: os, s => s.Careful o ∧ ∀ t, doObject s o = some (0, t) → CarefulAll os t

/-- **`delete_fs`** as a stage. -/
theorem deleteFs_becomes {err : ℕ} (hg : Graph F S none s)
    (hidle : c → ∀ fp, s.findFs i = some fp → s.Idle fp) (h : deleteFs s i = some (err, t)) :
    ∃ F' ⊆ F, Becomes c F' S s t ∧ SameScheds s t := by
  obtain ⟨F', hF', hgo, hsame, -, hfsk⟩ := deleteFs_goes (K := fun _ => ¬ c) hg (fun fp hfp a ha => by
    by_cases hc : c
    · exact .inl (hidle hc fp hfp a ha)
    · exact .inr hc) h
  refine ⟨F', hF', .of_stage hg ⟨hgo.graph, hgo.path.mono dropMoves_subset⟩ (fun hc _ _ h => h hc)
    fun fp sp hsched => .inr (.inr ?_), hsame⟩
  rcases hfsk with ⟨-, heq⟩ | ⟨fp', -, -, heq⟩
  · rw [heq] at hsched ⊢
    exact ⟨hsched, rfl, by rw [hsame.sch]⟩
  · have hne : fp ≠ fp' := by
      rintro rfl
      rw [heq, Function.update_self] at hsched
      exact absurd hsched (by simp)
    rw [heq, Function.update_of_ne hne] at hsched ⊢
    exact ⟨hsched, rfl, by rw [hsame.sch]⟩

/-- **An object of a message.** -/
theorem doObject_becomes {o : DnObj} {err : ℕ} (hg : Graph F S none s) (hh : Hashed S s)
    (hcare : c → s.Careful o) (h : doObject s o = some (err, t)) :
    ∃ F' S', Becomes c F' S' s t ∧ Hashed S' t := by
  cases doObject_handled h with
  | skip _ => exact ⟨F, S, .refl hg, hh⟩
  | flush hf =>
    obtain ⟨F', -, hb⟩ := dummynetFlush_becomes (c := c) hg hh hf
    exact ⟨F', ∅, hb, ⟨⟨nofun, nofun, nofun⟩, nofun⟩⟩
  | link hl =>
    obtain ⟨hgo, hsame⟩ := configLink_goes (K := fun _ => False) hg hl
    exact ⟨F, S, hsame.becomes hg hgo, hsame.hashed hh⟩
  | profile hpf =>
    obtain ⟨hgo, hsame⟩ := configProfile_goes (K := fun _ => False) hg hpf
    exact ⟨F, S, hsame.becomes hg hgo, hsame.hashed hh⟩
  | sch hc => exact configSched_becomes hg hh hcare hc
  | fs hc =>
    obtain ⟨F', -, hb, hsame⟩ := configFs_becomes hg hcare hc
    exact ⟨F', S, hb, hsame.hashed hh⟩
  | deleteLink _ hsub hu hv =>
    obtain ⟨F₁, -, S₁, -, hb₁, hh₁⟩ := deleteSchk_becomes (c := c) hg hh
      (fun hc _ => ((hcare hc).1 hsub).1) hu
    obtain ⟨F₂, -, S₂, -, hb₂, hh₂⟩ := deleteSchk_becomes (c := c) hb₁.graph hh₁
      (fun hc hne => hb₁.calm.spares hg hb₁.graph hh₁.toNumbered hne ((hcare hc).1 hsub).2) hv
    exact ⟨F₂, S₂, hb₁.trans hb₂, hh₂⟩
  | deleteFs hsub hd =>
    obtain ⟨F', -, hb, hsame⟩ := deleteFs_becomes (c := c) hg (fun hc => (hcare hc).2 hsub) hd
    exact ⟨F', S, hb, hsame.hashed hh⟩

/-- **The objects of a message.** -/
theorem doObjects_becomes {os : List DnObj} {l err : ℕ} (hg : Graph F S none s) (hh : Hashed S s)
    (hcare : c → s.CarefulAll os) (h : doObjects os l s = some (err, t)) :
    ∃ F' S', Becomes c F' S' s t ∧ Hashed S' t := by
  induction os generalizing s F S l with
  | nil =>
    obtain ⟨-, rfl⟩ := Prod.mk.inj (Option.some.inj h)
    exact ⟨F, S, .refl hg, hh⟩
  | cons o os ih =>
    unfold doObjects at h
    split_ifs at h
    · obtain ⟨-, rfl⟩ := Prod.mk.inj (Option.some.inj h)
      exact ⟨F, S, .refl hg, hh⟩
    · obtain ⟨-, rfl⟩ := Prod.mk.inj (Option.some.inj h)
      exact ⟨F, S, .refl hg, hh⟩
    · obtain ⟨⟨err', u⟩, hu, h⟩ := Option.bind_eq_some_iff.1 h
      obtain ⟨F₁, S₁, hb, hh₁⟩ := doObject_becomes hg hh (fun hc => (hcare hc).1) hu
      dsimp only at h
      split_ifs at h with hzero
      · obtain ⟨-, rfl⟩ := Prod.mk.inj (Option.some.inj h)
        exact ⟨F₁, S₁, hb, hh₁⟩
      · obtain rfl : err' = 0 := not_not.1 hzero
        obtain ⟨F₂, S₂, hb₂, hh₂⟩ := ih hb.graph hh₁ (fun hc => (hcare hc).2 u hu) h
        exact ⟨F₂, S₂, hb.trans hb₂, hh₂⟩

/-- **`do_config`**. -/
theorem doConfig_becomes {os : List DnObj} {l err : ℕ} (hg : Graph F S none s) (hh : Hashed S s)
    (hcare : c → s.CarefulAll os) (h : doConfig s os l = some (err, t)) :
    ∃ F' S', Becomes c F' S' s t ∧ Hashed S' t := by
  unfold doConfig at h
  split at h
  · obtain ⟨-, rfl⟩ := Prod.mk.inj (Option.some.inj h)
    exact ⟨F, S, .refl hg, hh⟩
  · split_ifs at h
    · obtain ⟨-, rfl⟩ := Prod.mk.inj (Option.some.inj h)
      exact ⟨F, S, .refl hg, hh⟩
    · exact doObjects_becomes hg hh hcare h

end Dummynet
