import Dummynet.System.Teardown

/-!
# The configuration commands

The handlers of the configuration commands, as stages through states with a graph.

## Main results

* `configLink_becomes`, `configFs_goes`, `configSched_becomes`, `doConfig_becomes`.
-/

namespace Dummynet

variable {F : Set FskPtr} {S : Set SchkPtr} {L : Option FskPtr} {s t u : Dn} {p : SiPtr}
  {fp : FskPtr} {sp : SchkPtr} {c : Prop}

/-! ### RED -/

/-- Only what RED computed for flowsets has changed. -/
structure Retuned (s t : Dn) : Prop extends Quiet s t, SameLists s t where
  brk : s.brk ≤ t.brk
  head : ∀ fp, (t.fsk fp).head = (s.fsk fp).head
  sched : ∀ fp, (t.fsk fp).sched = (s.fsk fp).sched
  qht : ∀ fp, (t.fsk fp).qht = (s.fsk fp).qht
  par : ∀ fp, (t.fsk fp).data.fs.par = (s.fsk fp).data.fs.par
  zero : ∀ fp, s.fsk fp = {} → t.fsk fp = {}

theorem Retuned.refl (s : Dn) : Retuned s s :=
  ⟨.refl s, .refl s, le_rfl, fun _ => rfl, fun _ => rfl, fun _ => rfl, fun _ => rfl, fun _ => id⟩

theorem Retuned.trans (h : Retuned s t) (h' : Retuned t u) : Retuned s u :=
  ⟨h.toQuiet.trans h'.toQuiet, h.toSameLists.trans h'.toSameLists, h.brk.trans h'.brk,
    fun fp => (h'.head fp).trans (h.head fp), fun fp => (h'.sched fp).trans (h.sched fp),
    fun fp => (h'.qht fp).trans (h.qht fp), fun fp => (h'.par fp).trans (h.par fp),
    fun fp hz => h'.zero fp (h.zero fp hz)⟩

theorem Retuned.graph (h : Retuned s t) (hg : Graph F S L s) : Graph F S L t := by
  refine hg.congr h.brk h.sis (fun o => ?_) (fun fp => ?_) (fun fp hfp => ?_) (fun sp hsp => ?_)
    (fun sp => by rw [h.schk]) (fun p _ => by rw [h.schk]) fun p _ => ?_
  · cases o with
    | none => exact h.fsu
    | some sp => rw [Dn.fskList, h.schk, Dn.fskList]
  · refine ⟨h.sched fp, by rw [h.qht], fun hn => ?_, h.par fp⟩
    rw [h.qht]
    exact hn
  · exact h.zero fp (hg.fsk_zero fp hfp)
  · rw [h.schk]
    exact hg.schk_zero sp hsp
  · rw [h.inst]
    exact .refl _

theorem Retuned.goes (h : Retuned s t) (hg : Graph F S L s) {K : SiPtr → Prop} :
    Goes (confMoves K) F S L s t :=
  ⟨h.graph hg, .single (.conf h.toQuiet) trivial⟩

/-- A write to a flowset that keeps its references. -/
theorem retuned_setFsk {s₁ : Dn} {f : Fsk} (hs : Silent s s₁) (hl : SameLists s s₁)
    (hne : s.fsk fp ≠ {}) (hhead : f.head = (s.fsk fp).head) (hsched : f.sched = (s.fsk fp).sched)
    (hqht : f.qht = (s.fsk fp).qht) (hpar : f.data.fs.par = (s.fsk fp).data.fs.par) :
    Retuned s (s₁.setFsk fp f) := by
  have hfsk : ∀ fp', fp' ≠ fp → (s₁.setFsk fp f).fsk fp' = s.fsk fp' := fun fp' h => by
    rw [← hs.fsk]
    exact Function.update_of_ne h ..
  have hself : (s₁.setFsk fp f).fsk fp = f := Function.update_self ..
  refine ⟨⟨⟨hs.inst, hs.sis, hs.cfg, hs.siCount, hs.ioPkt, hs.malloc⟩, hs.evheap, hs.oidId, hs.log⟩,
    ⟨hl.fsu, hl.schk, hl.fshash, hl.schedhash⟩, hs.brk, fun fp' => ?_, fun fp' => ?_,
    fun fp' => ?_, fun fp' => ?_, fun fp' hz => ?_⟩
  all_goals
    rcases eq_or_ne fp' fp with rfl | h
    · first
      | exact absurd hz hne
      | rw [hself]; assumption
    · rw [hfsk fp' h]
      try exact hz

/-- **`config_red`**. -/
theorem configRed_retuned (h : configRed s fp = some t) : Retuned s t := by
  unfold configRed at h
  dsimp only at h
  obtain ⟨sp, hsp, h⟩ := Option.bind_eq_some_iff.1 h
  have hne : s.fsk fp ≠ {} := fun h0 => by
    rw [h0] at hsp
    exact absurd hsp (by simp)
  have hs := silent_malloc s
  split at h
  · exact absurd h (by simp)
  · split at h
    · exact absurd h (by simp)
    · split at h
      · obtain rfl := Option.some.inj h
        exact retuned_setFsk hs ⟨rfl, rfl, rfl, rfl⟩ hne rfl rfl rfl rfl
      · obtain rfl := Option.some.inj h
        refine retuned_setFsk ?_ ⟨rfl, rfl, rfl, rfl⟩ hne rfl rfl rfl rfl
        exact ⟨⟨⟨⟨rfl, rfl, rfl, rfl, rfl, hs.malloc⟩, rfl, rfl, rfl⟩, rfl, rfl, rfl, le_rfl⟩, rfl, rfl,
          rfl⟩

theorem configRedIf_retuned (h : configRedIf s fp = some t) : Retuned s t := by
  unfold configRedIf at h
  split_ifs at h
  · exact configRed_retuned h
  · obtain rfl := Option.some.inj h
    exact .refl s

/-- What a relation keeps step by step it keeps along a list. -/
theorem foldlM_rel {α σ : Type} {R : σ → σ → Prop} {f : σ → α → Option σ} (hrefl : ∀ s, R s s)
    (htrans : ∀ {s t u}, R s t → R t u → R s u) (hf : ∀ {s a t}, f s a = some t → R s t)
    {l : List α} {s t : σ} (h : l.foldlM f s = some t) : R s t := by
  induction l generalizing s with
  | nil =>
    obtain rfl := Option.some.inj h
    exact hrefl s
  | cons a as ih =>
    rw [List.foldlM_cons] at h
    obtain ⟨u, hu, h⟩ := Option.bind_eq_some_iff.1 h
    exact htrans (hf hu) (ih h)

/-- **`update_red`**. -/
theorem updateRed_retuned (h : updateRed s sp = some t) : Retuned s t :=
  foldlM_rel Retuned.refl Retuned.trans configRedIf_retuned h

/-! ### Attaching -/

/-- Flowsets without a scheduler may have been attached to `sp`. -/
structure AttachedTo (sp : SchkPtr) (s t : Dn) : Prop extends SameScheds s t where
  fshash : t.fshash = s.fshash
  head : ∀ fp, (t.fsk fp).head = (s.fsk fp).head
  sched : ∀ fp, (t.fsk fp).sched = (s.fsk fp).sched ∨ (s.fsk fp).sched = none ∧
    (t.fsk fp).sched = some sp ∧ (s.fsk fp).head.schedNr = (s.schk sp).sch.schedNr

theorem AttachedTo.refl (sp : SchkPtr) (s : Dn) : AttachedTo sp s s :=
  ⟨.refl s, rfl, fun _ => rfl, fun _ => .inl rfl⟩

theorem AttachedTo.trans (h : AttachedTo sp s t) (h' : AttachedTo sp t u) : AttachedTo sp s u := by
  refine ⟨h.toSameScheds.trans h'.toSameScheds, h'.fshash.trans h.fshash,
    fun fp => (h'.head fp).trans (h.head fp), fun fp => ?_⟩
  rcases h'.sched fp with heq | ⟨hnone, hsome, hnr⟩
  · rw [heq]
    exact h.sched fp
  · rw [h.head, h.sch] at hnr
    rcases h.sched fp with heq | ⟨hnone', hsome', -⟩
    · exact .inr ⟨heq ▸ hnone, hsome, hnr⟩
    · rw [hsome'] at hnone
      exact absurd hnone (by simp)

/-- **`fsk_attach`**. -/
theorem fskAttach_goes {K : SiPtr → Prop} (hg : Graph F S L s)
    (hnr : (s.fsk fp).head.schedNr = (s.schk sp).sch.schedNr) (h : fskAttach s fp sp = some t) :
    Goes (confMoves K) F S L s t ∧ AttachedTo sp s t ∧ (t.fsk fp).sched = some sp ∧
      (t.fsk fp).qht.list = [] ∧ ∀ fp', fp' ≠ fp → (t.fsk fp').sched = (s.fsk fp').sched := by
  obtain ⟨kind, hkind, h⟩ := Option.bind_eq_some_iff.1 h
  have hsp : sp ∈ S := by
    by_contra hsp
    rw [hg.schk_zero sp hsp] at hkind
    exact absurd hkind (by simp)
  dsimp only at h
  split_ifs at h with hfsu
  · set f := (s.fsk fp).attached sp kind (s.schk sp).sch
    set u := ({ s with fsu := s.fsu.erase fp }.setFskList (fp :: (s.schk sp).fskList)
      (some sp)).setFsk fp f with hu
    have hred : configRedIf u fp = some t := by
      have hsch : (({ s with fsu := s.fsu.erase fp }.setFskList (fp :: (s.schk sp).fskList)
          (some sp)).schk sp).sch = (s.schk sp).sch := by
        simp [Dn.setFskList, Dn.setSchk]
      rw [hu, ← h]
      simp only [Option.bind_eq_bind, Option.bind_some, hsch]
      rfl
    have hret := configRedIf_retuned hred
    have hgu : Graph F S L u := hg.attach hfsu hsp rfl trivial rfl
    have hgo := hret.goes (K := K) hgu
    have hschku : SameScheds s u := by
      refine ⟨fun sp' => ?_, fun sp' => ?_, fun sp' => ?_, fun sp' => ?_, fun sp' => ?_, rfl⟩ <;>
      · rcases eq_or_ne sp' sp with rfl | hne
        · simp [hu, Dn.setFskList, Dn.setSchk, Dn.setFsk]
        · simp [hu, Dn.setFskList, Dn.setSchk, Dn.setFsk, hne]
    have hfsk : ∀ fp', fp' ≠ fp → u.fsk fp' = s.fsk fp' := fun fp' hne =>
      Function.update_of_ne hne ..
    have hself : u.fsk fp = f := Function.update_self ..
    have hpath : Path (confMoves K) s u :=
      .single (.conf ⟨⟨rfl, rfl, rfl, rfl, rfl, id⟩, rfl, rfl, rfl⟩) trivial
    have hother : ∀ fp', fp' ≠ fp → (t.fsk fp').sched = (s.fsk fp').sched := fun fp' hne => by
      rw [hret.sched, hfsk fp' hne]
    have hmine : (t.fsk fp).sched = some sp := by
      rw [hret.sched, hself]
      rfl
    refine ⟨⟨hgo.graph, hpath.trans hgo.path⟩, ⟨hschku.trans (.of_eq hret.schk hret.schedhash),
      hret.fshash, fun fp' => ?_, fun fp' => ?_⟩, hmine, by rw [hret.qht, hself]; rfl, hother⟩
    · rw [hret.head]
      rcases eq_or_ne fp' fp with rfl | hne
      · rw [hself]
        rfl
      · rw [hfsk fp' hne]
    · rcases eq_or_ne fp' fp with rfl | hne
      · exact .inr ⟨((hg.listed none fp').1 hfsu).2.2, hmine, hnr⟩
      · exact .inl (hother fp' hne)
  · exact absurd h (by simp)

/-- **`update_fs`**. -/
theorem updateFs_goes {K : SiPtr → Prop} (hg : Graph F S L s) (h : updateFs s sp = some t) :
    Goes (confMoves K) F S L s t ∧ AttachedTo sp s t := by
  refine foldlM_rel (R := fun s t => Graph F S L s → Goes (confMoves K) F S L s t ∧
    AttachedTo sp s t) (fun s hg => ⟨.refl hg, .refl sp s⟩) (fun h h' hg => ?_)
    (fun {s fp t} h hg => ?_) h hg
  · obtain ⟨hgo, hat⟩ := h hg
    obtain ⟨hgo', hat'⟩ := h' hgo.graph
    exact ⟨hgo.trans hgo', hat.trans hat'⟩
  · split_ifs at h with hnr
    · obtain rfl := Option.some.inj h
      exact ⟨.refl hg, .refl sp s⟩
    · obtain ⟨hgo, hat, -⟩ := fskAttach_goes hg (not_not.1 hnr).symm h
      exact ⟨hgo, hat⟩

/-! ### Links -/

theorem Retuned.sameNumbers (h : Retuned s t) : SameNumbers s t := by
  refine ⟨h.fshash, h.schedhash, ?_, ?_, ?_, h.head, h.sched⟩ <;> exact fun sp => by rw [h.schk]

theorem ne_zero_of_toInt_pos {i : BitVec 32} (hi : 0 < i.toInt) : i ≠ 0 := by
  rintro rfl
  exact absurd hi (by decide)

/-- A write to a scheduler that keeps its references. -/
theorem setSchk_goes {K : SiPtr → Prop} {x : Schk} (hg : Graph F S L s) (hsp : sp ∈ S)
    (hsch : x.sch = (s.schk sp).sch) (hfp : x.fp = (s.schk sp).fp) (hfs : x.fs = (s.schk sp).fs)
    (hlist : x.fskList = (s.schk sp).fskList) (hsiht : x.siht = (s.schk sp).siht) :
    Goes (confMoves K) F S L s (s.setSchk sp x) ∧ SameNumbers s (s.setSchk sp x) := by
  refine ⟨⟨hg.setSchk hsp hlist hsiht fun _ => hfp, .single (.conf
    ⟨⟨rfl, rfl, rfl, rfl, rfl, id⟩, rfl, rfl, rfl⟩) trivial⟩, rfl, rfl, fun sp' => ?_,
    fun sp' => ?_, fun sp' => ?_, fun _ => rfl, fun _ => rfl⟩
  all_goals
    rcases eq_or_ne sp' sp with rfl | hne
    · simp [Dn.setSchk, hsch, hfp, hfs]
    · simp [Dn.setSchk, hne]

/-- A write to the credit of an instance. -/
theorem credit_goes {A : Set MoveKind} (hg : Graph F S L s) (hA : MoveKind.credit ∈ A)
    (credit schedTime idleTime : BitVec 64) :
    Goes A F S L s (s.setInst p { s.inst p with
      credit := credit, schedTime := schedTime, idleTime := idleTime }) :=
  ⟨hg.setInst fun _ => ⟨⟨rfl, rfl, rfl, id⟩, rfl, rfl, fun _ _ => rfl⟩,
    .single (.credit p credit schedTime idleTime) hA⟩

/-- **`schk_reset_credit`**. -/
theorem schkResetCredit_goes {K : SiPtr → Prop} (sp : SchkPtr) (hg : Graph F S L s) :
    Goes (confMoves K) F S L s (schkResetCredit s sp) ∧ SameNumbers s (schkResetCredit s sp) := by
  unfold schkResetCredit
  generalize (s.schk sp).siht.list = l
  induction l generalizing s with
  | nil => exact ⟨.refl hg, .refl s⟩
  | cons p ps ih =>
    have hgo : Goes (confMoves K) F S L s (siResetCredit s p) := credit_goes (A := confMoves K) hg trivial _ _ _
    have hsame : SameNumbers s (siResetCredit s p) :=
      ⟨rfl, rfl, fun _ => rfl, fun _ => rfl, fun _ => rfl, fun _ => rfl, fun _ => rfl⟩
    obtain ⟨hgo', hsame'⟩ := ih hgo.graph
    exact ⟨hgo.trans hgo', hsame.trans hsame'⟩

/-- One round of the loop in `config_link`. -/
theorem setLink_goes {K : SiPtr → Prop} {i : BitVec 32} {l : DnLink} (hg : Graph F S L s)
    (hsp : sp ∈ S) (h : setLink s sp i l = some t) :
    Goes (confMoves K) F S L s t ∧ SameNumbers s t := by
  have hfinish : ∀ {u v : Dn} {y : DnLink}, Retuned u v → Graph F S L u →
      Goes (confMoves K) F S L u
        (schkResetCredit (v.setSchk sp { v.schk sp with link := y }) sp) ∧
      SameNumbers u (schkResetCredit (v.setSchk sp { v.schk sp with link := y }) sp) := by
    intro u v y hret hgu
    have hgo := hret.goes (K := K) hgu
    obtain ⟨hgo₁, hsame₁⟩ := setSchk_goes (K := K) (x := { v.schk sp with link := y }) hgo.graph hsp
      rfl rfl rfl rfl rfl
    obtain ⟨hgo₂, hsame₂⟩ := schkResetCredit_goes (K := K) sp hgo₁.graph
    exact ⟨hgo.trans (hgo₁.trans hgo₂), hret.sameNumbers.trans (hsame₁.trans hsame₂)⟩
  unfold setLink at h
  dsimp only at h
  obtain ⟨hgo₀, hsame₀⟩ := setSchk_goes (K := K) (x := { s.schk sp with
    profile := none
    link := { (s.schk sp).link with
      oid := l.oid, linkNr := i, delay := l.delay, bandwidth := l.bandwidth } }) hg hsp
    rfl rfl rfl rfl rfl
  split_ifs at h with hbw
  · obtain ⟨v, hv, h⟩ := Option.bind_eq_some_iff.1 h
    obtain rfl := Option.some.inj h
    obtain ⟨hgo₁, hsame₁⟩ := hfinish (updateRed_retuned hv) hgo₀.graph
    exact ⟨hgo₀.trans hgo₁, hsame₀.trans hsame₁⟩
  · obtain rfl := Option.some.inj h
    obtain ⟨hgo₁, hsame₁⟩ := hfinish (.refl _) hgo₀.graph
    exact ⟨hgo₀.trans hgo₁, hsame₀.trans hsame₁⟩

theorem add_dnMaxId_ne_zero {i : BitVec 32} (hi : 0 < i.toInt) (hlt : i.toInt < dnMaxId.toInt) :
    i + dnMaxId ≠ 0 := by
  have hmax : dnMaxId.toInt = 65536 := by decide
  have hnat : i.toNat < 65536 := by
    have := BitVec.toInt_eq_toNat_cond i
    have := i.isLt
    split_ifs at * <;> omega
  intro h0
  have hval : dnMaxId.toNat = 65536 := by decide
  have hsum := congrArg BitVec.toNat h0
  rw [BitVec.toNat_add, hval] at hsum
  change _ = 0 at hsum
  omega

/-- **`config_link`**. -/
theorem configLink_goes {K : SiPtr → Prop} {l : DnLink} {err : ℕ} (hg : Graph F S L s)
    (h : configLink s l = some (err, t)) : Goes (confMoves K) F S L s t ∧ SameNumbers s t := by
  unfold configLink at h
  dsimp only at h
  split_ifs at h with hbad
  · obtain ⟨-, rfl⟩ := Prod.mk.inj (Option.some.inj h)
    exact ⟨.refl hg, .refl s⟩
  · rw [not_or, not_or, not_le, not_le] at hbad
    obtain ⟨-, hpos, hlt⟩ := hbad
    split at h
    · obtain ⟨-, rfl⟩ := Prod.mk.inj (Option.some.inj h)
      exact ⟨.refl hg, .refl s⟩
    · next sp hfind =>
      obtain ⟨u, hu, h⟩ := Option.bind_eq_some_iff.1 h
      obtain ⟨hgo, hsame⟩ := setLink_goes (K := K) hg
        (hg.mem_of_findSched hfind (ne_zero_of_toInt_pos hpos)).1 hu
      split at h
      · obtain ⟨-, rfl⟩ := Prod.mk.inj (Option.some.inj h)
        exact ⟨hgo, hsame⟩
      · next sp' hfind' =>
        obtain ⟨v, hv, h⟩ := Option.bind_eq_some_iff.1 h
        obtain ⟨-, rfl⟩ := Prod.mk.inj (Option.some.inj h)
        obtain ⟨hgo', hsame'⟩ := setLink_goes (K := K) hgo.graph
          (hgo.graph.mem_of_findSched hfind' (add_dnMaxId_ne_zero hpos hlt)).1 hv
        refine ⟨⟨hgo'.graph.of_eq rfl rfl rfl rfl rfl le_rfl, (hgo.path.trans hgo'.path).trans
          (.single (.quiet ⟨⟨rfl, rfl, rfl, rfl, rfl, id⟩, rfl, rfl, rfl⟩ fun _ => rfl) trivial)⟩,
          hsame.trans ⟨hsame'.fshash, hsame'.schedhash, hsame'.sch, hsame'.fp, hsame'.fs,
            hsame'.head, hsame'.sched⟩⟩

/-! ### Flowsets -/

/-- The flowset `fp` has got the configuration `x` and the scheduler with its number. -/
structure ChangedFs (o : FskPtr) (x : FsConfig) (s t : Dn) : Prop extends SameScheds s t where
  fshash : t.fshash = s.fshash
  head : (t.fsk o).head = x.head
  attached : (t.fsk o).sched = s.findSched x.head.schedNr
  bare : (t.fsk o).qht.list = []
  other : ∀ o', o' ≠ o → (t.fsk o').head = (s.fsk o').head ∧ (t.fsk o').sched = (s.fsk o').sched

/-- The part of `config_fs` that gives a flowset a new configuration. -/
theorem changeFs_goes {K : SiPtr → Prop} {x : FsConfig} (hg : Graph F S none s) (hfp : fp ∈ F)
    (hidle : (s.fsk fp).sched ≠ none → ∀ a ∈ (s.fsk fp).qht.list, s.lenOf a = 0 ∨ K a.si)
    (h : changeFs s fp x = some t) :
    Goes (confMoves K) F S none s t ∧ ChangedFs fp x s t := by
  have hend : ∀ {u}, Goes (confMoves K) F S none s u → SameScheds s u → u.fshash = s.fshash →
      (u.fsk fp).sched = none → (∀ o', o' ≠ fp → (u.fsk o').head = (s.fsk o').head ∧
        (u.fsk o').sched = (s.fsk o').sched) →
      (s.findSched x.head.schedNr = none ∧ t = u.setFsk fp { u.fsk fp with
          head := x.head, data := { (u.fsk fp).data with fs := x.fs } } ∨
        ∃ sp, s.findSched x.head.schedNr = some sp ∧ fskAttach (u.setFsk fp { u.fsk fp with
          head := x.head, data := { (u.fsk fp).data with fs := x.fs } }) fp sp = some t) →
      Goes (confMoves K) F S none s t ∧ ChangedFs fp x s t := by
    intro u hgo hsame hfs hnone hother h
    have hqht := hgo.graph.qht_nil hnone
    set f : Fsk := { u.fsk fp with head := x.head, data := { (u.fsk fp).data with fs := x.fs } }
    have hg₁ := hgo.graph.setFsk_bare (f := f) hfp hqht hqht (hgo.graph.queues_nodup fp) rfl
    have hgo₁ : Goes (confMoves K) F S none s (u.setFsk fp f) :=
      ⟨hg₁, hgo.path.trans (.single (.conf ⟨⟨rfl, rfl, rfl, rfl, rfl, id⟩, rfl, rfl, rfl⟩) trivial)⟩
    have hself : (u.setFsk fp f).fsk fp = f := Function.update_self ..
    have hne : ∀ o', o' ≠ fp → (u.setFsk fp f).fsk o' = u.fsk o' := fun o' h =>
      Function.update_of_ne h ..
    have hsame₁ : SameScheds s (u.setFsk fp f) := hsame.trans (.of_eq rfl rfl)
    have hother₁ : ∀ o', o' ≠ fp → ((u.setFsk fp f).fsk o').head = (s.fsk o').head ∧
        ((u.setFsk fp f).fsk o').sched = (s.fsk o').sched := fun o' h => by
      rw [hne o' h]
      exact hother o' h
    rcases h with ⟨hfind, rfl⟩ | ⟨sp, hfind, h⟩
    · exact ⟨hgo₁, hsame₁, hfs, by rw [hself], by rw [hself, hfind]; exact hnone,
        by rw [hself]; exact hqht, hother₁⟩
    · obtain ⟨ht, -, hmatch⟩ := Option.bind_eq_some_iff.1 hfind
      have hnr : (s.schk sp).sch.schedNr = x.head.schedNr := by
        simpa using (DnHt.find_eq_some hmatch).2
      obtain ⟨hgo₂, hat, hmine, hbare, hrest⟩ := fskAttach_goes (K := K) hg₁ (by
        rw [hself, hsame₁.sch, hnr]) h
      refine ⟨hgo₁.trans hgo₂, hsame₁.trans hat.toSameScheds, hat.fshash.trans hfs, ?_, ?_, hbare,
        fun o' h => ?_⟩
      · rw [hat.head, hself]
      · rw [hmine, hfind]
      · rw [hat.head, hrest o' h]
        exact hother₁ o' h
  obtain ⟨u, ⟨hsome, v, hv, hu⟩ | ⟨hnot, rfl⟩, h⟩ := changeFs_cases h
  · obtain ⟨hgo, -, hfsk, hsame, hinst, hfs⟩ := fskUnlist_goes (K := K) hg hv
    obtain ⟨hgo', hschk, -, hfs', hsh', f, hf, hfsk'⟩ := fskDetach_goes hgo.graph hfp (fun a ha => by
      rw [hfsk] at ha
      rw [Dn.lenOf, hinst]
      exact hidle hsome a ha) hu
    refine hend ⟨hgo'.graph, (hgo.path.trans hgo'.path).mono dropMoves_subset⟩
      (hsame.trans (.of_eq hschk hsh')) (hfs'.trans hfs) ?_ (fun o' h => ?_) h
    · rw [hfsk', Function.update_self, hf.sched]
    · rw [hfsk', Function.update_of_ne h, hfsk]
      exact ⟨rfl, rfl⟩
  · exact hend (.refl hg) (.refl u) rfl hnot (fun _ _ => ⟨rfl, rfl⟩) h

/-- The objects of a hash table that may not exist. -/
def htList (ht : Option (DnHt ℕ)) : List ℕ := ht.elim [] DnHt.ordered

/-- A table that is made when there is none. -/
theorem htList_init {ok : Bool} {n : ℤ} : htList (dnHtInit ok n) = [] := by
  unfold dnHtInit
  split_ifs <;> simp [htList, DnHt.ordered, DnHt.chain]

/-- An object that is found is in the table. -/
theorem mem_htList_of_find {ht : Option (DnHt ℕ)} {hash : BitVec 32} {isMatch : ℕ → Bool} {o : ℕ}
    (h : dnHtFind ht hash isMatch = some o) : o ∈ htList ht ∧ isMatch o = true := by
  obtain ⟨t, rfl, hfind⟩ := Option.bind_eq_some_iff.1 h
  exact DnHt.find_eq_some hfind

/-- In a table without objects nothing is found. -/
theorem find_eq_none_of_nil {ht : Option (DnHt ℕ)} {hash : BitVec 32} {isMatch : ℕ → Bool}
    (h : htList ht = []) : dnHtFind ht hash isMatch = none := by
  by_contra hne
  obtain ⟨o, ho⟩ := Option.ne_none_iff_exists'.1 hne
  have := (mem_htList_of_find ho).1
  rw [h] at this
  exact absurd this List.not_mem_nil

/-- The hash table of the flowsets is there, if there is memory. -/
theorem needFshash_spec (s : Dn) : Plain s (needFshash s) ∧ (needFshash s).parms = s.parms ∧
    htList (needFshash s).fshash = htList s.fshash ∧ (needFshash s).schedhash = s.schedhash ∧
    ∀ i, (needFshash s).findFs i = s.findFs i := by
  unfold needFshash
  rcases hfs : s.fshash with _ | ht
  · have hs := silent_malloc s
    refine ⟨⟨⟨⟨rfl, rfl, rfl, rfl, rfl, hs.malloc⟩, rfl, rfl, rfl⟩, rfl, rfl, rfl, le_rfl⟩, rfl,
      ?_, rfl, fun i => ?_⟩
    · exact htList_init
    · exact (find_eq_none_of_nil htList_init).trans (find_eq_none_of_nil (by rw [hfs]; rfl)).symm
  · exact ⟨.refl s, rfl, by simp only [hfs], rfl, fun _ => rfl⟩

/-- A lookup in `fshash` that makes what it does not find: nothing was found or made, a flowset was
found, or a new one is in the table. -/
theorem findOrNewFs_goes {K : SiPtr → Prop} {i : BitVec 32} {o : Option FskPtr} {new : Bool}
    (hg : Graph F S none s) (h : findOrNewFs s i = (o, new, t)) :
    ∃ F', F ⊆ F' ∧ Goes (confMoves K) F' S none s t ∧ t.schk = s.schk ∧
      t.schedhash = s.schedhash ∧ t.parms = s.parms ∧ t.inst = s.inst ∧
      (∀ fp ∈ F, t.fsk fp = s.fsk fp) ∧
      (o = none ∧ t.fsk = s.fsk ∧ htList t.fshash = htList s.fshash ∨
        (∃ fp, o = some fp ∧ s.findFs i = some fp ∧ t = s) ∨
        ∃ fp, o = some fp ∧ s.findFs i = none ∧ fp ∉ F ∧ fp ∈ F' ∧ (t.fsk fp).sched = none ∧
          (t.fsk fp).head = { oid := { type := 2, len := sizeofFs } } ∧
          (∀ fp', fp' ≠ fp → t.fsk fp' = s.fsk fp') ∧
          ∀ fp', fp' ∈ htList t.fshash ↔ fp' = fp ∨ fp' ∈ htList s.fshash) := by
  unfold findOrNewFs at h
  split at h
  · obtain ⟨rfl, he⟩ := Prod.mk.inj h
    obtain ⟨rfl, rfl⟩ := Prod.mk.inj he
    exact ⟨F, subset_rfl, .refl hg, rfl, rfl, rfl, rfl, fun _ _ => rfl, .inl ⟨rfl, rfl, rfl⟩⟩
  · next ht hht =>
    split at h
    · next fp hfind =>
      obtain ⟨rfl, he⟩ := Prod.mk.inj h
      obtain ⟨rfl, rfl⟩ := Prod.mk.inj he
      exact ⟨F, subset_rfl, .refl hg, rfl, rfl, rfl, rfl, fun _ _ => rfl,
        .inr (.inl ⟨fp, rfl, hfind, rfl⟩)⟩
    · next hfind =>
      have hs := silent_malloc s
      obtain ⟨ok, u, hm⟩ : ∃ ok u, s.malloc = (ok, u) := ⟨_, _, rfl⟩
      have hu : u = s.malloc.2 := by rw [hm]
      have huparms : u.parms = s.parms := by rw [hu]; rfl
      have hush : u.schedhash = s.schedhash := by rw [hu]; rfl
      have hufs : u.fshash = s.fshash := by rw [hu]; rfl
      have hubrk : u.brk = s.brk := by rw [hu]; rfl
      rw [hm] at hs
      unfold fskNew at h
      simp only [hm] at h
      cases ok with
      | false =>
        simp only [Bool.false_eq_true, if_false] at h
        obtain ⟨rfl, he⟩ := Prod.mk.inj h
        obtain ⟨rfl, rfl⟩ := Prod.mk.inj he
        exact ⟨F, subset_rfl, hs.goes hg trivial, hs.schk, hush, huparms, hs.inst,
          fun fp _ => by rw [hs.fsk], .inl ⟨rfl, hs.fsk, by rw [hufs]⟩⟩
      | true =>
        simp only [if_true] at h
        obtain ⟨rfl, he⟩ := Prod.mk.inj h
        obtain ⟨rfl, rfl⟩ := Prod.mk.inj he
        have hnew : u.brk ∉ F := fun hmem => absurd (hg.fsk_lt _ hmem) (by rw [hubrk]; exact lt_irrefl _)
        have hother : ∀ fp, fp ≠ u.brk → Function.update u.fsk u.brk
            ({ head := { oid := { type := 2, len := sizeofFs } } } : Fsk) fp = s.fsk fp :=
          fun fp hne => by rw [Function.update_of_ne hne, hs.fsk]
        refine ⟨insert u.brk F, Set.subset_insert _ _, ⟨?_, (hs.path (A := confMoves K) trivial).trans
          (.single (.quiet ⟨⟨rfl, rfl, rfl, rfl, rfl, id⟩, rfl, rfl, rfl⟩ fun _ => rfl) trivial)⟩,
          hs.schk, hush,
          huparms, hs.inst, fun fp hfp => hother fp fun he => hnew (he ▸ hfp),
          .inr (.inr ⟨u.brk, rfl, hfind, hnew, Set.mem_insert _ _, ?_, ?_, hother, fun fp' => ?_⟩)⟩
        · exact (hs.graph hg).newFsk (s := u) (by simp)
            (f := { head := { oid := { type := 2, len := sizeofFs } } }) rfl trivial rfl rfl rfl rfl
            rfl rfl rfl
        · simp [Dn.alloc, Dn.setFsk]
        · simp [Dn.alloc, Dn.setFsk]
        · rw [hht]
          exact DnHt.mem_insert

/-- The flowset `fp` has been set up with the request `x` of `config_fs`. -/
structure SetUp (x : FsConfig) (o : FskPtr) (s t : Dn) : Prop extends SameScheds s t where
  hash : ∀ fp, fp ∈ htList t.fshash ↔ fp = o ∨ fp ∈ htList s.fshash
  fsNr : (t.fsk o).head.fsNr = x.head.fsNr
  schedNr : (t.fsk o).head.schedNr =
    if x.head.schedNr = 0 then (s.fsk o).head.schedNr else x.head.schedNr
  sched : (t.fsk o).head = (s.fsk o).head ∧ (t.fsk o).sched = (s.fsk o).sched ∨
    (t.fsk o).qht.list = [] ∧ (t.fsk o).sched = s.findSched (t.fsk o).head.schedNr
  other : ∀ fp, fp ≠ o → (t.fsk fp).head = (s.fsk fp).head ∧ (t.fsk fp).sched = (s.fsk fp).sched

/-- **`config_fs`**, where a flowset whose configuration changes has no queue with packets, or its
instances are in `K`. -/
theorem configFs_goes {K : SiPtr → Prop} {x : FsConfig} {o : Option FskPtr}
    (hg : Graph F S none s)
    (hidle : ∀ fp, s.findFs x.head.fsNr = some fp →
      (s.fsk fp).fs = (x.bounded s.parms).inherit (s.fsk fp).fs ∨
        ∀ a ∈ (s.fsk fp).qht.list, s.lenOf a = 0 ∨ K a.si)
    (h : configFs s x = some (o, t)) :
    ∃ F', F ⊆ F' ∧ Goes (confMoves K) F' S none s t ∧
      (o = none ∧ SameScheds s t ∧ t.fsk = s.fsk ∧ htList t.fshash = htList s.fshash ∨
        ∃ fp ∈ F', o = some fp ∧ SetUp x fp s t ∧
          (s.findFs x.head.fsNr = some fp ∨ s.findFs x.head.fsNr = none ∧ fp ∉ F)) := by
  unfold configFs at h
  dsimp only at h
  split at h
  · obtain ⟨rfl, rfl⟩ := Prod.mk.inj (Option.some.inj h)
    exact ⟨F, subset_rfl, .refl hg, .inl ⟨rfl, .refl s, rfl, rfl⟩⟩
  next hbad =>
  rw [not_or, not_or, not_le, not_le] at hbad
  have hi : x.head.fsNr ≠ 0 := ne_zero_of_toInt_pos hbad.2.1
  obtain ⟨hs, hparms, hhash, hsh, hfind⟩ := needFshash_spec s
  set u := needFshash s with hu
  have hgu : Graph F S none u := hs.graph hg
  obtain ⟨o', new, v, hv⟩ : ∃ o' new v,
      (if (x.bounded s.parms).head.schedNr ≠ 0 then findOrNewFs u x.head.fsNr
        else (u.findFs x.head.fsNr, false, u)) = (o', new, v) := ⟨_, _, _, rfl⟩
  have hvgo : ∃ F', F ⊆ F' ∧ Goes (confMoves K) F' S none u v ∧ v.schk = u.schk ∧
      v.schedhash = u.schedhash ∧ v.parms = u.parms ∧ v.inst = u.inst ∧
      (∀ fp ∈ F, v.fsk fp = u.fsk fp) ∧
      (o' = none ∧ v.fsk = u.fsk ∧ htList v.fshash = htList u.fshash ∨
        (∃ fp, o' = some fp ∧ u.findFs x.head.fsNr = some fp ∧ v = u) ∨
        ∃ fp, o' = some fp ∧ u.findFs x.head.fsNr = none ∧ fp ∉ F ∧ fp ∈ F' ∧
          (v.fsk fp).sched = none ∧ (v.fsk fp).head = { oid := { type := 2, len := sizeofFs } } ∧
          (∀ fp', fp' ≠ fp → v.fsk fp' = u.fsk fp') ∧
          ∀ fp', fp' ∈ htList v.fshash ↔ fp' = fp ∨ fp' ∈ htList u.fshash) := by
    split_ifs at hv with hnr
    · exact findOrNewFs_goes hgu hv
    · obtain ⟨rfl, he⟩ := Prod.mk.inj hv
      obtain ⟨rfl, rfl⟩ := Prod.mk.inj he
      refine ⟨F, subset_rfl, .refl hgu, rfl, rfl, rfl, rfl, fun _ _ => rfl, ?_⟩
      rcases hfp : u.findFs x.head.fsNr with _ | fp
      · exact .inl ⟨rfl, rfl, rfl⟩
      · exact .inr (.inl ⟨fp, rfl, rfl, rfl⟩)
  rw [hv] at h
  dsimp only at h
  obtain ⟨F', hF, hgo, hschk, hsh', hparms', hinst, hfsk, hcases⟩ := hvgo
  have hgo' : Goes (confMoves K) F' S none s v := (hs.goes (A := confMoves K) hg trivial).trans hgo
  have hsame : SameScheds s v := .of_eq (hschk.trans hs.schk) (hsh'.trans hsh)
  rcases o' with _ | fp
  · obtain ⟨rfl, rfl⟩ := Prod.mk.inj (Option.some.inj h)
    rcases hcases with ⟨-, heq, hl⟩ | ⟨fp, hfp, -⟩ | ⟨fp, hfp, -⟩
    · exact ⟨F', hF, hgo', .inl ⟨rfl, hsame, heq.trans hs.fsk, hl.trans hhash⟩⟩
    · exact absurd hfp (by simp)
    · exact absurd hfp (by simp)
  · have hlookup : fp ∈ F' ∧ (∀ fp', fp' ∈ htList v.fshash ↔ fp' = fp ∨ fp' ∈ htList s.fshash) ∧
        (∀ fp', fp' ≠ fp → v.fsk fp' = s.fsk fp') ∧
        (v.fsk fp = s.fsk fp ∧ s.findFs x.head.fsNr = some fp ∨
          s.findFs x.head.fsNr = none ∧ fp ∉ F ∧ (v.fsk fp).sched = none ∧
            (v.fsk fp).head = { oid := { type := 2, len := sizeofFs } }) := by
      rcases hcases with ⟨heq, -⟩ | ⟨fp', heq, hfp, rfl⟩ | ⟨fp', heq, hnone, hnew, hmem, hsched,
        hhead, hother, hl⟩
      · exact absurd heq (by simp)
      · obtain rfl := Option.some.inj heq
        have hin : fp ∈ htList s.fshash := hhash ▸ (mem_htList_of_find hfp).1
        refine ⟨hF (hgu.mem_of_findFs hfp hi).1, fun fp' => ?_, fun fp' _ => by rw [hs.fsk],
          .inl ⟨by rw [hs.fsk], by rw [← hfind, hfp]⟩⟩
        rw [hhash]
        exact ⟨.inr, fun hm => hm.elim (fun he => he ▸ hin) id⟩
      · obtain rfl := Option.some.inj heq
        refine ⟨hmem, fun fp' => by rw [hl, hhash], fun fp' hne => by rw [hother fp' hne, hs.fsk],
          .inr ⟨by rw [← hfind, hnone], hnew, hsched, hhead⟩⟩
    obtain ⟨hmem, hl, hother, hself⟩ := hlookup
    refine ⟨F', hF, ?_⟩
    have hzero : fp ∉ F → (s.fsk fp).head.schedNr = 0 := fun h => by rw [hg.fsk_zero fp h]
    have hnr : (v.fsk fp).head.schedNr = (s.fsk fp).head.schedNr := by
      rcases hself with ⟨heq, -⟩ | ⟨-, hnew, -, hhead⟩
      · rw [heq]
      · rw [hhead, hzero hnew]
    have hwhich : s.findFs x.head.fsNr = some fp ∨ s.findFs x.head.fsNr = none ∧ fp ∉ F :=
      hself.imp And.right fun h => ⟨h.1, h.2.1⟩
    have hreq : ((x.bounded s.parms).inherit (v.fsk fp).fs).head.schedNr =
        if x.head.schedNr = 0 then (s.fsk fp).head.schedNr else x.head.schedNr := by
      rw [← hnr]
      rfl
    dsimp only at h
    split at h
    · next heq =>
      obtain ⟨rfl, rfl⟩ := Prod.mk.inj (Option.some.inj h)
      have hhead : (v.fsk fp).head = ((x.bounded s.parms).inherit (v.fsk fp).fs).head :=
        congrArg FsConfig.head heq
      refine ⟨hgo', .inr ⟨fp, hmem, rfl, ⟨hsame, hl, ?_, ?_, .inl ?_, fun fp' hne => by
        rw [hother fp' hne]; exact ⟨rfl, rfl⟩⟩, hwhich⟩⟩
      · rw [hhead]
        rfl
      · rw [hhead, hreq]
      · rcases hself with ⟨heq', -⟩ | ⟨-, -, -, hhead'⟩
        · rw [heq']
          exact ⟨rfl, rfl⟩
        · rw [hhead'] at hhead
          exact absurd (congrArg FsHeader.fsNr hhead).symm hi
    · next hne =>
      obtain ⟨w, hw, h⟩ := Option.bind_eq_some_iff.1 h
      obtain ⟨rfl, rfl⟩ := Prod.mk.inj (Option.some.inj h)
      set v' : Dn := if new = true then { v with id := v.id + 1 } else v with hv'
      have hsil : Silent v v' := by
        rw [hv']
        split_ifs
        · exact ⟨⟨⟨⟨rfl, rfl, rfl, rfl, rfl, id⟩, rfl, rfl, rfl⟩, rfl, rfl, rfl, le_rfl⟩, rfl, rfl,
          rfl⟩
        · exact .refl v
      have hfs' : v'.fshash = v.fshash := by
        rw [hv']
        split_ifs <;> rfl
      have hsh'' : v'.schedhash = v.schedhash := by
        rw [hv']
        split_ifs <;> rfl
      obtain ⟨hgo₂, hch⟩ := changeFs_goes (K := K) (hsil.graph hgo'.graph) hmem (fun hsome a ha => by
        rw [hsil.fsk] at hsome ha
        rw [Dn.lenOf, hsil.inst, hinst, hs.inst]
        rcases hself with ⟨heq, hfp⟩ | ⟨-, -, hnone, -⟩
        · rw [heq] at ha hne
          exact (hidle fp hfp).resolve_left hne a ha
        · exact absurd hnone hsome) hw
      have hsame' : SameScheds s v' := hsame.trans (.of_eq hsil.schk hsh'')
      refine ⟨hgo'.trans ((hsil.goes (A := confMoves K) hgo'.graph trivial).trans hgo₂), .inr ⟨fp, hmem, rfl,
        ⟨hsame'.trans hch.toSameScheds, fun fp' => ?_, ?_, ?_, .inr ⟨hch.bare, ?_⟩,
        fun fp' hfp' => ?_⟩, hwhich⟩⟩
      · rw [hch.fshash, hfs', hl]
      · rw [hch.head]
        rfl
      · rw [hch.head, hreq]
      · rw [hch.attached, hch.head]
        exact findSched_congr hsame'.schedhash hsame'.sch _
      · obtain ⟨hhead, hsched⟩ := hch.other fp' hfp'
        rw [hhead, hsched, hsil.fsk, hother fp' hfp']
        exact ⟨rfl, rfl⟩

/-- What `config_fs` leaves of a flowset with packets. -/
theorem SetUp.keep {x : FsConfig} {o : FskPtr} (h : SetUp x o s t) {sp' : SchkPtr} (hsched : (t.fsk fp).sched = some sp') :
    (t.fsk fp).qht.list = [] ∨ s.Idle fp ∨ (s.fsk fp).sched = some sp' ∧
      (t.fsk fp).head.fsNr = (s.fsk fp).head.fsNr ∧
      (t.schk sp').sch.schedNr = (s.schk sp').sch.schedNr := by
  rcases eq_or_ne fp o with rfl | hne
  · rcases h.sched with ⟨hhead, hs⟩ | ⟨hnil, -⟩
    · exact .inr (.inr ⟨hs ▸ hsched, by rw [hhead], by rw [h.sch]⟩)
    · exact .inl hnil
  · obtain ⟨hhead, hs⟩ := h.other fp hne
    exact .inr (.inr ⟨hs ▸ hsched, by rw [hhead], by rw [h.sch]⟩)

/-- **`config_fs`** as a stage. -/
theorem configFs_becomes {x : FsConfig} {o : Option FskPtr} (hg : Graph F S none s)
    (hidle : c → ∀ fp, s.findFs x.head.fsNr = some fp →
      (s.fsk fp).fs = (x.bounded s.parms).inherit (s.fsk fp).fs ∨ s.Idle fp)
    (h : configFs s x = some (o, t)) :
    ∃ F', F ⊆ F' ∧ Becomes c F' S s t ∧ SameScheds s t := by
  obtain ⟨F', hF, hgo, hcases⟩ := configFs_goes (K := fun _ => ¬ c) hg (fun fp hfp => by
    by_cases hc : c
    · exact (hidle hc fp hfp).imp_right fun hi a ha => .inl (hi a ha)
    · exact .inr fun _ _ => .inr hc) h
  rcases hcases with ⟨-, hsame, hfsk, -⟩ | ⟨fp, -, -, hset, -⟩
  · exact ⟨F', hF, .of_stage hg hgo (fun hc _ _ h => h hc) fun fp sp' hsched =>
      .inr (.inr ⟨by rwa [hfsk] at hsched, by rw [hfsk], by rw [hsame.sch]⟩), hsame⟩
  · exact ⟨F', hF, .of_stage hg hgo (fun hc _ _ h => h hc) fun fp' sp' hsched =>
      hset.keep hsched, hset.toSameScheds⟩

/-! ### Schedulers -/

/-- A change in which the schedulers keep their numbers, and the flowsets theirs. -/
theorem SameNumbers.becomes (h : SameNumbers s t) (hg : Graph F S none s)
    (hgo : Goes (confMoves fun _ => False) F S none s t) : Becomes c F S s t :=
  .of_goes hg hgo fun fp sp hsp => .inr (.inr
    ⟨by rwa [h.sched] at hsp, by rw [h.head], by rw [h.sch]⟩)

theorem SameNumbers.hashed (h : SameNumbers s t) (hh : Hashed S s) : Hashed S t :=
  hh.congr h.sch h.fp h.fs h.schedhash

theorem SameScheds.hashed (h : SameScheds s t) (hh : Hashed S s) : Hashed S t :=
  hh.congr h.sch h.fp h.fs h.schedhash

/-- The hash table of the schedulers is there, if there is memory. -/
theorem needSchedhash_spec (s : Dn) : Plain s (needSchedhash s) ∧
    (needSchedhash s).fshash = s.fshash ∧
    (s.schedhash = none ∨ (needSchedhash s).schedhash = s.schedhash) := by
  unfold needSchedhash
  rcases hsh : s.schedhash with _ | ht
  · have hs := silent_malloc s
    exact ⟨⟨⟨⟨rfl, rfl, rfl, rfl, rfl, hs.malloc⟩, rfl, rfl, rfl⟩, rfl, rfl, rfl, le_rfl⟩, rfl,
      .inl rfl⟩
  · exact ⟨.refl s, rfl, .inr (by simp only [hsh])⟩

/-- **`schk_new`**: a scheduler without an algorithm, which is in no table. -/
theorem schkNew_goes {K : SiPtr → Prop} {x : DnSch} {o : Option SchkPtr} (hg : Graph F S none s)
    (h : schkNew s x = (o, t)) :
    t.fsk = s.fsk ∧ t.fshash = s.fshash ∧ t.schedhash = s.schedhash ∧
      (o = none ∧ Goes (confMoves K) F S none s t ∧ t.schk = s.schk ∨
        ∃ sp y, o = some sp ∧ sp ∉ S ∧ Goes (confMoves K) F (insert sp S) none s t ∧
          t.schk = Function.update s.schk sp y ∧ y.sch = x ∧ y.fp = none ∧ y.fs = none ∧
          y.fskList = []) := by
  have hs := silent_malloc s
  obtain ⟨ok, u, hm⟩ : ∃ ok u, s.malloc = (ok, u) := ⟨_, _, rfl⟩
  have hu : u = s.malloc.2 := by rw [hm]
  have hush : u.schedhash = s.schedhash := by rw [hu]; rfl
  have hufs : u.fshash = s.fshash := by rw [hu]; rfl
  rw [hm] at hs
  unfold schkNew at h
  simp only [hm] at h
  cases ok with
  | false =>
    obtain ⟨rfl, rfl⟩ := Prod.mk.inj h
    exact ⟨hs.fsk, hufs, hush, .inl ⟨rfl, hs.goes hg trivial, hs.schk⟩⟩
  | true =>
    simp only [Bool.not_true, Bool.false_eq_true, if_false] at h
    have hnew : ∀ {v : Dn} {y : Schk}, Silent u v → v.brk = u.brk + 1 → v.schedhash = u.schedhash →
        v.fshash = u.fshash → y.sch = x → y.fp = none → y.fs = none → y.fskList = [] →
        y.siht.list = [] → y.siht.Nodup →
        (some u.brk, ({ v.setSchk u.brk y with schkCount := v.schkCount + 1 } : Dn)) = (o, t) →
        t.fsk = s.fsk ∧ t.fshash = s.fshash ∧ t.schedhash = s.schedhash ∧
          (o = none ∧ Goes (confMoves K) F S none s t ∧ t.schk = s.schk ∨
            ∃ sp y, o = some sp ∧ sp ∉ S ∧ Goes (confMoves K) F (insert sp S) none s t ∧
              t.schk = Function.update s.schk sp y ∧ y.sch = x ∧ y.fp = none ∧ y.fs = none ∧
              y.fskList = []) := by
      intro v y hv hbrk hvsh hvfs hsch hfp hfs hlist hsiht hnodup he
      obtain ⟨rfl, rfl⟩ := Prod.mk.inj he
      have hgu := hs.graph hg
      refine ⟨hv.fsk.trans hs.fsk, hvfs.trans hufs, hvsh.trans hush, .inr ⟨u.brk, y, rfl,
        fun hmem => absurd (hgu.schk_lt _ hmem) (lt_irrefl _), ⟨?_, ?_⟩, ?_, hsch, hfp, hfs, hlist⟩⟩
      · refine hgu.newSchk hlist hsiht hnodup hv.fsk hv.fsu hv.inst hv.sis ?_ hbrk
        change Function.update v.schk u.brk y = _
        rw [hv.schk]
      · exact ((hs.trans hv).path (A := confMoves K) trivial).trans (.single (.conf
          ⟨⟨rfl, rfl, rfl, rfl, rfl, id⟩, rfl, rfl, rfl⟩) trivial)
      · change Function.update v.schk u.brk y = _
        rw [hv.schk, hs.schk]
    split_ifs at h with hmask
    · split at h
      · obtain ⟨rfl, rfl⟩ := Prod.mk.inj h
        have hal := hs.trans ((silent_alloc u).trans (silent_malloc u.alloc.2))
        exact ⟨hal.fsk, hufs, hush, .inl ⟨rfl, hal.goes hg trivial, hal.schk⟩⟩
      · next ht hinit =>
        have hobjs : ht.objs = [] := by
          simp only [dnHtInit] at hinit
          split_ifs at hinit
          rw [← Option.some.inj hinit]
        refine hnew ((silent_alloc u).trans (silent_malloc u.alloc.2)) rfl rfl rfl ?_ ?_ ?_ ?_ ?_ ?_ h
        all_goals first | rfl | skip
        · simp [Objs.list, DnHt.ordered, DnHt.chain, hobjs]
        · simp [Objs.Nodup, hobjs]
    · exact hnew (silent_alloc u) rfl rfl rfl rfl rfl rfl rfl rfl (by exact trivial) h

end Dummynet
