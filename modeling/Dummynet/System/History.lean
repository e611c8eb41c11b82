import Dummynet.System.Whole

/-!
# The way of the packets

What the records of a run say about the packets: the packets of an instance leave its delay line in
the order in which its scheduler chose them, none before its time, and what leaves a delay line
leaves dummynet in the same call, once and in order.

## Main definitions

* `Line`, `Carried`: the two relations between the states before and after a change.
* `DnOp.Enters`: the arrival of a packet at a scheduler.

## Main results

* `Dn.WellFormed.step_parts`: what an operation consists of.
* `Dn.WellFormed.step_line`, `line_of_run`: the delay line is a queue.
* `Dn.WellFormed.step_gone`, `gone_of_run`: what is released leaves, and nothing is early.
-/

namespace Dummynet

variable {F : Set FskPtr} {S : Set SchkPtr} {L : Option FskPtr} {s t u v : Dn} {p : SiPtr}
  {fp : FskPtr} {sp : SchkPtr} {M : Prop} {op : DnOp} {l l' : List Event}

/-! ### The delay line of one instance -/

/-- The packets on the delay line of `p`, if `p` exists. -/
def Dn.lineOf (s : Dn) (p : SiPtr) : List Mbuf :=
  if p ∈ s.sis then (s.inst p).dline.map DlPkt.m else []

/-- From `s` to `t` the delay line of `p` is a queue: what was chosen goes to its end, and what
left came from its head. -/
def Line (p : SiPtr) (s t : Dn) : Prop :=
  ∃ l, t.log = s.log ++ l ∧ (p ∈ t.sis → p ∈ s.sis ∧
    (s.inst p).dline.map DlPkt.m ++ chosen p l = outOf p l ++ (t.inst p).dline.map DlPkt.m)

theorem Line.refl (p : SiPtr) (s : Dn) : Line p s s :=
  ⟨[], (List.append_nil _).symm, fun hp => ⟨hp, by simp⟩⟩

theorem Line.trans (h : Line p s t) (h' : Line p t u) : Line p s u := by
  obtain ⟨l, hlog, hl⟩ := h
  obtain ⟨l', hlog', hl'⟩ := h'
  refine ⟨l ++ l', by rw [hlog', hlog, List.append_assoc], fun hp => ?_⟩
  obtain ⟨hpt, heq'⟩ := hl' hp
  obtain ⟨hps, heq⟩ := hl hpt
  exact ⟨hps, by rw [chosen_append, outOf_append, ← List.append_assoc, heq, List.append_assoc,
    heq', List.append_assoc]⟩

/-- Nothing is chosen and nothing expires. -/
theorem Line.of_aside (hlog : t.log = s.log ++ l) (hl : ∀ e ∈ l, e.isAside) (hsis : t.sis ⊆ s.sis)
    (hline : p ∈ t.sis → (t.inst p).dline.map DlPkt.m = (s.inst p).dline.map DlPkt.m) :
    Line p s t :=
  ⟨l, hlog, fun hp => ⟨hsis hp, by
    rw [chosen_aside hl, outOf_aside hl, hline hp, List.append_nil, List.nil_append]⟩⟩

/-- Nothing is recorded. -/
theorem Line.of_log (hlog : t.log = s.log) (hsis : t.sis ⊆ s.sis)
    (hline : p ∈ t.sis → (t.inst p).dline.map DlPkt.m = (s.inst p).dline.map DlPkt.m) :
    Line p s t :=
  .of_aside (l := []) (by rw [hlog, List.append_nil]) (by simp) hsis hline

/-- A write to an instance that keeps the packets on its delay line. -/
theorem Line.setInst {p' : SiPtr} {x : SchInst}
    (hx : x.dline.map DlPkt.m = (s.inst p').dline.map DlPkt.m) : Line p s (s.setInst p' x) := by
  refine .of_log rfl subset_rfl fun _ => ?_
  rcases eq_or_ne p p' with rfl | hne
  · rw [Dn.setInst_inst, hx]
  · rw [Dn.setInst_inst_of_ne s x hne]

/-- A callback of a scheduler. -/
theorem Line.callback {β : Type} {b : β} {p' : SiPtr}
    {f : (k : SchedType) → Inst k.Priv k.Ext → Option (β × Inst k.Priv k.Ext)}
    (h : s.callback p' f = some (b, t)) : Line p s t := by
  obtain ⟨r, -, rfl⟩ := callback_spec h
  refine .of_log rfl subset_rfl fun _ => ?_
  rcases eq_or_ne p p' with rfl | hne
  · rw [s.store_inst]
  · rw [s.store_inst_of_ne _ r hne]

/-- **Every change** but a new instance. -/
theorem Move.follows {k : MoveKind} (hk : k ≠ .new) (hm : Move k s t) : Line p s t := by
  cases hm with
  | quiet hq | conf hq =>
    exact .of_log hq.log (by rw [hq.sis]) fun _ => by rw [hq.inst]
  | heap hkeep hlog hl =>
    exact .of_aside hlog (fun e he => (hl e he).aside) (by rw [hkeep.sis]) fun _ => by
      rw [hkeep.inst]
  | note n m f hl => exact .of_aside rfl (fun e he => (hl e he).aside) subset_rfl fun _ => rfl
  | clock => exact .of_log rfl subset_rfl fun _ => rfl
  | credit => exact .setInst rfl
  | new => exact absurd rfl hk
  | destroy _ _ _ hd =>
    obtain ⟨hsis, hother⟩ := siDestroy_other hd
    have hlog : t.log = s.log := by
      obtain ⟨ev, pos, rfl⟩ := siDestroy_spec hd
      rfl
    refine .of_log hlog (hsis ▸ Finset.erase_subset ..) fun hp => ?_
    rw [hsis] at hp
    rw [hother p (Finset.ne_of_mem_erase hp)]
  | @newQueue _ _ p' q fp id _ _ _ _ _ hc =>
    have hname : Line p s (s.setInst p' ((s.inst p').name q fp id)) := .setInst rfl
    exact hname.trans (.callback hc)
  | delete _ _ _ _ hc | purge _ _ _ hc | enqueue _ _ _ _ hc | idle _ _ hc => exact .callback hc
  | @take _ v p' m _ _ hc =>
    obtain ⟨hlog, hsis, hother, c, d, hd, hself⟩ := moveToDline_line v p' m
    refine (Line.callback hc).trans ⟨[.dequeued p' m], hlog, fun hp => ⟨hsis ▸ hp, ?_⟩⟩
    rcases eq_or_ne p p' with rfl | hne
    · rw [hself]
      simp [chosen, outOf, hd]
    · rw [hother p hne]
      simp [chosen, outOf, hne.symm]
  | line p' active d hd => exact .setInst hd
  | transmit q p' now =>
    obtain ⟨q', v, he⟩ : ∃ q' v, transmitEvent s q p' now = (q', v) := ⟨_, _, rfl⟩
    obtain ⟨out, rest, l, b, -, hlog, hl, hsis, -, hother, hdl, hself, -⟩ :=
      transmitEvent_line he
    rw [he]
    have haside : ∀ e ∈ l, e.isAside := fun e he => (hl e he).aside
    refine ⟨_, hlog, fun hp => ⟨hsis ▸ hp, ?_⟩⟩
    rw [chosen_append, outOf_append, chosen_aside haside, outOf_aside haside, chosen_released]
    rcases eq_or_ne p p' with rfl | hne
    · rw [hself, hdl]
      simp
    · rw [hother p hne, outOf_of_ne hne.symm]
      simp
  | flush => exact .of_log rfl subset_rfl fun _ => rfl

/-- A path without new instances. -/
theorem Path.follows {A : Set MoveKind} (hA : MoveKind.new ∉ A) (h : Path A s t) : Line p s t :=
  h.invariant (I := fun t => Line p s t)
    (fun hk hm hI => hI.trans (hm.follows fun he => hA (he ▸ hk))) (.refl p s)

/-- A lookup may bring a new instance, whose delay line is empty. -/
theorem Path.lineOf (h : Path findMoves s t) :
    s.sis ⊆ t.sis ∧ ∀ p, t.lineOf p = s.lineOf p := by
  refine h.invariant (I := fun t => s.sis ⊆ t.sis ∧ ∀ p, t.lineOf p = s.lineOf p)
    (fun {k u v} hk hm hI => ?_) ⟨subset_rfl, fun _ => rfl⟩
  obtain ⟨hsub, hline⟩ := hI
  cases hm with
  | quiet hq =>
    exact ⟨hq.sis ▸ hsub, fun p => by rw [← hline, Dn.lineOf, hq.sis, hq.inst, Dn.lineOf]⟩
  | note => exact ⟨hsub, hline⟩
  | @new _ p' x hp hx =>
    refine ⟨hsub.trans (Finset.subset_insert ..), fun p => ?_⟩
    rw [← hline]
    rcases eq_or_ne p p' with rfl | hne
    · have hself : (u.addInst p x).inst p = x := u.setInst_inst p x
      rw [Dn.lineOf, Dn.lineOf, if_neg hp, hself, hx.dline]
      simp
    · have hother : (u.addInst p' x).inst p = u.inst p := u.setInst_inst_of_ne x hne
      have hmem : p ∈ (u.addInst p' x).sis ↔ p ∈ u.sis := by simp [Dn.addInst, hne]
      rw [Dn.lineOf, Dn.lineOf, hother]
      simp only [hmem]
  | @newQueue _ _ p' q fp id _ _ _ _ _ hc =>
    obtain ⟨r, -, rfl⟩ := callback_setInst_spec hc
    refine ⟨hsub, fun p => ?_⟩
    rw [← hline]
    rcases eq_or_ne p p' with rfl | hne
    · rw [Dn.lineOf, u.store_inst]
      rfl
    · rw [Dn.lineOf, u.store_inst_of_ne _ r hne]
      rfl
  | _ => rcases hk with hk | hk | hk | hk <;> exact absurd hk (by simp)

/-- The changes that bring neither an instance nor a queue nor a packet. -/
def laterMoves : Set MoveKind := {.new, .newQueue, .enqueue}ᶜ

theorem serveMoves_later : serveMoves ⊆ laterMoves := by
  rintro k hk (rfl | rfl | rfl) <;> simp [serveMoves] at hk

/-- The stages of a configuration. -/
theorem stages_path {c : Prop} (h : Relation.ReflTransGen (Stage c) s t) : Path laterMoves s t := by
  induction h with
  | refl => exact .refl _
  | tail _ hstage ih =>
    obtain ⟨K, hpath, -⟩ := hstage
    exact ih.trans (hpath.mono (by rintro _ hk (rfl | rfl | rfl) <;> exact hk))

/-- From `s` to `t` the packet that the operation brings, if any, is given to a scheduler. -/
def DnOp.Enters (op : DnOp) (s t : Dn) : Prop :=
  t = s ∨ ∃ a env p q b, op = .io a env ∧ p ∈ s.sis ∧ q ∈ (s.inst p).queues ∧
    (s.inst p).kind.Sound (s.load (s.inst p)) ∧ ¬ (s.inst p).s.isHead q a.m ∧
      s.callback p (fun k t => k.desc.enqueue t q a.m s.env.draws) = some (b, t)

/-- **Every operation** is a lookup, which records nothing, the arrival of a packet, and changes
that bring nothing. -/
theorem Dn.WellFormed.step_parts (h : s.WellFormed M) (hnew : op.NewTo s)
    (hs : s.step op = some (l, t)) : ∃ env u v, Path findMoves { s with log := [], env := env } u ∧
      u.log = [] ∧ op.Enters u v ∧ Path laterMoves v t ∧ l = t.log := by
  obtain ⟨v, hv, he⟩ := Option.map_eq_some_iff.1 hs
  obtain ⟨rfl, rfl⟩ := Prod.mk.inj he
  obtain ⟨⟨F, S, hg, hh⟩, hE⟩ := h
  cases op with
  | io a env =>
    obtain ⟨⟨r, w⟩, hw, rfl⟩ := Option.map_eq_some_iff.1 hv
    have hg₀ : Graph F S none { s with log := [], env := env } := hg.withEnv
    obtain ⟨u, hgu, -, -, -, -, hlog, hcases⟩ := dummynetIo_spec hg₀ hw
    rcases hcases with ⟨o, hdrop⟩ | ⟨fp, sp, w', -, -, hp, hq, -, -, henq⟩
    · exact ⟨env, u, u, hgu.path, hlog, .inl rfl,
        (dropIt_goes (A := {.note}) hgu.graph rfl hdrop).path.mono
          (by rintro _ rfl; simp [laterMoves]), rfl⟩
    · have hqueued := hgu.path.not_queued fun p hp q hin => hnew ⟨p, hp, .inl ⟨q, hin⟩⟩
      have hhead := not_isHead (hqueued _ hp w'.q)
      obtain ⟨drop, x, hcall, -, hgo, -⟩ := ioEnqueue_goes hgu.graph hp hq hhead henq
      refine ⟨env, u, x, hgu.path, hlog,
        .inr ⟨a, env, _, _, drop, rfl, hp, hq, hgu.graph.sound_load hp, hhead, hcall⟩,
        hgo.path.mono ?_, rfl⟩
      rintro k (rfl | hk)
      · simp [laterMoves]
      · exact serveMoves_later hk
  | task env =>
    have hg₀ : Graph F S none { s with log := [], env := env } := hg.withEnv
    obtain ⟨u, x, w, q, hgu, -, -, -, hgx, -, -, -, hcol, rfl⟩ :=
      dummynetTask_spec handles_true hg₀ hE.forget hv
    refine ⟨env, _, _, .refl _, rfl, .inl rfl, ?_, rfl⟩
    have hclock := hgu.path.mono (B := laterMoves) (by rintro _ rfl; simp [laterMoves])
    have hserve := hgx.path.mono serveMoves_later
    have hdrain := hcol.path.mono (B := laterMoves)
      (by rintro _ hk (rfl | rfl | rfl) <;> exact hk)
    have hsend := (dummynetSend_goes (A := {.note}) hcol.graph rfl q).path.mono (B := laterMoves)
      (by rintro _ rfl; simp [laterMoves])
    exact ((hclock.trans hserve).trans hdrain).trans hsend
  | config os n env =>
    obtain ⟨⟨r, w⟩, hw, rfl⟩ := Option.map_eq_some_iff.1 hv
    have hg₀ : Graph F S none { s with log := [], env := env } := hg.withEnv
    obtain ⟨F', S', hb, -⟩ := doConfig_becomes (c := False) hg₀
      (hh.congr (fun _ => rfl) (fun _ => rfl) (fun _ => rfl) rfl) (fun hc => hc.elim) hw
    exact ⟨env, _, _, .refl _, rfl, .inl rfl, stages_path hb.stages, rfl⟩
  | sysctl parms =>
    obtain rfl := Option.some.inj hv
    exact ⟨s.env, _, _, .refl _, rfl, .inl rfl, .single
      (.quiet ⟨⟨rfl, rfl, rfl, rfl, rfl, fun h => h⟩, rfl, rfl, rfl⟩ fun _ => rfl)
      (by simp [laterMoves]), rfl⟩

/-- After the lookup no operation brings an instance. -/
theorem Dn.WellFormed.step_paths (h : s.WellFormed M) (hnew : op.NewTo s)
    (hs : s.step op = some (l, t)) : ∃ s₀ u : Dn, s₀.inst = s.inst ∧ s₀.sis = s.sis ∧
      Path findMoves s₀ u ∧ u.log = [] ∧ Path {.new}ᶜ u t ∧ l = t.log := by
  obtain ⟨env, u, v, hfind, hlog, henter, hlater, hl⟩ := h.step_parts hnew hs
  have hrest : Path {.new}ᶜ v t := hlater.mono fun k hk he => hk (.inl he)
  refine ⟨{ s with log := [], env := env }, u, rfl, rfl, hfind, hlog, ?_, hl⟩
  rcases henter with rfl | ⟨a, env, p, q, b, -, hp, hq, hsound, hhead, hcall⟩
  · exact hrest
  · exact (Path.single (.enqueue hp hq hsound hhead hcall) (by simp)).trans hrest

/-- **One operation**, as far as the instance `p` exists after it. -/
theorem Dn.WellFormed.step_line (h : s.WellFormed M) (hnew : op.NewTo s)
    (hs : s.step op = some (l, t)) (hp : p ∈ t.sis) :
    s.lineOf p ++ chosen p l = outOf p l ++ t.lineOf p := by
  obtain ⟨s₀, u, hinst, hsis, hfind, hlog, hrest, rfl⟩ := h.step_paths hnew hs
  obtain ⟨l, hl, hline⟩ := hrest.follows (p := p) (by simp)
  obtain ⟨hpu, heq⟩ := hline hp
  have hstart : s.lineOf p = (u.inst p).dline.map DlPkt.m := by
    have := hfind.lineOf.2 p
    rw [Dn.lineOf, if_pos hpu, Dn.lineOf, hinst, hsis] at this
    exact this.symm
  rw [hstart, hl, hlog, List.nil_append, heq, Dn.lineOf, if_pos hp]

/-- The records of a run. -/
def records (l : List (DnOp × List Event)) : List Event := l.flatMap Prod.snd

theorem records_snoc (l : List (DnOp × List Event)) (x : DnOp × List Event) :
    records (l ++ [x]) = records l ++ x.2 := by
  simp [records]

/-- **The delay line is a queue.** In a run after whose steps the instance `p` exists, the packets
that were on its delay line and the ones that its scheduler chose leave in this order, and the rest
is on the delay line. -/
theorem line_of_run {parms : DnParms} {schedlist : List SchedType}
    {l l' : List (DnOp × List Event)}
    (h : Runs.Run Dn.step (fun s op _ => op.NewTo s) (Dn.init parms schedlist) l s)
    (h' : Runs.Run Dn.step (fun s op t => op.NewTo s ∧ p ∈ t.sis) s l' t) :
    s.lineOf p ++ chosen p (records l') = outOf p (records l') ++ t.lineOf p := by
  have hs : s.WellFormed False :=
    wellFormed_of_run (h.mono fun _ _ _ hok => ⟨hok, fun h => h.elim⟩)
  have hwf : ∀ {u l'}, Runs.Run Dn.step (fun s op t => op.NewTo s ∧ p ∈ t.sis) s l' u →
      u.WellFormed False := fun hr =>
    hr.invariant (fun _ _ _ _ hs hok hst => hs.step hok.1 (fun h => h.elim) hst) hs
  induction h' with
  | nil => simp [records]
  | snoc hr hok hst ih =>
    have hstep := (hwf hr).step_line hok.1 hst hok.2
    rw [records_snoc, chosen_append, outOf_append, ← List.append_assoc, ih, List.append_assoc,
      hstep, List.append_assoc]

/-- A packet that is still on the delay line. -/
theorem line_threeOps : ∃ (s t : Dn) (l : List (DnOp × List Event)), (t.lineOf 4).length = 1 ∧
    s.lineOf 4 ++ chosen 4 (records l) = outOf 4 (records l) ++ t.lineOf 4 := by
  obtain ⟨s, t, u, h, hs, ht, hu, -, hlen⟩ := threeOps_spec
  obtain ⟨o₁, o₂, o₃, hl, hl'⟩ := threeOps_runs h hs ht hu
  refine ⟨s, u, [(opPacket, o₂), (opTask 3, o₃)], ?_, line_of_run
    (hl.mono fun _ _ _ hok => hok.1.1) (hl'.mono fun _ _ _ hok => ⟨hok.1.1, hok.2.2⟩)⟩
  rw [Dn.lineOf, if_pos hu, List.length_map, hlen]

/-! ### The way out -/

/-- From `s` to `t` packets leave delay lines, and go from the end of `q` to the end of `q'`; they
are due by now. -/
def Carried (s : Dn) (q : List DlPkt) (t : Dn) (q' : List DlPkt) : Prop :=
  ∃ l, t.log = s.log ++ l ∧ q' = q ++ released l ∧ gone l = [] ∧
    (∀ d ∈ released l, keyLEQ d.tag.outputTime s.currTime) ∧ t.currTime = s.currTime

theorem Carried.trans {q q' q'' : List DlPkt} (h : Carried s q t q') (h' : Carried t q' u q'') :
    Carried s q u q'' := by
  obtain ⟨l, hlog, hq, hgone, hdue, hcur⟩ := h
  obtain ⟨l', hlog', hq', hgone', hdue', hcur'⟩ := h'
  refine ⟨l ++ l', by rw [hlog', hlog, List.append_assoc], by
    rw [hq', hq, released_append, List.append_assoc], by rw [gone_append, hgone, hgone']; rfl,
    fun d hd => ?_, hcur'.trans hcur⟩
  rw [released_append] at hd
  rcases List.mem_append.1 hd with hd | hd
  · exact hdue d hd
  · rw [← hcur]
    exact hdue' d hd

theorem Carried.currTime {q q' : List DlPkt} (h : Carried s q t q') : t.currTime = s.currTime := by
  obtain ⟨_, -, -, -, -, hcur⟩ := h
  exact hcur

/-- Nothing leaves a delay line. -/
theorem Carried.of_log {q : List DlPkt} (hlog : t.log = s.log ++ l) (hrel : released l = [])
    (hgone : gone l = []) (hcur : t.currTime = s.currTime) : Carried s q t q :=
  ⟨l, hlog, by rw [hrel, List.append_nil], hgone, by rw [hrel]; simp, hcur⟩

theorem Carried.of_same {q : List DlPkt} (hlog : t.log = s.log) (hcur : t.currTime = s.currTime) :
    Carried s q t q :=
  .of_log (l := []) (by rw [hlog, List.append_nil]) rfl rfl hcur

/-- **`transmit_event`**. -/
theorem transmitEvent_carried {q q' : List DlPkt}
    (h : transmitEvent s q p s.currTime = (q', t)) : Carried s q t q' := by
  obtain ⟨out, rest, l, b, rfl, hlog, hl, -, hcur, -, -, -, hdue⟩ := transmitEvent_line h
  have hrel : released (out.map (Event.released p) ++ l) = out := by
    rw [released_append, released_map, released_aside fun e he => (hl e he).aside, List.append_nil]
  refine ⟨_, hlog, by rw [hrel], by rw [gone_append, gone_released, gone_keys hl]; rfl, ?_, hcur⟩
  rw [hrel]
  exact hdue

/-- **`serve_sched`**. -/
theorem serveSched_carried {q q' : List DlPkt} (hg : Graph F S L s) (hp : p ∈ s.sis)
    (h : serveSched s q p s.currTime = some (q', t)) : Carried s q t q' := by
  obtain ⟨-, -, -, hcur, new, last, u, v, ⟨hserved, -, hmid, hfin⟩, hgu⟩ := serveSched_spec hg hp h
  have hstart : Carried s q u q := by
    refine .of_log hserved.log ?_ ?_ hserved.currTime
    · simp [released, List.filterMap_map]
    · simp [gone, List.flatMap_map]
  have hmiddle : Carried u q v q := by
    rcases hmid with ⟨-, hres⟩ | ⟨-, rfl⟩
    · obtain ⟨-, rfl⟩ := reschedule_spec hres
      exact .of_log (l := [.key (s.currTime + u.refill p)]) rfl rfl rfl rfl
    · exact .of_same rfl rfl
  have hboth := hstart.trans hmiddle
  split_ifs at hfin
  · rw [← hboth.currTime] at hfin
    exact hboth.trans (transmitEvent_carried hfin)
  · obtain ⟨rfl, rfl⟩ := hfin
    exact hboth

theorem handles_carried : Handles Carried where
  refl _ _ := .of_same rfl rfl
  trans := .trans
  extract h := by
    obtain ⟨ev, pos, rfl⟩ := evExtract_spec h
    exact .of_same rfl rfl
  serve := serveSched_carried
  transmit := transmitEvent_carried

/-- What `dummynet_send` records. -/
theorem sent_gone (q : List DlPkt) : gone (q.map fun d => .sent d (sendTo d.tag.dnDir)) = q ∧
    released (q.map fun d => .sent d (sendTo d.tag.dnDir)) = [] := by
  simp [gone, released, List.flatMap_map, List.filterMap_map]

theorem initialAllowance_log (s : Dn) (p : SiPtr) (sp : SchkPtr) :
    (initialAllowance s p sp).log = s.log := by
  unfold initialAllowance
  dsimp only
  split <;> rfl

/-- The packets that `handBack` gets leave, in their order. -/
theorem handBack_gone {a : IoArgs} {q : List DlPkt} {r : IoResult} (h : handBack s a q = (r, t)) :
    ∃ l, t.log = s.log ++ l ∧ gone l = q ∧ released l = [] ∧ t.currTime = s.currTime := by
  unfold handBack at h
  split at h
  · next d rest =>
    split at h
    · obtain ⟨-, rfl⟩ := Prod.mk.inj h
      cases rest with
      | nil => exact ⟨[.handed d], rfl, rfl, rfl, rfl⟩
      | cons e rest =>
        exact ⟨[.handed d, .chained (e :: rest)], List.append_assoc .., by simp [gone], rfl, rfl⟩
    · obtain ⟨-, rfl⟩ := Prod.mk.inj h
      exact ⟨_, rfl, (sent_gone _).1, (sent_gone _).2, rfl⟩
  · obtain ⟨-, rfl⟩ := Prod.mk.inj h
    exact ⟨[], (List.append_nil _).symm, rfl, rfl, rfl⟩

/-- A path on which nothing is recorded. -/
theorem Path.log_eq {K : SiPtr → Prop} (h : Path (confMoves K) s t) : t.log = s.log := by
  refine h.invariant (I := fun t => t.log = s.log) (fun {k u v} hk hm hI => ?_) rfl
  rw [← hI]
  cases hm with
  | quiet hq | conf hq => exact hq.log
  | credit | flush => rfl
  | destroy _ _ _ hd =>
    obtain ⟨ev, pos, rfl⟩ := siDestroy_spec hd
    rfl
  | delete _ _ _ _ hc | purge _ _ _ hc =>
    obtain ⟨r, -, rfl⟩ := callback_spec hc
    rfl
  | _ => exact absurd hk id

theorem stages_log {c : Prop} (h : Relation.ReflTransGen (Stage c) s t) : t.log = s.log := by
  induction h with
  | refl => rfl
  | tail _ hstage ih =>
    obtain ⟨K, hpath, -⟩ := hstage
    exact hpath.log_eq.trans ih

/-- What leaves a delay line, and then dummynet. -/
theorem Carried.gone {q : List DlPkt} (h : Carried s [] t q) (hs : s.log = [])
    (hlog : u.log = t.log ++ l) (hgone : gone l = q) (hrel : released l = [])
    (hcur : u.currTime = t.currTime) :
    Dummynet.gone u.log = released u.log ∧
      ∀ d ∈ released u.log, keyLEQ d.tag.outputTime u.currTime := by
  obtain ⟨l', hl', hq, hgone', hdue, hct⟩ := h
  rw [hs, List.nil_append] at hl'
  rw [hlog, hl', gone_append, released_append, hgone', hgone, hrel, hq, List.append_nil, hcur, hct]
  exact ⟨by simp, hdue⟩

/-- **One operation**: what leaves a delay line was due, and leaves dummynet. -/
theorem Dn.WellFormed.step_gone (h : s.WellFormed M) (hnew : op.NewTo s)
    (hs : s.step op = some (l, t)) :
    gone l = released l ∧ ∀ d ∈ released l, keyLEQ d.tag.outputTime t.currTime := by
  obtain ⟨v, hv, he⟩ := Option.map_eq_some_iff.1 hs
  obtain ⟨rfl, rfl⟩ := Prod.mk.inj he
  obtain ⟨⟨F, S, hg, hh⟩, hE⟩ := h
  cases op with
  | io a env =>
    obtain ⟨⟨r, w⟩, hw, rfl⟩ := Option.map_eq_some_iff.1 hv
    have hg₀ : Graph F S none { s with log := [], env := env } := hg.withEnv
    obtain ⟨u, hgu, -, -, -, -, hlog, hcases⟩ := dummynetIo_spec hg₀ hw
    rcases hcases with ⟨o, hdrop⟩ | ⟨fp, sp, w', -, -, hp, hq, -, -, henq⟩
    · obtain ⟨-, rfl⟩ := Prod.mk.inj hdrop
      change gone (u.log ++ [_]) = released (u.log ++ [_]) ∧ ∀ d ∈ released (u.log ++ [_]), _
      rw [hlog]
      exact ⟨rfl, fun d hd => absurd hd List.not_mem_nil⟩
    have hqueued := hgu.path.not_queued fun p hp q hin => hnew ⟨p, hp, .inl ⟨q, hin⟩⟩
    obtain ⟨drop, x, -, -, -, hlx, hcases⟩ := ioEnqueue_parts hgu.graph hp hq
      (not_isHead (hqueued _ hp _)) henq
    rw [hlog] at hlx
    rcases hcases with ⟨-, hdrop⟩ | ⟨-, rfl⟩ | ⟨-, -, i, q, y, rfl, hgi, hpi, hserve, -, hback⟩
    · obtain ⟨-, rfl⟩ := Prod.mk.inj hdrop
      change gone (x.log ++ [_]) = released (x.log ++ [_]) ∧ ∀ d ∈ released (x.log ++ [_]), _
      rw [hlx]
      exact ⟨rfl, fun d hd => absurd hd List.not_mem_nil⟩
    · rw [hlx]
      exact ⟨rfl, fun d hd => absurd hd List.not_mem_nil⟩
    · obtain ⟨l', hl', hgone, hrel, hcur⟩ := handBack_gone hback
      exact (serveSched_carried hgi.graph hpi hserve).gone
        ((initialAllowance_log x w'.si sp).trans hlx) hl' hgone hrel hcur
  | task env =>
    have hg₀ : Graph F S none { s with log := [], env := env } := hg.withEnv
    obtain ⟨u, x, w, q, -, -, hlog, hcar, -, -, -, hdrain, hcol, rfl⟩ :=
      dummynetTask_spec handles_carried hg₀ hE.forget hv
    have hlw := (hcol.path.mono dropMoves_subset).log_eq
    have hcw : w.currTime = x.currTime := (doDrain_aged hdrain).clock
    obtain ⟨hgone, hrel⟩ := sent_gone q
    exact hcar.gone hlog (congrArg (· ++ _) hlw) hgone hrel hcw
  | config os n env =>
    obtain ⟨⟨r, w⟩, hw, rfl⟩ := Option.map_eq_some_iff.1 hv
    have hg₀ : Graph F S none { s with log := [], env := env } := hg.withEnv
    obtain ⟨F', S', hb, -⟩ := doConfig_becomes (c := False) hg₀
      (hh.congr (fun _ => rfl) (fun _ => rfl) (fun _ => rfl) rfl) (fun hc => hc.elim) hw
    have hlog : w.log = [] := stages_log hb.stages
    change gone w.log = released w.log ∧ ∀ d ∈ released w.log, _
    rw [hlog]
    exact ⟨rfl, fun d hd => absurd hd List.not_mem_nil⟩
  | sysctl parms =>
    obtain rfl := Option.some.inj hv
    exact ⟨rfl, fun d hd => absurd hd List.not_mem_nil⟩

/-- **What is released leaves**, in the same call and in the same order, and nothing leaves a delay
line before its time. -/
theorem gone_of_run {parms : DnParms} {schedlist : List SchedType}
    {l : List (DnOp × List Event)} {o : List Event}
    (h : Runs.Run Dn.step (fun s op _ => op.NewTo s) (Dn.init parms schedlist) l s)
    (hnew : op.NewTo s) (hs : s.step op = some (o, t)) :
    gone o = released o ∧ ∀ d ∈ released o, keyLEQ d.tag.outputTime t.currTime := by
  have hwf : s.WellFormed False :=
    wellFormed_of_run (h.mono fun _ _ _ hok => ⟨hok, fun h => h.elim⟩)
  exact hwf.step_gone hnew hs

/-- The timer, 60 ticks later, releases a packet. -/
theorem gone_threeOps : ∃ (t : Dn) (o : List Event), (released o).length = 1 ∧
    gone o = released o ∧ ∀ d ∈ released o, keyLEQ d.tag.outputTime t.currTime := by
  have hexec : threeOps.any (fun x => decide (x.1.sis = ∅ ∧ 4 ∈ x.2.1.sis ∧ 4 ∈ x.2.2.sis) &&
      (x.2.2.step (opTask 60)).any fun y => decide ((released y.1).length = 1)) = true := by
    decide +kernel
  obtain ⟨⟨s, u, v⟩, h, hall⟩ := (Option.any_eq_true _ _).1 hexec
  obtain ⟨hmem, hout⟩ := Bool.and_eq_true_iff.1 hall
  obtain ⟨hs, hu, hv⟩ := of_decide_eq_true hmem
  obtain ⟨⟨o, t⟩, hstep, hlen⟩ := (Option.any_eq_true _ _).1 hout
  obtain ⟨o₁, o₂, o₃, hl, hl'⟩ := threeOps_runs h hs hu hv
  have hnew : (opTask 60).NewTo v := trivial
  exact ⟨t, o, of_decide_eq_true hlen, gone_of_run
    ((hl.mono fun _ _ _ hok => hok.1.1).trans (hl'.mono fun _ _ _ hok => hok.1.1)) hnew hstep⟩

end Dummynet
