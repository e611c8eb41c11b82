import Dummynet.System.Limits

/-!
# No packet is stuck

An instance with a FIFO scheduler that is not in the event heap has no packets: `serve_sched` ends
when the credit is used up, and then the instance is put back, or when there are no packets. So
every packet of a pipe waits for an event, for the wake-up of its instance or for its output time.

## Main definitions

* `SchInst.Attended`: a FIFO instance with packets is active.

## Main results

* `Move.attended`: the changes outside of a service.
* `Dn.Attended.serveSched`: a service, also of an instance that just got a packet.
* `Dn.WellFormed.step_attended`: every operation.
* `waiting_of_run`: runs.
-/

namespace Dummynet

variable {F : Set FskPtr} {S : Set SchkPtr} {L : Option FskPtr} {s t u v : Dn} {p : SiPtr}
  {fp : FskPtr} {sp : SchkPtr} {M : Prop} {op : DnOp} {l : List Event}

/-! ### Outside of a service -/

/-- An instance with a FIFO scheduler that is not active has no packets. -/
def SchInst.Attended (x : SchInst) : Prop :=
  x.kind = .fifo → x.active = false → x.s.mq fifoQueue = []

/-- The instances with FIFO schedulers that have packets are active. -/
def Dn.Attended (s : Dn) : Prop := ∀ p ∈ s.sis, (s.inst p).Attended

theorem Dn.Attended.congr (h : s.Attended) (hinst : t.inst = s.inst) (hsis : t.sis = s.sis) :
    t.Attended := fun p hp => by
  rw [hinst]
  exact h p (hsis ▸ hp)

/-- One instance changes. -/
theorem Dn.Attended.update (hsis : t.sis ⊆ s.sis)
    (hrest : ∀ p' ∈ s.sis, p' ≠ p → (s.inst p').Attended)
    (hother : ∀ p' ∈ t.sis, p' ≠ p → t.inst p' = s.inst p')
    (hself : p ∈ t.sis → (t.inst p).Attended) : t.Attended := fun p' hp' => by
  rcases eq_or_ne p' p with rfl | hne
  · exact hself hp'
  · rw [hother p' hp' hne]
    exact hrest p' (hsis hp') hne

theorem Dn.Attended.change (h : s.Attended) (hsis : t.sis ⊆ s.sis)
    (hother : ∀ p' ∈ t.sis, p' ≠ p → t.inst p' = s.inst p')
    (hself : p ∈ t.sis → (t.inst p).Attended) : t.Attended :=
  .update hsis (fun p' hp' _ => h p' hp') hother hself

/-- A scheduler with several queues is not the FIFO scheduler. -/
theorem SchInst.Attended.of_multiqueue {x : SchInst} (h : x.kind.multiqueue = true) :
    x.Attended := fun hk => by
  rw [hk] at h
  exact absurd h (by decide)

/-- The changes outside of a service that bring no packets. -/
def restMoves : Set MoveKind := {.enqueue, .idle, .take, .line}ᶜ

/-- **Every change** outside of a service that brings no packet. -/
theorem Move.attended {k : MoveKind} (hk : k ∈ restMoves) (hm : Move k s t) (h : s.Attended) :
    t.Attended := by
  have hstore : ∀ {p : SiPtr} {x : SchInst} {r : Inst x.kind.Priv x.kind.Ext},
      x.kind.multiqueue = true → (s.store p x r).Attended := fun {p x r} hmulti => by
    refine h.change (p := p) subset_rfl
      (fun p' _ hne => s.store_inst_of_ne x r hne) fun _ => ?_
    rw [s.store_inst]
    exact .of_multiqueue hmulti
  have hlive : ∀ {p : SiPtr} {q : QPtr}, (s.inst p).kind.Sound (s.load (s.inst p)) →
      q ∈ (s.inst p).s.live → (s.inst p).kind.multiqueue = true := fun {p q} hs hq => by
    by_contra hmulti
    have hempty : (s.inst p).s.live = ∅ := hs.single (by simpa using hmulti)
    rw [hempty] at hq
    exact Finset.notMem_empty q hq
  cases hm with
  | quiet hq | conf hq => exact h.congr hq.inst hq.sis
  | heap hkeep => exact h.congr hkeep.inst hkeep.sis
  | note | clock | flush => exact h.congr rfl rfl
  | credit p =>
    refine h.change (p := p) subset_rfl
      (fun p' _ hne => s.setInst_inst_of_ne _ hne) fun hp => ?_
    rw [Dn.setInst_inst]
    exact h p hp
  | @new _ p x hp hx =>
    intro p' hp'
    rcases eq_or_ne p' p with rfl | hne
    · have hself : (s.addInst p' x).inst p' = x := s.setInst_inst p' x
      rw [hself]
      exact fun _ _ => hx.mq fifoQueue
    · have hother : (s.addInst p x).inst p' = s.inst p' := s.setInst_inst_of_ne x hne
      rw [hother]
      exact h p' ((Finset.mem_insert.1 hp').resolve_left hne)
  | @destroy _ _ p _ _ _ hd =>
    obtain ⟨hsis, hother⟩ := siDestroy_other hd
    refine h.change (p := p) (hsis ▸ Finset.erase_subset ..)
      (fun p' _ hne => hother p' hne) fun hp => ?_
    rw [hsis] at hp
    exact absurd rfl (Finset.ne_of_mem_erase hp)
  | @newQueue _ _ p q fp id _ _ _ hmulti _ hc =>
    obtain ⟨r, -, rfl⟩ := callback_setInst_spec hc
    exact hstore hmulti
  | delete _ hq hs _ hc | purge _ hq hs hc =>
    obtain ⟨r, -, rfl⟩ := callback_spec hc
    exact hstore (hlive hs hq)
  | @transmit _ q p now _ =>
    obtain ⟨q', w, he⟩ : ∃ q' w, transmitEvent s q p now = (q', w) := ⟨_, _, rfl⟩
    obtain ⟨_, _, _, _, -, -, -, hsis, -, hother, -, hself, -⟩ := transmitEvent_line he
    rw [he]
    refine h.change (p := p) hsis.subset
      (fun p' _ hne => hother p' hne) fun hp => ?_
    rw [hself]
    exact h p (hsis ▸ hp)
  | enqueue | idle | take | line => exact absurd hk (by simp [restMoves])

theorem Path.attended {A : Set MoveKind} (hA : A ⊆ restMoves) (hpath : Path A s t)
    (h : s.Attended) : t.Attended :=
  hpath.invariant (fun hk hm => hm.attended (hA hk)) h

/-! ### A service -/

/-- **`fifo_dequeue`** returns no packet only if there is none. -/
theorem mq_of_dequeue_none {k : SchedType} {y r : Inst k.Priv k.Ext} (hk : k = .fifo)
    (h : k.desc.dequeue y = some (none, r)) : r.mq fifoQueue = [] := by
  subst hk
  have hcall : y.dequeue fifoQueue = (none, r) := Option.some.inj h
  cases hq : y.mq fifoQueue with
  | nil =>
    rw [Inst.dequeue_nil hq] at hcall
    obtain ⟨-, rfl⟩ := Prod.mk.inj hcall
    exact hq
  | cons m rest =>
    obtain ⟨z, hz, -⟩ := Inst.dequeue_spec hq
    rw [hz] at hcall
    exact absurd (Prod.mk.inj hcall).1 (by simp)

/-- **The loop of `serve_sched`** ends when the credit is used up or no packets are left. -/
theorem serveLoop_empties {n : ℕ} {done done' last : Bool}
    (h : serveLoop n s p done = some (done', last, t)) :
    t.sis = s.sis ∧ (∀ p', p' ≠ p → t.inst p' = s.inst p') ∧
      (t.inst p).kind = (s.inst p).kind ∧
        ((t.inst p).kind = .fifo →
          (t.inst p).credit.toInt < 0 ∨ (t.inst p).s.mq fifoQueue = []) := by
  induction n generalizing s done with
  | zero => exact absurd h (by simp [serveLoop])
  | succ n ih =>
    unfold serveLoop at h
    split_ifs at h with hcredit
    · obtain ⟨-, he⟩ := Prod.mk.inj (Option.some.inj h)
      obtain ⟨-, rfl⟩ := Prod.mk.inj he
      exact ⟨rfl, fun _ _ => rfl, rfl, fun _ => .inl hcredit⟩
    · obtain ⟨⟨o, u⟩, hcall, h⟩ := Option.bind_eq_some_iff.1 h
      obtain ⟨r, hr, rfl⟩ := callback_spec hcall
      have hself : (s.store p (s.inst p) r).inst p = { s.inst p with s := r } := s.store_inst ..
      cases o with
      | none =>
        obtain ⟨-, he⟩ := Prod.mk.inj (Option.some.inj h)
        obtain ⟨-, rfl⟩ := Prod.mk.inj he
        refine ⟨rfl, fun p' hne => s.store_inst_of_ne _ r hne, by rw [hself], ?_⟩
        rw [hself]
        exact fun hk => .inr (mq_of_dequeue_none hk hr)
      | some m =>
        obtain ⟨-, hsis, hother, c, d, -, hmoved⟩ := moveToDline_line (s.store p (s.inst p) r) p m
        rw [hself] at hmoved
        obtain ⟨hsis', hother', hkind, hempty⟩ := ih h
        rw [hmoved] at hkind
        exact ⟨hsis'.trans hsis,
          fun p' hne => (hother' p' hne).trans ((hother p' hne).trans (s.store_inst_of_ne _ r hne)),
          hkind, hempty⟩

/-- **`serve_sched`**, also for an instance that is not active and just got a packet. -/
theorem Dn.Attended.serveSched {q q' : List DlPkt} {now : BitVec 64}
    (hrest : ∀ p' ∈ s.sis, p' ≠ p → (s.inst p').Attended)
    (h : serveSched s q p now = some (q', t)) : t.Attended := by
  obtain ⟨⟨done, last, u⟩, hloop, h⟩ := Option.bind_eq_some_iff.1 h
  obtain ⟨hsis, hother, -, hempty⟩ := serveLoop_empties hloop
  have hgrant : ∀ p', p' ≠ p → (grantCredit s p now).inst p' = s.inst p' := fun p' hne =>
    s.setInst_inst_of_ne _ hne
  have hset : ∀ {x : SchInst}, x.Attended → (u.setInst p x).Attended := fun {x} hx => by
    refine .update (p := p) (s := s) hsis.subset hrest (fun p' _ hne => ?_) fun _ => ?_
    · rw [Dn.setInst_inst_of_ne u x hne, hother p' hne, hgrant p' hne]
    · rw [Dn.setInst_inst]
      exact hx
  -- the instance is put back in the heap, or has no packets
  have hmiddle : ∃ v, v.Attended ∧ (if ((s.inst p).dline.isEmpty && done) = true then
      some (transmitEvent v q p now) else some (q, v)) = some (q', t) := by
    by_cases hneg : (u.inst p).credit.toInt < 0
    · simp only [if_pos hneg] at h
      obtain ⟨v, hv, h⟩ := Option.bind_eq_some_iff.1 h
      obtain ⟨-, rfl⟩ := reschedule_spec hv
      refine ⟨_, ?_, h⟩
      exact Dn.Attended.congr (hset (x := { u.inst p with
        dline := if last then delayLast (u.refill p) (u.inst p).dline else (u.inst p).dline
        active := true }) fun _ hact => absurd hact (by simp)) rfl rfl
    · simp only [if_neg hneg] at h
      exact ⟨u.setInst p { u.inst p with idleTime := now },
        hset (x := { u.inst p with idleTime := now }) fun hk _ => (hempty hk).resolve_left hneg, h⟩
  obtain ⟨v, hv, hfin⟩ := hmiddle
  split_ifs at hfin
  · have htransmit := Option.some.inj hfin
    obtain ⟨_, _, _, _, -, -, -, hsis, -, hother, -, hself, -⟩ := transmitEvent_line htransmit
    refine hv.change (p := p) hsis.subset
      (fun p' _ hne => hother p' hne) fun hp => ?_
    rw [hself]
    exact hv p (hsis ▸ hp)
  · obtain ⟨-, rfl⟩ := Prod.mk.inj (Option.some.inj hfin)
    exact hv

theorem handles_attended : Handles fun s _ t _ => s.Attended → t.Attended where
  refl _ _ := id
  trans h h' := h' ∘ h
  extract h hs := by
    obtain ⟨ev, pos, rfl⟩ := evExtract_spec h
    exact hs.congr rfl rfl
  serve _ _ h hs := .serveSched (fun p' hp' _ => hs p' hp') h
  transmit {s t q q' p} h hs := by
    obtain ⟨_, _, _, _, -, -, -, hsis, -, hother, -, hself, -⟩ := transmitEvent_line h
    refine hs.change (p := p) hsis.subset
      (fun p' _ hne => hother p' hne) fun hp => ?_
    rw [hself]
    exact hs p (hsis ▸ hp)

/-! ### Operations and runs -/

/-- A packet that the scheduler drops leaves the queue as it was. -/
theorem Dn.Attended.dropped {q : QPtr} {m : Mbuf} {d : Draws} (h : s.Attended)
    (hq : q ∈ (s.inst p).queues) (hs : (s.inst p).kind.Sound (s.load (s.inst p)))
    (hm : ¬ (s.inst p).s.isHead q m)
    (hcall : s.callback p (fun k t => k.desc.enqueue t q m d) = some (true, t)) : t.Attended := by
  obtain ⟨r, hr, rfl⟩ := callback_spec hcall
  obtain ⟨q', -, -, -, hmoved⟩ := enqueue_moved hs.ok hq hm hr
  refine h.change (p := p) subset_rfl
    (fun p' _ hne => s.store_inst_of_ne _ r hne) fun hp => ?_
  rw [s.store_inst]
  intro hk hact
  have hempty : (s.inst p).s.mq fifoQueue = [] := h p hp hk hact
  rcases eq_or_ne fifoQueue q' with rfl | hne
  · exact hmoved.mq_self.trans hempty
  · exact (hmoved.mq_of_ne hne).trans hempty

/-- **An arrival.** -/
theorem Dn.Attended.dummynetIo {a : IoArgs} {r : IoResult} (h : s.Attended)
    (hg : Graph F S none s) (hm : ¬ s.Holds a.m.ptr) (hio : dummynetIo s a = some (r, t)) :
    t.Attended := by
  have hnote : ∀ {u v : Dn}, Goes {.note} F S none u v → u.Attended → v.Attended := fun hgo hu =>
    hgo.path.attended (by rintro _ rfl; simp [restMoves]) hu
  obtain ⟨u, hgu, -, -, -, -, -, hcases⟩ := dummynetIo_spec hg hio
  have hu : u.Attended := hgu.path.attended
    (by rintro _ (rfl | rfl | rfl | rfl) <;> simp [restMoves]) h
  rcases hcases with ⟨o, hdrop⟩ | ⟨fp, sp, w, -, -, hp, hq, -, -, henq⟩
  · exact hnote (dropIt_goes hgu.graph rfl hdrop) hu
  have hqueued := hgu.path.not_queued fun p hp q hin => hm ⟨p, hp, .inl ⟨q, hin⟩⟩
  have hhead := not_isHead (hqueued _ hp w.q)
  have hsound := hgu.graph.sound_load hp
  obtain ⟨drop, v, hcall, hcases⟩ := ioEnqueue_spec henq
  have hgv := hgu.graph.enqueue hp hq hhead hcall
  -- the other instances stay as they are
  have hrest : ∀ p' ∈ v.sis, p' ≠ w.si → (v.inst p').Attended := fun p' hp' hne => by
    obtain ⟨x, -, rfl⟩ := callback_spec hcall
    rw [u.store_inst_of_ne _ x hne]
    exact hu p' hp'
  rcases hcases with ⟨rfl, hdrop⟩ | ⟨-, hact, -, rfl⟩ | ⟨-, -, q, x, hserve, hback⟩
  · have hgo := note_goes (A := {.note}) hgv rfl v.ioPkt v.cfg.ioPktDrop v.ioPktFast
      (l := [.freed a.m]) (by simp [Event.isNote])
    exact hnote (hgo.trans (dropIt_goes hgo.graph rfl hdrop)) (hu.dropped hq hsound hhead hcall)
  · intro p' hp'
    rcases eq_or_ne p' w.si with rfl | hne
    · exact fun _ hidle => absurd (hact.symm.trans hidle) (by simp)
    · exact hrest p' hp' hne
  · obtain ⟨hgi, -, hsi⟩ := initialAllowance_goes (A := {.credit}) (p := w.si) sp hgv rfl
    have hother : ∀ p', p' ≠ w.si → (initialAllowance v w.si sp).inst p' = v.inst p' :=
      fun p' hne => by
        unfold initialAllowance
        dsimp only
        split
        · exact Dn.setInst_inst_of_ne _ _ hne
        · rfl
    have hpi : w.si ∈ (initialAllowance v w.si sp).sis := by
      rw [hsi]
      obtain ⟨y, -, rfl⟩ := callback_spec hcall
      exact hp
    obtain ⟨hgx, -⟩ := serveSched_spec hgi.graph hpi hserve
    refine hnote (handBack_goes hgx.graph rfl hback) (.serveSched (fun p' hp' hne => ?_) hserve)
    rw [hother p' hne]
    exact hrest p' (hsi ▸ hp') hne

/-- The stages of a configuration. -/
theorem stages_attended {c : Prop} (hstages : Relation.ReflTransGen (Stage c) s t)
    (h : s.Attended) : t.Attended := by
  induction hstages with
  | refl => exact h
  | tail _ hstage ih =>
    obtain ⟨K, hpath, -⟩ := hstage
    exact hpath.attended (by rintro _ hk (rfl | rfl | rfl | rfl) <;> exact hk) ih

/-- **One operation.** -/
theorem Dn.WellFormed.step_attended (h : s.WellFormed M) (ha : s.Attended) (hnew : op.NewTo s)
    (hs : s.step op = some (l, t)) : t.Attended := by
  obtain ⟨v, hv, he⟩ := Option.map_eq_some_iff.1 hs
  obtain ⟨rfl, rfl⟩ := Prod.mk.inj he
  obtain ⟨⟨F, S, hg, hh⟩, hE⟩ := h
  cases op with
  | io a env =>
    obtain ⟨⟨r, w⟩, hw, rfl⟩ := Option.map_eq_some_iff.1 hv
    have hg₀ : Graph F S none { s with log := [], env := env } := hg.withEnv
    have ha₀ : Dn.Attended { s with log := [], env := env } := ha.congr rfl rfl
    exact ha₀.dummynetIo hg₀ hnew hw
  | task env =>
    have hg₀ : Graph F S none { s with log := [], env := env } := hg.withEnv
    obtain ⟨u, x, w, q, hgu, -, -, hx, -, -, -, -, hcol, rfl⟩ :=
      dummynetTask_spec handles_attended hg₀ hE.forget hv
    have hu := hgu.path.attended (by rintro _ rfl; simp [restMoves]) (ha.congr rfl rfl)
    have hw := hcol.path.attended
      (by rintro _ hk (rfl | rfl | rfl | rfl) <;> exact hk) (hx hu)
    exact hw.congr rfl rfl
  | config os n env =>
    obtain ⟨⟨r, w⟩, hw, rfl⟩ := Option.map_eq_some_iff.1 hv
    have hg₀ : Graph F S none { s with log := [], env := env } := hg.withEnv
    obtain ⟨F', S', hb, -⟩ := doConfig_becomes (c := False) hg₀
      (hh.congr (fun _ => rfl) (fun _ => rfl) (fun _ => rfl) rfl) (fun hc => hc.elim) hw
    exact stages_attended hb.stages (ha.congr rfl rfl)
  | sysctl parms =>
    obtain rfl := Option.some.inj hv
    exact ha.congr rfl rfl

/-- **No packet is stuck.** As long as allocations succeed, a FIFO instance that has a packet in its
queue is in the event heap, and so is every delay line that holds packets, with the output time of
the first one. -/
theorem waiting_of_run {parms : DnParms} {schedlist : List SchedType}
    {l : List (DnOp × List Event)}
    (h : Runs.Run Dn.step (fun s op _ => op.NewTo s ∧ op.Ample) (Dn.init parms schedlist) l s)
    (hp : p ∈ s.sis) :
    ((s.inst p).kind = .fifo → s.queueOf p fifoQueue ≠ [] → s.evheap.Mem (.si p)) ∧
      ∀ d, (s.inst p).dline.head? = some d → s.evheap.Has ⟨d.tag.outputTime, .dline p⟩ := by
  have hsched := scheduled_of_run h
  have hattended : s.WellFormed False ∧ s.Attended := h.invariant
    (I := fun s => s.WellFormed False ∧ s.Attended)
    (fun _ _ _ _ hI hok hst => ⟨hI.1.step hok.1 (fun h => h.elim) hst,
      hI.1.step_attended hI.2 hok.1 hst⟩)
    ⟨wellFormed_init False parms schedlist, fun p hp => absurd hp (Finset.notMem_empty p)⟩
  refine ⟨fun hk hne => hsched.waiting (.si p) hp ?_, fun d hd => ?_⟩
  · change (s.inst p).active = true
    by_contra hact
    refine hne ?_
    rw [Dn.queueOf, if_pos hp]
    exact hattended.2 p hp hk (by simpa using hact)
  · have hline : (s.inst p).dline ≠ [] := fun hnil => by
      rw [hnil] at hd
      exact absurd hd (by simp)
    obtain ⟨k, hin⟩ := hsched.waiting (.dline p) hp ((hsched.line p hp).2 hline)
    have hdue := hsched.due k p hin
    rw [SchInst.due, hd] at hdue
    have hkey : d.tag.outputTime = k := Option.some.inj hdue
    rw [hkey]
    exact hin

/-- With a packet in the queue and one on the delay line. -/
theorem waiting_twoLong : ∃ s : Dn, s.queueOf 4 fifoQueue ≠ [] ∧ s.evheap.Mem (.si 4) ∧
    ∃ d, (s.inst 4).dline.head? = some d ∧ s.evheap.Has ⟨d.tag.outputTime, .dline 4⟩ := by
  obtain ⟨s, u, l, l', hl, hl', -, hu, hk, hlen, hhead⟩ := twoLong_runs
  obtain ⟨hqueue, hline⟩ := waiting_of_run (hl.trans (hl'.mono fun _ _ _ hok => hok.1)) hu
  have hqueued : u.queueOf 4 fifoQueue ≠ [] := fun hnil => by simp [hnil] at hlen
  obtain ⟨d, hd⟩ := Option.isSome_iff_exists.1 hhead
  exact ⟨u, hqueued, hqueue hk hqueued, d, hd, hline d hd⟩

end Dummynet
