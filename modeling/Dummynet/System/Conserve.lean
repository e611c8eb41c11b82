import Dummynet.System.Backlog
import Dummynet.System.History

/-!
# No packet is lost

Every packet that arrives is in dummynet until it leaves or is dropped, exactly once. Only the
deletions of a configuration lose packets.

## Main definitions

* `DnOp.arrivals`: the packet that an operation brings.
* `DnOp.Careful`: no queue with packets is deleted without its instance.

## Main results

* `Dn.WellFormed.step_conserves`: one operation.
* `held_le_of_run`, `conserved_of_run`: runs.
* `even_of_run`: the length of an instance is the sum of the lengths of its queues.
-/

namespace Dummynet

variable {F : Set FskPtr} {S : Set SchkPtr} {L : Option FskPtr} {s t u v : Dn} {p : SiPtr}
  {fp : FskPtr} {sp : SchkPtr} {M : Prop} {op : DnOp} {l l' : List Event} {K : SiPtr → Prop}

/-! ### Lengths -/

/-- The packets of a queue are packets in dummynet. -/
theorem mq_le_held (hp : p ∈ s.sis) {q : QPtr} (hq : q ∈ (s.inst p).queues) :
    ((s.inst p).s.mq q : Multiset Mbuf) ≤ s.held :=
  calc ((s.inst p).s.mq q : Multiset Mbuf)
      ≤ (s.inst p).s.packets (s.inst p).kind.multiqueue :=
        Finset.single_le_sum (f := fun q => ((s.inst p).s.mq q : Multiset Mbuf))
          (fun _ _ => Multiset.zero_le _) hq
    _ ≤ (s.inst p).held := Multiset.le_add_right ..
    _ ≤ s.held := Finset.single_le_sum (f := fun p => (s.inst p).held)
          (fun _ _ => Multiset.zero_le _) hp

/-- With less than `2 ^ 32` packets, the drain can rely on the lengths. -/
theorem Dn.EvenBut.honest (he : s.EvenBut K) (hg : Graph F S L s)
    (hcard : s.held.card < 2 ^ 32) : s.Honest := by
  intro p hp
  have hs := hg.sound p hp
  have hempty : ∀ q, ((s.inst p).s.queue q).ni.length = 0 → (s.inst p).s.mq q = [] := by
    intro q hlen
    by_cases hq : q ∈ (s.inst p).queues
    · have hlt : ((s.inst p).s.mq q).length < 2 ^ 32 :=
        (Multiset.card_le_card (mq_le_held hp hq)).trans_lt hcard
      have hcount : BitVec.ofNat 32 ((s.inst p).s.mq q).length = 0 := (hs.counted q).symm.trans hlen
      have hzero := congrArg BitVec.toNat hcount
      rw [BitVec.toNat_ofNat, Nat.mod_eq_of_lt hlt] at hzero
      exact List.length_eq_zero_iff.1 hzero
    · exact hs.tidy q hq
  refine ⟨hempty, fun hk hlen => hempty fifoQueue ?_⟩
  have heven : (s.inst p).s.ni.length = _ := he p hp (.inl hk)
  rw [Inst.backlog, Inst.queues, hk, if_neg (by simp), Finset.sum_singleton] at heven
  rw [← heven, hlen]

/-! ### One operation -/

/-- The packet that an operation brings. -/
def DnOp.arrivals : DnOp → Multiset Mbuf
  | .io a _ => {a.m}
  | _ => 0

/-- A lookup keeps the packets. -/
theorem Path.held_find (h : Path findMoves s t) : t.held = s.held := by
  refine h.invariant (I := fun t => t.held = s.held) (fun {k u v} hk hm hI => ?_) rfl
  rw [← hI]
  rcases hk with rfl | hk
  · cases hm
    rfl
  have hlog := (Path.single hm hk).lookup_keeps.1
  have hnote : k ≠ .note := by rintro rfl; simp [lookupMoves] at hk
  have henq : k ≠ .enqueue := by rintro rfl; simp [lookupMoves] at hk
  obtain ⟨lost, ⟨l, hl, -, hheld⟩, hlost⟩ := hm.balance hnote henq
  rw [hlog] at hl
  obtain rfl := List.self_eq_append_right.1 hl
  rw [hlost fun hlossy => by rcases hk with rfl | rfl | rfl <;> exact hlossy] at hheld
  simpa using hheld

/-- After a balance, packets leave dummynet. -/
theorem Balance.finish {x : Multiset Mbuf} (h : Balance s t x) (hs : s.log = [])
    (hlog : u.log = t.log ++ l) (hheld : u.held = t.held) (hfreed : freed l = [])
    (hrel : released l = []) :
    freed u.log = [] ∧ u.held + ((released u.log).map DlPkt.m : Multiset Mbuf) + x = s.held := by
  obtain ⟨l', hl', hf, hbal⟩ := h
  rw [hs, List.nil_append] at hl'
  rw [hlog, hl']
  refine ⟨by rw [freed_append, hf, hfreed]; rfl, ?_⟩
  rw [released_append, hrel, hheld, List.append_nil]
  exact hbal

theorem serveMoves_balance (h : Path serveMoves s t) : Balance s t 0 :=
  h.balance (by simp [serveMoves]) (by simp [serveMoves]) fun k hk hl => by
    rcases hk with rfl | rfl | rfl | rfl | rfl | rfl | rfl <;> exact hl

/-- The end of `dummynet_io` keeps the packets in dummynet. -/
theorem handBack_held {a : IoArgs} {q : List DlPkt} {r : IoResult} (h : handBack s a q = (r, t)) :
    ∃ l, t.log = s.log ++ l ∧ t.held = s.held ∧ freed l = [] ∧ released l = [] := by
  unfold handBack at h
  split at h
  · next d rest =>
    split at h
    · obtain ⟨-, rfl⟩ := Prod.mk.inj h
      cases rest with
      | nil => exact ⟨[.handed d], rfl, rfl, rfl, rfl⟩
      | cons e rest =>
        exact ⟨[.handed d, .chained (e :: rest)], List.append_assoc .., rfl, rfl, rfl⟩
    · obtain ⟨-, rfl⟩ := Prod.mk.inj h
      exact ⟨_, rfl, rfl, by simp [freed, List.filterMap_map], (sent_gone _).2⟩
  · obtain ⟨-, rfl⟩ := Prod.mk.inj h
    exact ⟨[], (List.append_nil _).symm, rfl, rfl, rfl⟩

/-- **The timer.** -/
theorem dummynetTask_balance (hg : Graph F S L s) (hE : Events M ∅ s) (he : s.EvenBut K)
    (hlog : s.log = []) (h : dummynetTask s = some t) : freed t.log = [] ∧
      ∃ lost, t.held + ((released t.log).map DlPkt.m : Multiset Mbuf) + lost = s.held ∧
        (s.held.card < 2 ^ 32 → lost = 0) := by
  obtain ⟨u, v, w, q, hgu, -, hlu, -, hgv, -, -, -, hcol, rfl⟩ :=
    dummynetTask_spec handles_true hg hE h
  have hbu : Balance s u 0 := hgu.path.balance (by simp) (by simp) fun k hk hl => by
    rcases hk with rfl
    exact hl
  have hbv := hbu.trans (serveMoves_balance hgv.path)
  rw [add_zero] at hbv
  have hlw := (hcol.path.mono dropMoves_subset).log_eq
  have hsend : ∀ {x}, Balance s w x → freed (dummynetSend w q).log = [] ∧
      (dummynetSend w q).held +
        ((released (dummynetSend w q).log).map DlPkt.m : Multiset Mbuf) + x = s.held := fun hb =>
    hb.finish hlog rfl rfl (by simp [freed, List.filterMap_map]) (sent_gone q).2
  obtain ⟨x, hbx⟩ := hcol.path.balance_lossy (A := collectMoves) (fun h => h) fun h => h
  refine ⟨(hsend (hbv.trans hbx)).1, ?_⟩
  by_cases hcard : s.held.card < 2 ^ 32
  · have hev : v.EvenBut K := by
      refine hgv.path.even (fun p hp => ?_) (hgu.path.even (fun p hp => ?_) he)
      · simp [serveMoves] at hp
      · simp at hp
    have hle : v.held.card ≤ s.held.card := by
      obtain ⟨l, -, -, hl⟩ := hbv
      rw [← hl, Multiset.card_add, Multiset.card_add]
      omega
    obtain ⟨-, hheld⟩ := hcol.spares (hev.honest hgv.graph (hle.trans_lt hcard))
    have hbw := hbv.trans (Balance.of_held hlw hheld)
    rw [add_zero] at hbw
    exact ⟨0, (hsend hbw).2, fun _ => rfl⟩
  · exact ⟨_, (hsend (hbv.trans hbx)).2, fun h => absurd h hcard⟩

/-- **An arrival.** -/
theorem dummynetIo_balance {a : IoArgs} {r : IoResult} (hg : Graph F S none s) (hlog : s.log = [])
    (hm : ¬ s.Holds a.m.ptr) (h : dummynetIo s a = some (r, t)) :
    t.held + (freed t.log : Multiset Mbuf) + ((released t.log).map DlPkt.m : Multiset Mbuf) =
      s.held + {a.m} := by
  obtain ⟨u, hgu, -, -, -, -, hlu, hcases⟩ := dummynetIo_spec hg h
  have hheld := hgu.path.held_find
  rw [hlog] at hlu
  rcases hcases with ⟨o, hdrop⟩ | ⟨fp, sp, w, -, -, hp, hq, -, -, henq⟩
  · obtain ⟨-, rfl⟩ := Prod.mk.inj hdrop
    change u.held + (freed (u.log ++ [_]) : Multiset Mbuf) +
      ((released (u.log ++ [_])).map DlPkt.m : Multiset Mbuf) = _
    rw [hlu, hheld]
    exact add_zero _
  have hqueued := hgu.path.not_queued fun p hp q hin => hm ⟨p, hp, .inl ⟨q, hin⟩⟩
  have hhead := not_isHead (hqueued w.si hp w.q)
  obtain ⟨drop, v, hcall, -, -, hlv, hcases⟩ := ioEnqueue_parts hgu.graph hp hq hhead henq
  have hv := enqueue_held hp hq (hgu.graph.sound_load hp) hhead hcall
  rw [hheld] at hv
  rw [hlu] at hlv
  rcases hcases with ⟨rfl, hdrop⟩ | ⟨rfl, rfl⟩ | ⟨rfl, -, i, q, x, rfl, hgi, hpi, -, hgx, hback⟩
  · obtain ⟨-, rfl⟩ := Prod.mk.inj hdrop
    change v.held + (freed (v.log ++ [_]) : Multiset Mbuf) +
      ((released (v.log ++ [_])).map DlPkt.m : Multiset Mbuf) = _
    rw [hlv, hv]
    simp [freed, released]
  · rw [hlv, hv]
    simp
  · have hli := (initialAllowance_log v w.si sp).trans hlv
    have hbi : (initialAllowance v w.si sp).held = v.held := by
      unfold initialAllowance
      dsimp only
      split
      · exact Dn.held_setInst rfl
      · rfl
    obtain ⟨l', hl', hx, hfreed, hrel⟩ := handBack_held hback
    obtain ⟨hf, hfin⟩ := (serveMoves_balance hgx.path).finish hli hl' hx hfreed hrel
    rw [add_zero, hbi, hv, if_neg (by decide)] at hfin
    rw [hf, ← hfin, Multiset.coe_nil, add_zero]

/-- The stages of a configuration, which lose packets. -/
theorem stages_balance {c : Prop} (h : Relation.ReflTransGen (Stage c) s t) :
    ∃ lost, t.held + lost = s.held := by
  induction h with
  | refl => exact ⟨0, add_zero _⟩
  | @tail u v _ hstage ih =>
    obtain ⟨x, hx⟩ := ih
    obtain ⟨K, hpath, -⟩ := hstage
    obtain ⟨y, l, -, -, hy⟩ := hpath.balance_lossy (A := confMoves K) (fun h => h) fun h => h
    refine ⟨((released l).map DlPkt.m : Multiset Mbuf) + y + x, ?_⟩
    rw [← hx, ← hy]
    abel

/-- **One operation.** Traffic loses no packets. -/
theorem Dn.WellFormed.step_conserves (h : s.WellFormed M) (he : s.EvenBut K)
    (hnew : op.NewTo s) (hs : s.step op = some (l, t)) : ∃ lost,
      t.held + (freed l : Multiset Mbuf) + ((gone l).map DlPkt.m : Multiset Mbuf) + lost =
        s.held + op.arrivals ∧ (op.Traffic → s.held.card < 2 ^ 32 → lost = 0) := by
  rw [(h.step_gone hnew hs).1]
  obtain ⟨v, hv, heq⟩ := Option.map_eq_some_iff.1 hs
  obtain ⟨rfl, rfl⟩ := Prod.mk.inj heq
  obtain ⟨⟨F, S, hg, hh⟩, hE⟩ := h
  cases op with
  | io a env =>
    obtain ⟨⟨r, w⟩, hw, rfl⟩ := Option.map_eq_some_iff.1 hv
    have hg₀ : Graph F S none { s with log := [], env := env } := hg.withEnv
    have hbalance := dummynetIo_balance hg₀ rfl hnew hw
    refine ⟨0, ?_, fun _ _ => rfl⟩
    rw [add_zero]
    exact hbalance
  | task env =>
    have hg₀ : Graph F S none { s with log := [], env := env } := hg.withEnv
    obtain ⟨hf, lost, hlost, hzero⟩ := dummynetTask_balance hg₀
      hE.forget (he.congr rfl rfl) rfl hv
    refine ⟨lost, ?_, fun _ hcard => hzero hcard⟩
    rw [hf, Multiset.coe_nil, add_zero, hlost]
    exact (add_zero _).symm
  | config os n env =>
    obtain ⟨⟨r, w⟩, hw, rfl⟩ := Option.map_eq_some_iff.1 hv
    have hg₀ : Graph F S none { s with log := [], env := env } := hg.withEnv
    obtain ⟨F', S', hb, -⟩ := doConfig_becomes (c := False) hg₀
      (hh.congr (fun _ => rfl) (fun _ => rfl) (fun _ => rfl) rfl) (fun hc => hc.elim) hw
    have hlog : w.log = [] := stages_log hb.stages
    obtain ⟨lost, hlost⟩ := stages_balance hb.stages
    refine ⟨lost, ?_, fun htraffic => htraffic.elim⟩
    change w.held + (freed w.log : Multiset Mbuf) + ((released w.log).map DlPkt.m : Multiset Mbuf) +
      lost = s.held + 0
    have hheld : w.held + lost = s.held := hlost
    rw [hlog]
    simpa using hheld
  | sysctl parms =>
    obtain rfl := Option.some.inj hv
    refine ⟨0, ?_, fun _ _ => rfl⟩
    change s.held + 0 + 0 + 0 = s.held + 0
    simp

/-! ### Runs -/

/-- The packets that the operations of a run brought. -/
def arrivals (l : List (DnOp × List Event)) : Multiset Mbuf := (l.map fun x => x.1.arrivals).sum

theorem arrivals_snoc (l : List (DnOp × List Event)) (x : DnOp × List Event) :
    arrivals (l ++ [x]) = arrivals l + x.1.arrivals := by
  simp [arrivals]

/-- Where the packets of a run have gone. -/
def left (l : List (DnOp × List Event)) : Multiset Mbuf :=
  (freed (records l) : Multiset Mbuf) + ((gone (records l)).map DlPkt.m : Multiset Mbuf)

theorem left_snoc (l : List (DnOp × List Event)) (x : DnOp × List Event) :
    left (l ++ [x]) = left l + ((freed x.2 : Multiset Mbuf) +
      ((gone x.2).map DlPkt.m : Multiset Mbuf)) := by
  rw [left, records_snoc, freed_append, gone_append, List.map_append, ← Multiset.coe_add,
    ← Multiset.coe_add, left]
  abel

/-- **Every operation** keeps single queues even. -/
theorem Dn.WellFormed.step_even (h : s.WellFormed M) (he : s.EvenBut fun _ => True)
    (hnew : op.NewTo s) (hs : s.step op = some (l, t)) : t.EvenBut fun _ => True := by
  obtain ⟨s₀, u, hinst, hsis, hfind, -, hrest, -⟩ := h.step_paths hnew hs
  exact hrest.even (fun _ _ => trivial) (hfind.even (fun _ _ => trivial) (he.congr hinst hsis))

theorem evenBut_init (K : SiPtr → Prop) (parms : DnParms) (schedlist : List SchedType) :
    (Dn.init parms schedlist).EvenBut K := fun p hp => absurd hp (Finset.notMem_empty p)

/-- What holds in every run. -/
theorem sound_of_run {parms : DnParms} {schedlist : List SchedType}
    {l : List (DnOp × List Event)}
    (h : Runs.Run Dn.step (fun s op _ => op.NewTo s) (Dn.init parms schedlist) l s) :
    s.WellFormed False ∧ s.EvenBut fun _ => True :=
  h.invariant (I := fun s => s.WellFormed False ∧ s.EvenBut fun _ => True)
    (fun _ _ _ _ hI hok hst => ⟨hI.1.step hok (fun h => h.elim) hst, hI.1.step_even hI.2 hok hst⟩)
    ⟨wellFormed_init False parms schedlist, evenBut_init _ parms schedlist⟩

/-- **No packet twice.** In every run, also with configurations, a packet that arrives is at most
once in dummynet, among the dropped packets or among the ones that have left. -/
theorem held_le_of_run {parms : DnParms} {schedlist : List SchedType}
    {l : List (DnOp × List Event)}
    (h : Runs.Run Dn.step (fun s op _ => op.NewTo s) (Dn.init parms schedlist) l s) :
    s.held + left l ≤ arrivals l := by
  induction h with
  | nil => exact le_rfl
  | @snoc t u l op o hr hok hst ih =>
    obtain ⟨hwf, heven⟩ := sound_of_run hr
    obtain ⟨lost, hstep, -⟩ := hwf.step_conserves heven hok hst
    rw [left_snoc, arrivals_snoc]
    obtain ⟨x, hx⟩ := Multiset.le_iff_exists_add.1 ih
    refine Multiset.le_iff_exists_add.2 ⟨lost + x, ?_⟩
    calc arrivals l + op.arrivals
        = t.held + op.arrivals + left l + x := by rw [hx]; abel
      _ = u.held + (left l + ((freed o : Multiset Mbuf) +
          ((gone o).map DlPkt.m : Multiset Mbuf))) + (lost + x) := by rw [← hstep]; abel

theorem card_arrivals_le (l : List (DnOp × List Event)) : (arrivals l).card ≤ l.length := by
  induction l using List.reverseRecOn with
  | nil => exact le_rfl
  | append_singleton l x ih =>
    rw [arrivals_snoc, Multiset.card_add, List.length_append]
    have hone : x.1.arrivals.card ≤ 1 := by
      cases x.1 with
      | io a env => exact le_rfl
      | _ => exact Nat.zero_le 1
    exact Nat.add_le_add ih hone

/-- **No packet is lost.** As long as nothing is configured, a packet that was in dummynet or has
arrived is in dummynet, was dropped or has left, and only one of these, exactly once. -/
theorem conserved_of_run {parms : DnParms} {schedlist : List SchedType}
    {l l' : List (DnOp × List Event)}
    (h : Runs.Run Dn.step (fun s op _ => op.NewTo s) (Dn.init parms schedlist) l s)
    (h' : Runs.Run Dn.step (fun s op _ => op.NewTo s ∧ op.Traffic) s l' t)
    (hlen : l.length + l'.length ≤ 2 ^ 32) : t.held + left l' = s.held + arrivals l' := by
  induction h' with
  | nil => rfl
  | @snoc t u l' op o hr hok hst ih =>
    rw [List.length_append, List.length_singleton] at hlen
    have hrun := h.trans (hr.mono fun _ _ _ hok => hok.1)
    obtain ⟨hwf, heven⟩ := sound_of_run hrun
    have hcard : t.held.card < 2 ^ 32 := by
      have hle := Multiset.card_le_card (held_le_of_run hrun)
      have hops := card_arrivals_le (l ++ l')
      rw [Multiset.card_add] at hle
      rw [List.length_append] at hops
      omega
    obtain ⟨lost, hstep, hzero⟩ := hwf.step_conserves heven hok.1 hst
    rw [hzero hok.2 hcard, add_zero] at hstep
    rw [left_snoc, arrivals_snoc]
    calc u.held + (left l' + ((freed o : Multiset Mbuf) + ((gone o).map DlPkt.m : Multiset Mbuf)))
        = u.held + (freed o : Multiset Mbuf) + ((gone o).map DlPkt.m : Multiset Mbuf) +
          left l' := by abel
      _ = t.held + left l' + op.arrivals := by rw [hstep]; abel
      _ = s.held + (arrivals l' + op.arrivals) := by rw [ih (by omega), add_assoc]

/-- A packet that is still there after the timer. -/
theorem held_le_threeOps : ∃ (s : Dn) (l : List (DnOp × List Event)),
    4 ∈ s.sis ∧ s.held + left l ≤ arrivals l := by
  obtain ⟨l, u, hl, hu, -⟩ := threeOps_run
  exact ⟨u, l, hu, held_le_of_run (hl.mono fun _ _ _ hok => hok.1)⟩

/-- A packet that arrived, and is still there after the timer. -/
theorem conserved_threeOps : ∃ (s t : Dn) (l : List (DnOp × List Event)),
    (t.lineOf 4).length = 1 ∧ t.held + left l = s.held + arrivals l := by
  obtain ⟨s, t, u, h, hs, ht, hu, -, hlen⟩ := threeOps_spec
  obtain ⟨o₁, o₂, o₃, hl, hl'⟩ := threeOps_runs h hs ht hu
  refine ⟨s, u, _, ?_, conserved_of_run (hl.mono fun _ _ _ hok => hok.1.1)
    (hl'.mono fun _ _ _ hok => ⟨hok.1.1, hok.2.1⟩) (by decide : (3 : ℕ) ≤ 2 ^ 32)⟩
  rw [Dn.lineOf, if_pos hu, List.length_map, hlen]

/-! ### Lengths in a run -/

/-- No queue that holds packets is deleted without its instance. -/
def DnOp.Careful (s : Dn) : DnOp → Prop
  | .config os _ env => Dn.CarefulAll os { s with log := [], env := env }
  | _ => True

theorem Dn.EvenBut.mono {K' : SiPtr → Prop} (h : s.EvenBut K) (hK : ∀ p ∈ s.sis, K p → K' p) :
    s.EvenBut K' := fun p hp hk =>
  h p hp (hk.imp_right fun hn hKp => hn (hK p hp hKp))

/-- The stages of a careful configuration. -/
theorem stages_even (h : Relation.ReflTransGen (Stage True) s t) (hs : s.EvenBut fun _ => False) :
    t.EvenBut fun _ => False := by
  induction h with
  | refl => exact hs
  | tail _ hstage ih =>
    obtain ⟨K, hpath, hgone⟩ := hstage
    have hK := hpath.even (K := K) (fun p hp => hp) (ih.mono fun _ _ h => h.elim)
    exact hK.mono fun p hp hKp => hgone trivial p hp hKp

/-- **Every careful operation** keeps the instances even. -/
theorem Dn.WellFormed.step_even_careful (h : s.WellFormed M) (he : s.EvenBut fun _ => False)
    (hnew : op.NewTo s) (hcare : op.Careful s) (hs : s.step op = some (l, t)) :
    t.EvenBut fun _ => False := by
  obtain ⟨v, hv, heq⟩ := Option.map_eq_some_iff.1 hs
  obtain ⟨rfl, rfl⟩ := Prod.mk.inj heq
  obtain ⟨⟨F, S, hg, hh⟩, hE⟩ := h
  have hpath : ∀ {A : Set MoveKind} {u w : Dn}, Path A u w → (∀ p, MoveKind.purge p ∉ A) →
      u.EvenBut (fun _ => False) → w.EvenBut fun _ => False := fun hp hA hu =>
    hp.even (fun p hmem => hA p hmem) hu
  cases op with
  | io a env =>
    obtain ⟨⟨r, w⟩, hw, rfl⟩ := Option.map_eq_some_iff.1 hv
    have hg₀ : Graph F S none { s with log := [], env := env } := hg.withEnv
    obtain ⟨hgo, -⟩ := dummynetIo_goes hg₀ hnew hw
    exact hpath hgo.path (by simp [ioMoves, findMoves, lookupMoves, serveMoves]) (he.congr rfl rfl)
  | task env =>
    have hg₀ : Graph F S none { s with log := [], env := env } := hg.withEnv
    obtain ⟨u, x, w, q, hgu, -, -, -, hgx, -, -, -, hcol, rfl⟩ :=
      dummynetTask_spec handles_true hg₀ hE.forget hv
    have hu := hpath hgu.path (by simp) (he.congr rfl rfl)
    have hx := hpath hgx.path (by simp [serveMoves]) hu
    exact (hpath hcol.path (fun p hp => hp) hx).congr rfl rfl
  | config os n env =>
    obtain ⟨⟨r, w⟩, hw, rfl⟩ := Option.map_eq_some_iff.1 hv
    have hg₀ : Graph F S none { s with log := [], env := env } := hg.withEnv
    obtain ⟨F', S', hb, -⟩ := doConfig_becomes (c := True) hg₀
      (hh.congr (fun _ => rfl) (fun _ => rfl) (fun _ => rfl) rfl) (fun _ => hcare) hw
    exact stages_even hb.stages (he.congr rfl rfl)
  | sysctl parms =>
    obtain rfl := Option.some.inj hv
    exact he.congr rfl rfl

/-- **The backlog.** In a run in which no queue that holds packets is deleted without its instance,
the length of an instance is the sum of the lengths of its queues, which are the numbers of their
packets. -/
theorem even_of_run {parms : DnParms} {schedlist : List SchedType}
    {l : List (DnOp × List Event)}
    (h : Runs.Run Dn.step (fun s op _ => op.NewTo s ∧ op.Careful s) (Dn.init parms schedlist) l s) :
    ∀ p ∈ s.sis, (s.inst p).Even ∧ ∀ q, ((s.inst p).s.queue q).Counted := by
  obtain ⟨hwf, heven⟩ := h.invariant
    (I := fun s => s.WellFormed False ∧ s.EvenBut fun _ => False)
    (fun _ _ _ _ hI hok hst => ⟨hI.1.step hok.1 (fun h => h.elim) hst,
      hI.1.step_even_careful hI.2 hok.1 hok.2 hst⟩)
    ⟨wellFormed_init False parms schedlist, evenBut_init _ parms schedlist⟩
  obtain ⟨⟨F, S, hg, -⟩, -⟩ := hwf
  exact fun p hp => ⟨heven p hp (.inr id), (hg.sound p hp).counted⟩

theorem opLink_careful : opLink.Careful (Dn.init {} [.fifo, .wf2qp, .rr]) := by
  have hspares : ∀ {s : Dn} {i : BitVec 32}, s.fsk = (fun _ => {}) → s.Spares i := by
    intro s i hs fp _
    refine .inl fun a ha => absurd ha ?_
    rw [hs]
    exact List.not_mem_nil
  refine ⟨trivial, fun t ht => ⟨?_, fun t' _ => ⟨trivial, fun _ _ => trivial⟩⟩⟩
  obtain ⟨-, rfl⟩ := Prod.mk.inj (Option.some.inj ht)
  exact ⟨hspares rfl, hspares rfl⟩

/-- With an instance. -/
theorem even_threeOps : ∃ s : Dn, 4 ∈ s.sis ∧
    ∀ p ∈ s.sis, (s.inst p).Even ∧ ∀ q, ((s.inst p).s.queue q).Counted := by
  obtain ⟨s, t, u, h, hs, ht, hu, -, -⟩ := threeOps_spec
  obtain ⟨o₁, o₂, o₃, hl, hl'⟩ := threeOps_runs h hs ht hu
  have hcareful : ∀ {s : Dn} {op : DnOp}, op.Traffic → op.Careful s := fun {s op} htraffic => by
    cases op with
    | config => exact htraffic.elim
    | _ => trivial
  refine ⟨u, hu, even_of_run ((hl.mono fun s op _ hok => ⟨hok.1.1, ?_⟩).trans
    (hl'.mono fun _ _ _ hok => ⟨hok.1.1, hcareful hok.2.1⟩))⟩
  rw [hok.2.1, hok.2.2]
  exact opLink_careful

end Dummynet
