import Dummynet.System.Serve

/-!
# A packet arrives

`dummynet_io`: the queue or instance for the packet is found or made, the scheduler takes the
packet or drops it, and an instance that was idle is served.

## Main definitions

* `Dn.Holds`: a packet is in a queue or on a delay line.
* `ioMoves`: the changes that a packet makes.

## Main results

* `dummynetIo_spec`, `ioEnqueue_spec`: the two parts of `dummynet_io`.
* `dummynetIo_goes`: an arrival keeps the graph.
-/

namespace Dummynet

variable {F : Set FskPtr} {S : Set SchkPtr} {L : Option FskPtr} {s t u v : Dn} {p : SiPtr}
  {fp : FskPtr} {sp : SchkPtr} {A : Set MoveKind}

/-- The packet at the address `ptr` is in a queue or on a delay line. -/
def Dn.Holds (s : Dn) (ptr : ℕ) : Prop :=
  ∃ p ∈ s.sis, (∃ q, ptr ∈ ((s.inst p).s.mq q).map Mbuf.ptr) ∨
    ptr ∈ (s.inst p).dline.map fun d => d.m.ptr

/-- The changes before the scheduler is asked. -/
def findMoves : Set MoveKind := insert .note lookupMoves

/-- The changes that a packet makes. -/
def ioMoves : Set MoveKind := findMoves ∪ serveMoves ∪ {.enqueue}

theorem findMoves_subset : findMoves ⊆ ioMoves := fun _ h => .inl (.inl h)

theorem serveMoves_subset : serveMoves ⊆ ioMoves := fun _ h => .inl (.inr h)

theorem lookupMoves_subset : lookupMoves ⊆ findMoves := fun _ h => .inr h

theorem note_mem_findMoves : MoveKind.note ∈ findMoves := .inl rfl

/-! ### Counters and records -/

/-- The counters of packets and what is recorded. -/
theorem note_goes (hg : Graph F S L s) (hA : MoveKind.note ∈ A) (n m f : BitVec 64)
    {l : List Event} (hl : ∀ e ∈ l, e.isNote) :
    Goes A F S L s { s with
      ioPkt := n, ioPktFast := f, cfg := { s.cfg with ioPktDrop := m }, log := s.log ++ l } :=
  ⟨hg.of_eq rfl rfl rfl rfl rfl le_rfl, .single (.note n m f hl) hA⟩

/-- A packet is counted. -/
theorem count_goes (hg : Graph F S L s) (hA : MoveKind.note ∈ A) (n : BitVec 64) :
    Goes A F S L s { s with ioPkt := n } := by
  have hgo := note_goes hg hA n s.cfg.ioPktDrop s.ioPktFast (l := []) (by simp)
  rw [List.append_nil] at hgo
  exact hgo

/-- **The label `dropit`.** -/
theorem dropIt_goes {o : Option FskPtr} {m : Option Mbuf} {r : IoResult} (hg : Graph F S L s)
    (hA : MoveKind.note ∈ A) (h : dropIt s o m = (r, t)) : Goes A F S L s t := by
  obtain ⟨-, rfl⟩ := Prod.mk.inj h
  cases m with
  | none =>
    have hgo := note_goes hg hA s.ioPkt (s.cfg.ioPktDrop + 1) s.ioPktFast (l := []) (by simp)
    rw [List.append_nil] at hgo
    exact hgo
  | some m =>
    exact note_goes hg hA s.ioPkt (s.cfg.ioPktDrop + 1) s.ioPktFast (l := [.freed m])
      (by simp [Event.isNote])

/-- **`dummynet_send`.** -/
theorem dummynetSend_goes (hg : Graph F S L s) (hA : MoveKind.note ∈ A) (q : List DlPkt) :
    Goes A F S L s (dummynetSend s q) :=
  note_goes hg hA s.ioPkt s.cfg.ioPktDrop s.ioPktFast (by simp [Event.isNote])

/-- The end of `dummynet_io`. -/
theorem handBack_goes {a : IoArgs} {q : List DlPkt} {r : IoResult} (hg : Graph F S L s)
    (hA : MoveKind.note ∈ A) (h : handBack s a q = (r, t)) : Goes A F S L s t := by
  unfold handBack at h
  split at h
  · next d rest =>
    split at h
    · obtain ⟨-, rfl⟩ := Prod.mk.inj h
      have hgo := note_goes hg hA s.ioPkt s.cfg.ioPktDrop (s.ioPktFast + 1) (l := [.handed d])
        (by simp [Event.isNote])
      split_ifs
      · exact hgo
      · exact hgo.trans (note_goes hgo.graph hA s.ioPkt s.cfg.ioPktDrop (s.ioPktFast + 1)
          (l := [.chained rest]) (by simp [Event.isNote]))
    · obtain ⟨-, rfl⟩ := Prod.mk.inj h
      exact dummynetSend_goes hg hA _
  · obtain ⟨-, rfl⟩ := Prod.mk.inj h
    exact .refl hg

/-! ### The queue for a packet -/

/-- The instance and the queue that `dummynet_io` finds or makes. -/
theorem locateQueue_goes {id : FlowId} {o : Option QAddr} (hg : Graph F S none s)
    (hsched : (s.fsk fp).sched = some sp) (h : locateQueue s fp sp id = some (o, t)) :
    Goes lookupMoves F S none s t ∧ Found s t ∧ ∀ w, o = some w →
      w.si ∈ t.sis ∧ w.q ∈ (t.inst w.si).queues ∧ (t.inst w.si).sched = sp := by
  have hfp : fp ∈ F := by
    by_contra hfp
    rw [hg.fsk_zero fp hfp] at hsched
    exact absurd hsched (by simp)
  obtain ⟨kind, hkind, h⟩ := Option.bind_eq_some_iff.1 h
  cases hm : kind.multiqueue with
  | true =>
    simp only [hm, if_true] at h
    obtain ⟨hgo, hfound, ha⟩ := ipdnQFind_goes hg hfp (fun sp' kind' hsp' hk' => by
      obtain rfl := Option.some.inj (hsched.symm.trans hsp')
      obtain rfl := Option.some.inj (hkind.symm.trans hk')
      exact hm) h
    refine ⟨hgo, hfound, fun w hw => ?_⟩
    obtain ⟨hp, hq, hqfs⟩ := (hgo.graph.queues fp w).1 (ha w hw)
    obtain ⟨fp', hfp', hs⟩ := hgo.graph.attached _ hp _ hq
    obtain rfl := Option.some.inj (hqfs.symm.trans hfp')
    rw [hfound.sched, hsched] at hs
    refine ⟨hp, ?_, (Option.some.inj hs).symm⟩
    have hmulti : (t.inst w.si).kind.multiqueue = true := by
      by_contra hk
      rw [(hgo.graph.sound _ hp).single (by simpa using hk)] at hq
      exact absurd hq (Finset.notMem_empty _)
    rw [SchInst.queues, Inst.queues, if_pos hmulti]
    exact hq
  | false =>
    simp only [hm, Bool.false_eq_true, if_false] at h
    obtain ⟨⟨o', u⟩, hfind, h⟩ := Option.bind_eq_some_iff.1 h
    obtain ⟨hgo, hfound, -, -, hp⟩ := ipdnSiFind_goes hg hfind
    obtain ⟨rfl, rfl⟩ := Prod.mk.inj (Option.some.inj h)
    refine ⟨hgo, hfound, fun w hw => ?_⟩
    obtain ⟨p, rfl, rfl⟩ := Option.map_eq_some_iff.1 hw
    obtain ⟨hmem, hs⟩ := hp p rfl
    refine ⟨hmem, ?_, hs⟩
    have hk := hgo.graph.kind p hmem
    rw [hs, hfound.fp, hkind] at hk
    have hsingle : (u.inst p).kind.multiqueue = false := by
      rw [← Option.some.inj hk]
      exact hm
    simp [SchInst.queues, Inst.queues, hsingle]

/-- A lookup brings no packets. -/
theorem Path.not_queued {ptr : ℕ} (h : Path findMoves s t)
    (hs : ∀ p ∈ s.sis, ∀ q, ptr ∉ ((s.inst p).s.mq q).map Mbuf.ptr) :
    ∀ p ∈ t.sis, ∀ q, ptr ∉ ((t.inst p).s.mq q).map Mbuf.ptr := by
  refine h.invariant (I := fun t => ∀ p ∈ t.sis, ∀ q, ptr ∉ ((t.inst p).s.mq q).map Mbuf.ptr)
    (fun {k u v} hk hm hu => ?_) hs
  cases hm with
  | quiet hq => rwa [hq.sis, hq.inst]
  | note => exact hu
  | @new _ p x hp hx =>
    intro p' hp' q
    rcases eq_or_ne p' p with rfl | hne
    · have hself : (u.addInst p' x).inst p' = x := Function.update_self ..
      rw [hself, Inst.mq, hx.mq]
      exact List.not_mem_nil
    · have hother : (u.addInst p x).inst p' = u.inst p' := Function.update_of_ne hne ..
      rw [hother]
      exact hu p' ((Finset.mem_insert.1 hp').resolve_left hne) q
  | @newQueue _ _ p q₀ fp id _ hp hq hmulti hsound hcall =>
    obtain ⟨r, hmap, rfl⟩ := callback_setInst_spec hcall
    obtain ⟨r', hnew, he⟩ := Option.map_eq_some_iff.1 hmap
    obtain ⟨-, rfl⟩ := Prod.mk.inj he
    obtain ⟨-, -, -, -, hqueue, -⟩ := qNew_shell hnew
    intro p' hp' q
    rcases eq_or_ne p' p with rfl | hne
    · rw [u.store_inst]
      change ptr ∉ ((r'.queue q).mq).map Mbuf.ptr
      rw [hqueue]
      rcases eq_or_ne q q₀ with rfl | hq'
      · rw [Function.update_self]
        exact List.not_mem_nil
      · rw [Function.update_of_ne hq']
        exact hu p' hp' q
    · rw [u.store_inst_of_ne _ r' hne]
      exact hu p' hp' q
  | _ => rcases hk with hk | hk | hk | hk <;> exact absurd hk (by simp)

/-- A lookup does nothing to packets, the clock and the counters of packets. -/
theorem Path.lookup_keeps (h : Path lookupMoves s t) :
    t.log = s.log ∧ t.ioPkt = s.ioPkt ∧ t.currTime = s.currTime ∧
      t.cfg.ioPktDrop = s.cfg.ioPktDrop := by
  refine h.invariant (I := fun t => t.log = s.log ∧ t.ioPkt = s.ioPkt ∧ t.currTime = s.currTime ∧
      t.cfg.ioPktDrop = s.cfg.ioPktDrop) (fun {k u v} hk hm hu => ?_) ⟨rfl, rfl, rfl, rfl⟩
  cases hm with
  | quiet hq => exact ⟨hq.log.trans hu.1, hq.ioPkt.trans hu.2.1,
      (congrArg DnCfg.currTime hq.cfg).trans hu.2.2.1,
      (congrArg DnCfg.ioPktDrop hq.cfg).trans hu.2.2.2⟩
  | new => exact hu
  | newQueue hp hq hmulti hsound hcall =>
    obtain ⟨r, hmap, rfl⟩ := callback_setInst_spec hcall
    obtain ⟨r', hnew, he⟩ := Option.map_eq_some_iff.1 hmap
    obtain ⟨-, rfl⟩ := Prod.mk.inj he
    obtain ⟨-, -, -, -, -, hcfg⟩ := qNew_shell hnew
    refine ⟨hu.1, hu.2.1, (congrArg DnCfg.currTime hcfg).trans hu.2.2.1,
      (congrArg DnCfg.ioPktDrop hcfg).trans hu.2.2.2⟩
  | _ => rcases hk with hk | hk | hk <;> exact absurd hk (by simp)

/-! ### The arrival -/

/-- **`dummynet_io` until the queue is found.** The packet is counted and has its tag; it is dropped
there, or goes to a queue of an instance. -/
theorem dummynetIo_spec {a : IoArgs} {r : IoResult} (hg : Graph F S none s)
    (h : dummynetIo s a = some (r, t)) :
    ∃ u, Goes findMoves F S none s u ∧ Kept s u ∧ u.currTime = s.currTime ∧
      u.ioPkt = s.ioPkt + 1 ∧ u.cfg.ioPktDrop = s.cfg.ioPktDrop ∧ u.log = s.log ∧
      ((∃ o, dropIt u o (some a.m) = (r, t)) ∨
        ∃ fp sp w, s.findFs a.fsNr = some fp ∧ (s.fsk fp).sched = some sp ∧ w.si ∈ u.sis ∧
          w.q ∈ (u.inst w.si).queues ∧ (u.inst w.si).sched = sp ∧
          u.tags a.m.ptr = ⟨a.dir, s.currTime⟩ ∧ ioEnqueue u a fp sp w = some (r, t)) := by
  have hcount := count_goes hg note_mem_findMoves (s.ioPkt + 1)
  have hm := silent_malloc ({ s with ioPkt := s.ioPkt + 1 } : Dn)
  unfold dummynetIo at h
  obtain ⟨ok, u, hmu⟩ : ∃ ok u, ({ s with ioPkt := s.ioPkt + 1 } : Dn).malloc = (ok, u) :=
    ⟨_, _, rfl⟩
  rw [hmu] at hm
  dsimp only at h
  rw [hmu] at h
  have hcur : u.currTime = s.currTime := congrArg DnCfg.currTime hm.cfg
  have hdrop : u.cfg.ioPktDrop = s.cfg.ioPktDrop := congrArg DnCfg.ioPktDrop hm.cfg
  have hgo := hcount.trans (hm.goes hcount.graph (lookupMoves_subset (by simp [lookupMoves])))
  have hkept : Kept s u := .of_eq hm.fsk hm.schk hm.fshash hm.schedhash
  dsimp only at h
  split at h
  · exact ⟨u, hgo, hkept, hcur, hm.ioPkt, hdrop, hm.log, .inl ⟨none, Option.some.inj h⟩⟩
  · set v : Dn := { u with tags := Function.update u.tags a.m.ptr ⟨a.dir, u.currTime⟩ } with hv
    have hgv : Goes findMoves F S none s v := hgo.trans ⟨hgo.graph.of_eq rfl rfl rfl rfl rfl le_rfl,
      .single (.quiet ⟨⟨rfl, rfl, rfl, rfl, rfl, id⟩, rfl, rfl, rfl⟩ fun _ => rfl)
        (lookupMoves_subset (by simp [lookupMoves]))⟩
    have hkv : Kept s v := .of_eq hm.fsk hm.schk hm.fshash hm.schedhash
    have hfind : v.findFs a.fsNr = s.findFs a.fsNr := findFs_congr hkv.fshash hkv.head _
    split at h
    · exact ⟨v, hgv, hkv, hcur, hm.ioPkt, hdrop, hm.log, .inl ⟨none, Option.some.inj h⟩⟩
    · next fp hfp =>
      split at h
      · exact ⟨v, hgv, hkv, hcur, hm.ioPkt, hdrop, hm.log, .inl ⟨some fp, Option.some.inj h⟩⟩
      · next sp hsp =>
        obtain ⟨⟨o, w⟩, hloc, h⟩ := Option.bind_eq_some_iff.1 h
        obtain ⟨hgl, hfound, hw⟩ := locateQueue_goes hgv.graph hsp hloc
        obtain ⟨hlog, hio, htime, hdr⟩ := hgl.path.lookup_keeps
        refine ⟨w, hgv.trans (hgl.mono lookupMoves_subset), hkv.trans hfound.toKept,
          htime.trans hcur, hio.trans hm.ioPkt, hdr.trans hdrop, hlog.trans hm.log, ?_⟩
        rcases o with _ | a'
        · exact .inl ⟨some fp, Option.some.inj h⟩
        · obtain ⟨hp, hq, hs⟩ := hw a' rfl
          refine .inr ⟨fp, sp, a', by rw [← hfind, hfp], ?_, hp, hq, hs, ?_, h⟩
          · rw [← hkv.sched, hsp]
          · rw [hfound.tags, hv]
            simp [hcur]

/-- **`dummynet_io` after the queue was found.** The scheduler drops the packet, takes it while the
instance is busy, or takes it and the instance is served. -/
theorem ioEnqueue_spec {a : IoArgs} {w : QAddr} {r : IoResult}
    (h : ioEnqueue s a fp sp w = some (r, t)) : ∃ drop u,
      s.callback w.si (fun k t => k.desc.enqueue t w.q a.m s.env.draws) = some (drop, u) ∧
      (drop = true ∧ dropIt (u.emit (.freed a.m)) (some fp) none = (r, t) ∨
        drop = false ∧ (u.inst w.si).active = true ∧ r = {} ∧ t = u ∨
        drop = false ∧ (u.inst w.si).active = false ∧ ∃ q v,
          serveSched (initialAllowance u w.si sp) [] w.si
            (initialAllowance u w.si sp).currTime = some (q, v) ∧ handBack v a q = (r, t)) := by
  obtain ⟨⟨drop, u⟩, hcall, h⟩ := Option.bind_eq_some_iff.1 h
  refine ⟨drop, u, hcall, ?_⟩
  have hcur : (initialAllowance u w.si sp).currTime = u.currTime := by
    unfold initialAllowance
    dsimp only
    split <;> rfl
  cases drop with
  | true => exact .inl ⟨rfl, Option.some.inj h⟩
  | false =>
    refine .inr ?_
    simp only [Bool.false_eq_true, if_false] at h
    cases hact : (u.inst w.si).active with
    | true =>
      simp only [hact, if_true] at h
      obtain ⟨rfl, rfl⟩ := Prod.mk.inj (Option.some.inj h)
      exact .inl ⟨rfl, rfl, rfl, rfl⟩
    | false =>
      simp only [hact, Bool.false_eq_true, if_false] at h
      obtain ⟨⟨q, v⟩, hserve, h⟩ := Option.bind_eq_some_iff.1 h
      rw [hcur]
      exact .inr ⟨rfl, rfl, q, v, hserve, Option.some.inj h⟩

/-- The initial allowance is a change of the credit. -/
theorem initialAllowance_goes (sp : SchkPtr) (hg : Graph F S L s) (hA : MoveKind.credit ∈ A) :
    Goes A F S L s (initialAllowance s p sp) ∧ Kept s (initialAllowance s p sp) ∧
      (initialAllowance s p sp).sis = s.sis := by
  unfold initialAllowance
  dsimp only
  split
  · exact ⟨⟨hg.setInst fun _ => ⟨⟨rfl, rfl, rfl, id⟩, rfl, rfl, fun _ _ => rfl⟩,
      .single (.credit p _ _ _) hA⟩, .of_eq rfl rfl rfl rfl, rfl⟩
  · exact ⟨.refl hg, .refl s, rfl⟩

/-- **After the scheduler was asked** no more packets enter the queues. -/
theorem ioEnqueue_goes {a : IoArgs} {w : QAddr} {r : IoResult} (hg : Graph F S none s)
    (hp : w.si ∈ s.sis) (hq : w.q ∈ (s.inst w.si).queues) (hm : ¬ (s.inst w.si).s.isHead w.q a.m)
    (h : ioEnqueue s a fp sp w = some (r, t)) : ∃ drop u,
      s.callback w.si (fun k t => k.desc.enqueue t w.q a.m s.env.draws) = some (drop, u) ∧
      Move .enqueue s u ∧ Goes (insert .note serveMoves) F S none u t ∧ Kept s t := by
  obtain ⟨drop, u, hcall, hcases⟩ := ioEnqueue_spec h
  have hgu := hg.enqueue hp hq hm hcall
  have hmove := Move.enqueue hp hq (hg.sound_load hp) hm hcall
  have hkept : Kept s u := by
    obtain ⟨x, -, rfl⟩ := callback_spec hcall
    exact .of_eq rfl rfl rfl rfl
  have hsis : u.sis = s.sis := by
    obtain ⟨x, -, rfl⟩ := callback_spec hcall
    rfl
  refine ⟨drop, u, hcall, hmove, ?_⟩
  rcases hcases with ⟨-, hdrop⟩ | ⟨-, -, -, rfl⟩ | ⟨-, -, q, v, hserve, hback⟩
  · have hgo := note_goes (A := insert .note serveMoves) hgu (.inl rfl) u.ioPkt u.cfg.ioPktDrop
      u.ioPktFast (l := [.freed a.m]) (by simp [Event.isNote])
    have hgd := dropIt_goes (A := insert .note serveMoves) hgo.graph (.inl rfl) hdrop
    obtain ⟨-, rfl⟩ := Prod.mk.inj hdrop
    exact ⟨hgo.trans hgd, hkept.trans (.of_eq rfl rfl rfl rfl)⟩
  · exact ⟨.refl hgu, hkept⟩
  · obtain ⟨hgi, hki, hsi⟩ := initialAllowance_goes (A := serveMoves) (p := w.si) sp hgu
      (by simp [serveMoves])
    obtain ⟨hgs, hks, -⟩ := serveSched_spec hgi.graph (by rw [hsi, hsis]; exact hp) hserve
    have hgb := handBack_goes (A := insert .note serveMoves) hgs.graph (.inl rfl) hback
    have hkb : Kept v t := by
      unfold handBack at hback
      split at hback
      · split at hback
        · obtain ⟨-, rfl⟩ := Prod.mk.inj hback
          split_ifs <;> exact .of_eq rfl rfl rfl rfl
        · obtain ⟨-, rfl⟩ := Prod.mk.inj hback
          exact .of_eq rfl rfl rfl rfl
      · obtain ⟨-, rfl⟩ := Prod.mk.inj hback
        exact .refl v
    exact ⟨((hgi.trans hgs).mono (Set.subset_insert _ _)).trans hgb,
      hkept.trans (hki.trans (hks.trans hkb))⟩

/-- A packet that is in no queue is not the head of one. -/
theorem not_isHead {x : SchInst} {q : QPtr} {m : Mbuf} (h : m.ptr ∉ (x.s.mq q).map Mbuf.ptr) :
    ¬ x.s.isHead q m := by
  intro hhead
  rw [Inst.isHead] at hhead
  obtain ⟨m', hm', heq⟩ := Option.map_eq_some_iff.1 hhead
  exact h (heq ▸ List.mem_map_of_mem (List.mem_of_mem_head? hm'))

/-- **An arrival** keeps the graph, for a packet that dummynet does not hold. -/
theorem dummynetIo_goes {a : IoArgs} {r : IoResult} (hg : Graph F S none s)
    (hm : ¬ s.Holds a.m.ptr) (h : dummynetIo s a = some (r, t)) :
    Goes ioMoves F S none s t ∧ Kept s t := by
  obtain ⟨u, hgu, hku, -, -, -, -, hcases⟩ := dummynetIo_spec hg h
  rcases hcases with ⟨o, hdrop⟩ | ⟨fp, sp, w, -, -, hp, hq, -, -, henq⟩
  · have hgd := dropIt_goes hgu.graph note_mem_findMoves hdrop
    obtain ⟨-, rfl⟩ := Prod.mk.inj hdrop
    exact ⟨(hgu.trans hgd).mono findMoves_subset, hku.trans (.of_eq rfl rfl rfl rfl)⟩
  · have hqueued := hgu.path.not_queued fun p hp q hin => hm ⟨p, hp, .inl ⟨q, hin⟩⟩
    obtain ⟨drop, v, -, hmove, hgo, hk⟩ := ioEnqueue_goes hgu.graph hp hq
      (not_isHead (hqueued _ hp _)) henq
    refine ⟨⟨hgo.graph, (hgu.path.mono findMoves_subset).trans ((Path.single hmove (.inr rfl)).trans
      (hgo.path.mono fun k hk => ?_))⟩, hku.trans hk⟩
    rcases hk with rfl | hk
    · exact findMoves_subset note_mem_findMoves
    · exact serveMoves_subset hk

end Dummynet
