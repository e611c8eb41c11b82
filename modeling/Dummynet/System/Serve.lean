import Dummynet.System.Lookup

/-!
# Packets on their way through an instance

What `serve_sched` and `transmit_event` do to an instance: packets go from the queues to the end
of the delay line, and from the head of the delay line out of dummynet.

## Main definitions

* `serveMoves`: the changes that a service makes.
* `Served`: packets have gone from the queues of an instance to its delay line.

## Main results

* `serveLoop_spec`: the loop of `serve_sched`.
* `transmitEvent_goes`, `serveSched_goes`: both keep the graph.
-/

namespace Dummynet

variable {F : Set FskPtr} {S : Set SchkPtr} {L : Option FskPtr} {s t u : Dn} {p : SiPtr}
  {fp : FskPtr} {sp : SchkPtr}

/-- The changes that a service makes. -/
def serveMoves : Set MoveKind := {.quiet, .heap, .credit, .idle, .take, .line, .transmit}

/-! ### The event heap -/

/-- An insertion in the event heap. -/
theorem evInsert_goes {A : Set MoveKind} {k : BitVec 64} {o : EvObj} (hg : Graph F S L s)
    (hA : MoveKind.heap ∈ A) : Goes A F S L s (s.evInsert k o) := by
  refine ⟨hg.of_eq rfl rfl rfl rfl rfl le_rfl, .single (.heap (l := [.key k])
    ⟨rfl, rfl, rfl, rfl, rfl, fun h n => h (n + 1)⟩ rfl fun e he => ?_) hA⟩
  obtain rfl := List.mem_singleton.1 he
  trivial

/-! ### A packet is moved to the delay line -/

theorem dnDequeue_cfg (cfg : DnCfg) (ni : DnFlow) (q : DnQueue) :
    (dnDequeue cfg ni q).2.1.currTime = cfg.currTime ∧
      (dnDequeue cfg ni q).2.1.ioPktDrop = cfg.ioPktDrop := by
  unfold dnDequeue
  split
  · exact ⟨rfl, rfl⟩
  · dsimp only
    split_ifs <;> exact ⟨rfl, rfl⟩

/-- The callback `dequeue` on an instance: the clock and the count of dropped packets stay. -/
theorem callback_dequeue {o : Option Mbuf} (hs : (s.inst p).kind.Sound (s.load (s.inst p)))
    (h : s.callback p (fun k t => k.desc.dequeue t) = some (o, t)) :
    ∃ r, (s.inst p).kind.desc.dequeue (s.load (s.inst p)) = some (o, r) ∧
      t = s.store p (s.inst p) r ∧ r.cfg.currTime = s.cfg.currTime ∧
      r.cfg.ioPktDrop = s.cfg.ioPktDrop := by
  obtain ⟨r, hr, rfl⟩ := callback_spec h
  refine ⟨r, hr, rfl, ?_⟩
  rcases dequeue_moved hs.ok hr with ⟨-, hshell⟩ | ⟨q, m, rest, -, -, hshell, -⟩
  · rw [shell_cfg hshell]
    exact ⟨rfl, rfl⟩
  · rw [shell_cfg hshell]
    exact dnDequeue_cfg _ _ _

/-- The tag of a packet gets another direction. -/
def Dn.redirect (s : Dn) (m : Mbuf) (dir : BitVec 32) : Dn :=
  let tag := { s.tags m.ptr with dnDir := dir }
  { s with tags := Function.update s.tags m.ptr tag }

/-- The cost of a packet depends on a random number, and may mark the packet as lost. -/
theorem packetCost_silent (s : Dn) (m : Mbuf) (sp : SchkPtr) :
    ∃ dir, (packetCost s m sp).2.parms = s.parms ∧
      Silent (s.redirect m dir) (packetCost s m sp).2 := by
  have hself : s.redirect m (s.tags m.ptr).dnDir = s := by
    have heq : ({ s.tags m.ptr with dnDir := (s.tags m.ptr).dnDir } : DnPktTag) = s.tags m.ptr := rfl
    rw [Dn.redirect, heq, Function.update_eq_self]
  have hsame : ∀ {t : Dn}, t.parms = s.parms → Silent s t → ∃ dir, t.parms = s.parms ∧
      Silent (s.redirect m dir) t :=
    fun hp h => ⟨(s.tags m.ptr).dnDir, hp, by rwa [hself]⟩
  unfold packetCost
  split_ifs with hbw
  · exact hsame rfl (.refl s)
  · dsimp only
    unfold extraBits
    split
    · exact hsame rfl (.refl s)
    · split_ifs with hno
      · exact hsame rfl (.refl s)
      · dsimp only
        split_ifs with hloss
        · exact ⟨dirDrop, rfl, ⟨⟨⟨⟨rfl, rfl, rfl, rfl, rfl, id⟩, rfl, rfl, rfl⟩, rfl, rfl, rfl, le_rfl⟩,
            rfl, rfl, rfl⟩⟩
        · exact hsame rfl (silent_random s)

/-- Packets have gone from the queues of the instance `p` to the end of its delay line, where they
are `new`. -/
structure Served (p : SiPtr) (new : List DlPkt) (s t : Dn) : Prop extends Kept s t where
  other : ∀ p', p' ≠ p → t.inst p' = s.inst p'
  scheduler : (t.inst p).sched = (s.inst p).sched
  active : (t.inst p).active = (s.inst p).active
  subtype : (t.inst p).dlineSubtype = (s.inst p).dlineSubtype
  dline : (t.inst p).dline = (s.inst p).dline ++ new
  time : ∀ d ∈ new, d.tag.outputTime =
    s.currTime + ((s.schk (s.inst p).sched).link.delay).signExtend 64
  sis : t.sis = s.sis
  evheap : t.evheap = s.evheap
  oidId : t.oidId = s.oidId
  currTime : t.currTime = s.currTime
  drops : t.cfg.ioPktDrop = s.cfg.ioPktDrop
  ioPkt : t.ioPkt = s.ioPkt
  parms : t.parms = s.parms
  log : t.log = s.log ++ new.map fun d => .dequeued p d.m
  malloc : (∀ n, s.env.malloc n = true) → ∀ n, t.env.malloc n = true

theorem Served.trans {l l' : List DlPkt} (h : Served p l s t) (h' : Served p l' t u) :
    Served p (l ++ l') s u where
  toKept := h.toKept.trans h'.toKept
  other p' hne := (h'.other p' hne).trans (h.other p' hne)
  scheduler := h'.scheduler.trans h.scheduler
  active := h'.active.trans h.active
  subtype := h'.subtype.trans h.subtype
  dline := by rw [h'.dline, h.dline, List.append_assoc]
  time d hd := by
    rcases List.mem_append.1 hd with hd | hd
    · exact h.time d hd
    · rw [h'.time d hd, h.currTime, h.scheduler, h.link]
  sis := h'.sis.trans h.sis
  evheap := h'.evheap.trans h.evheap
  oidId := h'.oidId.trans h.oidId
  currTime := h'.currTime.trans h.currTime
  drops := h'.drops.trans h.drops
  ioPkt := h'.ioPkt.trans h.ioPkt
  parms := h'.parms.trans h.parms
  log := by rw [h'.log, h.log, List.map_append, List.append_assoc]
  malloc hm := h'.malloc (h.malloc hm)

theorem Served.refl (p : SiPtr) (s : Dn) : Served p [] s s :=
  ⟨.refl s, fun _ _ => rfl, rfl, rfl, rfl, by simp, by simp, rfl, rfl, rfl, rfl, rfl, rfl, rfl,
    by simp, id⟩

/-- **One packet.** The body of the loop of `serve_sched`. -/
theorem moveToDline_spec {m : Mbuf} (hg : Graph F S L s) (hp : p ∈ s.sis)
    (h : s.callback p (fun k t => k.desc.dequeue t) = some (some m, u)) :
    Goes serveMoves F S L s (moveToDline u p m) ∧
      ∃ d : DlPkt, d.m = m ∧ Served p [d] s (moveToDline u p m) := by
  have hgu := hg.dequeue hp h
  have hsound := hg.sound_load hp
  have hmove := Move.take hp hsound h
  obtain ⟨r, -, rfl, htime, hdrop⟩ := callback_dequeue hsound h
  set v := s.store p (s.inst p) r with hv
  have hvp : v.inst p = { s.inst p with s := r } := Function.update_self ..
  have hother : ∀ p', p' ≠ p → v.inst p' = s.inst p' := fun p' hne => Function.update_of_ne hne ..
  obtain ⟨dir, hparms, hsil⟩ := packetCost_silent (v.emit (.dequeued p m)) m (v.inst p).sched
  set w := (packetCost (v.emit (.dequeued p m)) m (v.inst p).sched).2 with hw
  have hwp : w.inst p = v.inst p := congrFun hsil.inst p
  have hgw : Graph F S L w := hsil.graph (hgu.of_eq rfl rfl rfl rfl rfl le_rfl)
  set d : DlPkt := ⟨m, { w.tags m.ptr with
    outputTime := w.currTime + ((w.schk (v.inst p).sched).link.delay).signExtend 64 }⟩ with hd
  have heq : moveToDline v p m = w.setInst p { w.inst p with
      credit := (w.inst p).credit - (packetCost (v.emit (.dequeued p m)) m (v.inst p).sched).1
      dline := (w.inst p).dline ++ [d] } := rfl
  rw [heq] at hmove ⊢
  have hself : ∀ y : SchInst, (w.setInst p y).inst p = y := w.setInst_inst p
  have hschk : w.schk = s.schk := hsil.schk
  have hfsk : w.fsk = s.fsk := hsil.fsk
  have hcur : w.currTime = s.currTime := (congrArg DnCfg.currTime hsil.cfg).trans htime
  refine ⟨⟨hgw.setInst fun _ => ⟨⟨rfl, rfl, rfl, id⟩, rfl, rfl, fun _ _ => rfl⟩,
    .single hmove (by simp [serveMoves])⟩, d, rfl, ⟨.of_eq hfsk hschk hsil.fshash hsil.schedhash,
    fun p' hne => ?_, ?_, ?_, ?_, ?_, fun d' hd' => ?_, hsil.sis, hsil.evheap, hsil.oidId, hcur, ?_, hsil.ioPkt, hparms, hsil.log,
    hsil.malloc⟩⟩
  · refine (Function.update_of_ne hne ..).trans ?_
    exact (congrFun hsil.inst p').trans (hother p' hne)
  · rw [hself, hwp, hvp]
  · rw [hself, hwp, hvp]
  · rw [hself, hwp, hvp]
  · rw [hself, hwp, hvp]
  · obtain rfl := List.mem_singleton.1 hd'
    change w.currTime + ((w.schk (v.inst p).sched).link.delay).signExtend 64 = _
    rw [hcur, hschk, hvp]
  · exact (congrArg DnCfg.ioPktDrop hsil.cfg).trans hdrop

/-- The scheduler has no packet. -/
theorem idle_spec (hg : Graph F S L s) (hp : p ∈ s.sis)
    (h : s.callback p (fun k t => k.desc.dequeue t) = some (none, u)) :
    Goes serveMoves F S L s u ∧ Served p [] s u := by
  have hsound := hg.sound_load hp
  have hmove := Move.idle hp hsound h
  obtain ⟨r, -, rfl, htime, hdrop⟩ := callback_dequeue hsound h
  have hself : (s.store p (s.inst p) r).inst p = { s.inst p with s := r } := s.store_inst ..
  refine ⟨⟨hg.dequeue hp h, .single hmove (by simp [serveMoves])⟩, ⟨.of_eq rfl rfl rfl rfl,
    fun p' hne => Function.update_of_ne hne .., ?_, ?_, ?_, ?_, by simp, rfl, rfl, rfl, htime, hdrop,
    rfl, rfl, by simp; rfl, id⟩⟩ <;> rw [hself]
  simp

/-- **The loop of `serve_sched`.** The last packet is remembered only when the credit is used
up. -/
theorem serveLoop_spec {n : ℕ} {done done' last : Bool} (hg : Graph F S L s) (hp : p ∈ s.sis)
    (h : serveLoop n s p done = some (done', last, t)) :
    Goes serveMoves F S L s t ∧ ∃ new, Served p new s t ∧ done' = (done || !new.isEmpty) ∧
      (last = true → done' = true) := by
  induction n generalizing s done with
  | zero => exact absurd h (by simp [serveLoop])
  | succ n ih =>
    unfold serveLoop at h
    split_ifs at h with hcredit
    · obtain ⟨rfl, he⟩ := Prod.mk.inj (Option.some.inj h)
      obtain ⟨rfl, rfl⟩ := Prod.mk.inj he
      exact ⟨.refl hg, [], .refl p s, by simp, id⟩
    · obtain ⟨⟨o, u⟩, hcall, h⟩ := Option.bind_eq_some_iff.1 h
      cases o with
      | none =>
        obtain ⟨rfl, he⟩ := Prod.mk.inj (Option.some.inj h)
        obtain ⟨rfl, rfl⟩ := Prod.mk.inj he
        obtain ⟨hgo, hserved⟩ := idle_spec hg hp hcall
        exact ⟨hgo, [], hserved, by simp, by simp⟩
      | some m =>
        obtain ⟨hgo, d, -, hserved⟩ := moveToDline_spec hg hp hcall
        obtain ⟨hgo', new, hserved', hdone, hlast⟩ := ih hgo.graph (hserved.sis ▸ hp) h
        exact ⟨hgo.trans hgo', d :: new, hserved.trans hserved', by simp [hdone], hlast⟩

/-! ### The end of a service -/

/-- The state of an instance in the event heap, its credit and the times on its delay line. -/
theorem line_goes {A : Set MoveKind} (hg : Graph F S L s) (hline : MoveKind.line ∈ A)
    (hcredit : MoveKind.credit ∈ A) (active : Bool) (dl : List DlPkt) (c st it : BitVec 64)
    (hdl : dl.map DlPkt.m = (s.inst p).dline.map DlPkt.m) :
    Goes A F S L s (s.setInst p { s.inst p with
      active := active, dline := dl, credit := c, schedTime := st, idleTime := it }) := by
  refine ⟨hg.setInst fun _ => ⟨⟨rfl, rfl, rfl, id⟩, rfl, rfl, fun _ _ => rfl⟩,
    (Path.single (.line p active dl hdl) hline).trans ?_⟩
  have hmove := Move.credit (s := s.setInst p { s.inst p with dline := dl, active := active }) p
    c st it
  have hself : (s.setInst p { s.inst p with dline := dl, active := active }).inst p =
      { s.inst p with dline := dl, active := active } := Function.update_self ..
  rw [hself, Dn.setInst_setInst] at hmove
  exact .single hmove hcredit

theorem delayLast_map (x : BitVec 64) (l : List DlPkt) :
    (delayLast x l).map DlPkt.m = l.map DlPkt.m := by
  rcases List.eq_nil_or_concat l with rfl | ⟨l, d, rfl⟩
  · rfl
  · simp [delayLast]

/-- **`transmit_event`** keeps the graph. -/
theorem transmitEvent_goes {A : Set MoveKind} {q q' : List DlPkt} {now : BitVec 64}
    (hg : Graph F S L s) (hA : MoveKind.transmit ∈ A) (hp : p ∈ s.sis)
    (h : transmitEvent s q p now = (q', t)) :
    Goes A F S L s t ∧ Kept s t ∧ t.sis = s.sis ∧ t.currTime = s.currTime := by
  have hmove := Move.transmit q p now hp
  have ht : t = (transmitEvent s q p now).2 := by rw [h]
  rw [ht]
  have hset : Graph F S L (s.setInst p { s.inst p with
      dline := (s.inst p).dline.dropWhile fun d => keyLEQ d.tag.outputTime now
      dlineSubtype :=
        !((s.inst p).dline.dropWhile fun d => keyLEQ d.tag.outputTime now).isEmpty }) :=
    hg.setInst fun _ => ⟨⟨rfl, rfl, rfl, id⟩, rfl, rfl, fun _ _ => rfl⟩
  unfold transmitEvent at hmove ⊢
  dsimp only at hmove ⊢
  split at hmove
  · exact ⟨⟨hset.of_eq rfl rfl rfl rfl rfl le_rfl, .single hmove hA⟩, Kept.of_eq rfl rfl rfl rfl, rfl, rfl⟩
  · exact ⟨⟨hset.of_eq rfl rfl rfl rfl rfl le_rfl, .single hmove hA⟩,
      Kept.of_eq rfl rfl rfl rfl, rfl, rfl⟩

/-- The time until the credit of an instance is not negative. -/
def Dn.refill (s : Dn) (p : SiPtr) : BitVec 64 :=
  let bw := (s.schk (s.inst p).sched).link.bandwidth.signExtend 64
  (bw - 1 - (s.inst p).credit).sdiv bw

/-- The end of `serve_sched` with a negative credit. -/
theorem reschedule_spec {now : BitVec 64} {last : Bool} (h : reschedule s p now last = some t) :
    0 < (s.schk (s.inst p).sched).link.bandwidth.toInt ∧
      t = (s.setInst p { s.inst p with
        dline := if last then delayLast (s.refill p) (s.inst p).dline else (s.inst p).dline
        active := true }).evInsert (now + s.refill p) (.si p) := by
  unfold reschedule at h
  dsimp only at h
  split at h
  · exact absurd h (by simp)
  · next hbw => exact ⟨not_le.1 hbw, (Option.some.inj h).symm⟩

theorem reschedule_goes {now : BitVec 64} {last : Bool} (hg : Graph F S L s)
    (h : reschedule s p now last = some t) :
    Goes serveMoves F S L s t ∧ Kept s t ∧ t.sis = s.sis ∧ t.currTime = s.currTime := by
  obtain ⟨-, rfl⟩ := reschedule_spec h
  have hmap : (if last then delayLast (s.refill p) (s.inst p).dline
      else (s.inst p).dline).map DlPkt.m = (s.inst p).dline.map DlPkt.m := by
    cases last
    · rfl
    · exact delayLast_map _ _
  have hgo := line_goes (A := serveMoves) (p := p) hg (by simp [serveMoves]) (by simp [serveMoves])
    true _ (s.inst p).credit (s.inst p).schedTime (s.inst p).idleTime hmap
  exact ⟨hgo.trans (evInsert_goes hgo.graph (by simp [serveMoves])),
    Kept.of_eq rfl rfl rfl rfl, rfl, rfl⟩

/-- The parts of `serve_sched`: the packets `new` go to the delay line, the instance is put back in
the event heap or not, and if the delay line was empty, what is due leaves. -/
structure Service (q : List DlPkt) (p : SiPtr) (now : BitVec 64) (s : Dn) (q' : List DlPkt)
    (t : Dn) (new : List DlPkt) (last : Bool) (u v : Dn) : Prop where
  served : Served p new (grantCredit s p now) u
  moved : last = true → new ≠ []
  middle : (u.inst p).credit.toInt < 0 ∧ reschedule u p now last = some v ∨
    ¬ (u.inst p).credit.toInt < 0 ∧ v = u.setInst p { u.inst p with idleTime := now }
  finish : if (s.inst p).dline = [] ∧ new ≠ [] then transmitEvent v q p now = (q', t)
    else q' = q ∧ t = v

/-- **`serve_sched`.** -/
theorem serveSched_spec {q q' : List DlPkt} {now : BitVec 64} (hg : Graph F S L s)
    (hp : p ∈ s.sis) (h : serveSched s q p now = some (q', t)) :
    Goes serveMoves F S L s t ∧ Kept s t ∧ t.sis = s.sis ∧ t.currTime = s.currTime ∧
      ∃ new last u v, Service q p now s q' t new last u v ∧ Graph F S L u := by
  have hgrant := line_goes (A := serveMoves) hg (p := p) (by simp [serveMoves])
    (by simp [serveMoves]) false (s.inst p).dline
    (if 0 < (s.schk (s.inst p).sched).link.bandwidth.toInt then (s.inst p).credit +
      (now - (s.inst p).schedTime) * (s.schk (s.inst p).sched).link.bandwidth.signExtend 64 else 0)
    now (s.inst p).idleTime rfl
  have hfg : Kept s (grantCredit s p now) := .of_eq rfl rfl rfl rfl
  obtain ⟨⟨done, last, u⟩, hloop, h⟩ := Option.bind_eq_some_iff.1 h
  obtain ⟨hgo, new, hserved, hdone, hlast⟩ := serveLoop_spec hgrant.graph hp hloop
  rw [Bool.false_or] at hdone
  have hgu := hgrant.trans hgo
  have hfu : Kept s u := hfg.trans hserved.toKept
  have hpu : p ∈ u.sis := by
    rw [hserved.sis]
    exact hp
  have hnew : last = true → new ≠ [] := fun hl => by
    have := hlast hl
    rw [hdone] at this
    simpa using this
  have hend : ∀ {v : Dn}, Goes serveMoves F S L u v → Kept u v → v.sis = u.sis →
      v.currTime = u.currTime → ((u.inst p).credit.toInt < 0 ∧ reschedule u p now last = some v ∨
        ¬ (u.inst p).credit.toInt < 0 ∧ v = u.setInst p { u.inst p with idleTime := now }) →
      (if ((s.inst p).dline.isEmpty && done) = true then some (transmitEvent v q p now)
        else some (q, v)) = some (q', t) →
      Goes serveMoves F S L s t ∧ Kept s t ∧ t.sis = s.sis ∧ t.currTime = s.currTime ∧
        ∃ new last u v, Service q p now s q' t new last u v ∧ Graph F S L u := by
    intro v hgv hfv hsis hcur hmid h
    have hsv : v.sis = s.sis := hsis.trans hserved.sis
    have hcv : v.currTime = s.currTime := hcur.trans hserved.currTime
    have hiff : ((s.inst p).dline.isEmpty && done) = true ↔ (s.inst p).dline = [] ∧ new ≠ [] := by
      rw [hdone]
      simp
    split_ifs at h with hc
    · have hte := Option.some.inj h
      obtain ⟨hgt, hft, hst, hct⟩ := transmitEvent_goes (A := serveMoves) hgv.graph
        (by simp [serveMoves]) (hsis ▸ hpu) hte
      exact ⟨(hgu.trans hgv).trans hgt, (hfu.trans hfv).trans hft, hst.trans hsv, hct.trans hcv,
        new, last, u, v, ⟨hserved, hnew, hmid, by rw [if_pos (hiff.1 hc)]; exact hte⟩, hgu.graph⟩
    · obtain ⟨rfl, rfl⟩ := Prod.mk.inj (Option.some.inj h)
      exact ⟨hgu.trans hgv, hfu.trans hfv, hsv, hcv, new, last, u, v,
        ⟨hserved, hnew, hmid, by rw [if_neg fun h => hc (hiff.2 h)]; exact ⟨rfl, rfl⟩⟩, hgu.graph⟩
  by_cases hneg : (u.inst p).credit.toInt < 0
  · simp only [if_pos hneg] at h
    obtain ⟨v, hv, h⟩ := Option.bind_eq_some_iff.1 h
    obtain ⟨hgv, hfv, hsis, hcur⟩ := reschedule_goes hgu.graph hv
    exact hend hgv hfv hsis hcur (.inl ⟨hneg, hv⟩) h
  · simp only [if_neg hneg] at h
    exact hend (line_goes hgu.graph (by simp [serveMoves]) (by simp [serveMoves]) (u.inst p).active
      (u.inst p).dline (u.inst p).credit (u.inst p).schedTime now rfl) (.of_eq rfl rfl rfl rfl) rfl rfl
      (.inr ⟨hneg, rfl⟩) h

end Dummynet
