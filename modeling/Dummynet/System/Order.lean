import Dummynet.System.History

/-!
# The order of the packets

Whichever scheduler an instance has, each of its queues is served in the order in which the packets
arrived. An instance whose scheduler has one queue releases its packets in this order as well.

## Main definitions

* `Dn.queueOf`: the packets in a queue.
* `InOrder`: the relation between the packets of a queue before and after a change.

## Main results

* `Move.keepsOrder`, `Path.keepsOrder`: every change but an arrival.
* `Dn.WellFormed.step_order`: every operation.
* `order_of_run`, `fifo_of_run`: runs.
-/

namespace Dummynet

variable {s t u v : Dn} {p p' : SiPtr} {q : QPtr} {new new' : List Mbuf} {M : Prop} {op : DnOp}
  {l l' : List Event}

/-! ### One queue -/

/-- The packets in the queue `q` of the instance `p`, if `p` exists. -/
def Dn.queueOf (s : Dn) (p : SiPtr) (q : QPtr) : List Mbuf :=
  if p ∈ s.sis then (s.inst p).s.mq q else []

/-- From `s` to `t` the packets `new` come to the end of the queue `q` of `p`, and packets go from
its head, which the scheduler of `p` chose. If `p` has one queue, it chose no others. The queue
stays with its flowset. -/
def InOrder (p : SiPtr) (q : QPtr) (new : List Mbuf) (s t : Dn) : Prop :=
  ∃ l, t.log = s.log ++ l ∧ (p ∈ t.sis → q ∈ (t.inst p).queues →
    p ∈ s.sis ∧ q ∈ (s.inst p).queues ∧ (t.inst p).kind = (s.inst p).kind ∧
      (t.inst p).qfs q = (s.inst p).qfs q ∧
      ∃ c, c.Sublist (chosen p l) ∧ ((s.inst p).kind.multiqueue = false → c = chosen p l) ∧
        (s.inst p).s.mq q ++ new = c ++ (t.inst p).s.mq q)

theorem InOrder.trans (h : InOrder p q new s t) (h' : InOrder p q new' t u) :
    InOrder p q (new ++ new') s u := by
  obtain ⟨l, hlog, hl⟩ := h
  obtain ⟨l', hlog', hl'⟩ := h'
  refine ⟨l ++ l', by rw [hlog', hlog, List.append_assoc], fun hp hq => ?_⟩
  obtain ⟨hpt, hqt, hkind', hfs', c', hsub', hall', heq'⟩ := hl' hp hq
  obtain ⟨hps, hqs, hkind, hfs, c, hsub, hall, heq⟩ := hl hpt hqt
  refine ⟨hps, hqs, hkind'.trans hkind, hfs'.trans hfs, c ++ c', ?_, fun hk => ?_, ?_⟩
  · rw [chosen_append]
    exact hsub.append hsub'
  · rw [chosen_append, hall hk, hall' (hkind ▸ hk)]
  · rw [← List.append_assoc, heq, List.append_assoc, heq', List.append_assoc]

/-- Nothing is chosen, and the queue gets `new`. -/
theorem InOrder.of_aside (hlog : t.log = s.log ++ l) (hl : ∀ e ∈ l, e.isAside)
    (hsis : t.sis ⊆ s.sis) (hinst : p ∈ t.sis → q ∈ (t.inst p).queues → q ∈ (s.inst p).queues ∧
      (t.inst p).kind = (s.inst p).kind ∧ (t.inst p).qfs q = (s.inst p).qfs q ∧
        (t.inst p).s.mq q = (s.inst p).s.mq q ++ new) :
    InOrder p q new s t := by
  refine ⟨l, hlog, fun hp hq => ?_⟩
  obtain ⟨hqs, hkind, hfs, hmq⟩ := hinst hp hq
  refine ⟨hsis hp, hqs, hkind, hfs, [], List.nil_sublist _, fun _ => (chosen_aside hl).symm, ?_⟩
  rw [hmq, List.nil_append]

/-- The instance stays as it is. -/
theorem InOrder.of_inst (hlog : t.log = s.log ++ l) (hl : ∀ e ∈ l, e.isAside)
    (hsis : t.sis ⊆ s.sis) (hinst : p ∈ t.sis → t.inst p = s.inst p) : InOrder p q [] s t :=
  .of_aside hlog hl hsis fun hp hq => by
    rw [hinst hp] at hq ⊢
    exact ⟨hq, rfl, rfl, (List.append_nil _).symm⟩

theorem InOrder.refl (p : SiPtr) (q : QPtr) (s : Dn) : InOrder p q [] s s :=
  .of_inst (l := []) (List.append_nil _).symm (by simp) subset_rfl fun _ => rfl

/-- A write to an instance that keeps its queues. -/
theorem InOrder.setInst {x : SchInst} (hkind : x.kind = (s.inst p').kind)
    (hqueues : x.queues = (s.inst p').queues) (hfs : x.qfs q = (s.inst p').qfs q)
    (hmq : x.s.mq q = (s.inst p').s.mq q) :
    InOrder p q [] s (s.setInst p' x) := by
  refine .of_aside (l := []) (List.append_nil _).symm (by simp) subset_rfl fun _ hq => ?_
  rcases eq_or_ne p p' with rfl | hne
  · rw [Dn.setInst_inst] at hq ⊢
    exact ⟨hqueues ▸ hq, hkind, hfs, by rw [hmq, List.append_nil]⟩
  · rw [Dn.setInst_inst_of_ne s x hne] at hq ⊢
    exact ⟨hq, rfl, rfl, (List.append_nil _).symm⟩

/-- A callback of a scheduler on `p'`, which leaves the instance as `r`. -/
theorem InOrder.store {r : Inst (s.inst p').kind.Priv (s.inst p').kind.Ext}
    (hself : p = p' → q ∈ r.queues (s.inst p').kind.multiqueue →
      q ∈ (s.inst p').queues ∧ r.mq q = (s.inst p').s.mq q ++ new)
    (hother : p ≠ p' → new = []) : InOrder p q new s (s.store p' (s.inst p') r) := by
  refine .of_aside (l := []) (List.append_nil _).symm (by simp) subset_rfl fun _ hq => ?_
  rcases eq_or_ne p p' with rfl | hne
  · rw [s.store_inst] at hq ⊢
    obtain ⟨hqs, hmq⟩ := hself rfl hq
    exact ⟨hqs, rfl, rfl, hmq⟩
  · rw [s.store_inst_of_ne _ r hne] at hq ⊢
    exact ⟨hq, rfl, rfl, by rw [hother hne, List.append_nil]⟩

/-- The queue of an instance with one queue. -/
theorem fifoQueue_mem {x : SchInst} (h : x.kind.multiqueue = false) : fifoQueue ∈ x.queues := by
  rw [SchInst.queues, Inst.queues, if_neg (by simp [h])]
  exact Finset.mem_singleton_self _

theorem Inst.queues_congr {P X : Type} {y z : Inst P X} {b : Bool} (hlive : z.live = y.live) :
    z.queues b = y.queues b := by rw [Inst.queues, Inst.queues, hlive]

/-- A callback that leaves the instance as it is, apart from private data. -/
theorem InOrder.of_shell {r : Inst (s.inst p').kind.Priv (s.inst p').kind.Ext}
    (hshell : r.shell = (s.load (s.inst p')).shell) :
    InOrder p q [] s (s.store p' (s.inst p') r) := by
  have hqueues : r.queues (s.inst p').kind.multiqueue = (s.inst p').queues :=
    Inst.queues_congr (y := s.load (s.inst p')) (shell_live hshell)
  exact .store (fun _ hq => ⟨hqueues ▸ hq, (shell_mq hshell q).trans (List.append_nil _).symm⟩)
    fun _ => rfl

/-- The deletion of a queue. The other queues stay as they are. -/
theorem InOrder.delete {q' : QPtr} {safe b : Bool}
    {r : Inst (s.inst p').kind.Priv (s.inst p').kind.Ext} (hq : q' ∈ (s.inst p').s.live)
    (hs : (s.inst p').kind.Sound (s.load (s.inst p')))
    (h : dnDeleteQueue (s.inst p').kind.desc (s.load (s.inst p')) q' true safe = some (b, r)) :
    InOrder p q [] s (s.store p' (s.inst p') r) := by
  rcases dnDeleteQueue_shell h with ⟨-, hshell⟩ | ⟨-, -, hlive, -, -, hqueue, -⟩
  · exact .of_shell hshell
  have hmulti : (s.inst p').kind.multiqueue = true := by
    by_contra hk
    have hempty : (s.inst p').s.live = ∅ := hs.single (by simpa using hk)
    rw [hempty] at hq
    exact Finset.notMem_empty q' hq
  refine .store (fun _ hin => ?_) fun _ => rfl
  rw [Inst.queues, if_pos hmulti, hlive] at hin
  refine ⟨?_, ?_⟩
  · rw [SchInst.queues, Inst.queues, if_pos hmulti]
    exact Finset.mem_of_mem_erase hin
  · rw [Inst.mq, hqueue, Function.update_of_ne (Finset.ne_of_mem_erase hin), List.append_nil]
    rfl

/-- **`serve_sched`** takes a packet from the head of a queue. -/
theorem InOrder.take {m : Mbuf} {r : Inst (s.inst p').kind.Priv (s.inst p').kind.Ext}
    (hs : (s.inst p').kind.Sound (s.load (s.inst p')))
    (h : (s.inst p').kind.desc.dequeue (s.load (s.inst p')) = some (some m, r)) :
    InOrder p q [] s (moveToDline (s.store p' (s.inst p') r) p' m) := by
  rcases dequeue_moved hs.ok h with ⟨ho, -⟩ | ⟨q', m', rest, ho, hq', -, hmoved⟩
  · exact absurd ho (by simp)
  obtain rfl := Option.some.inj ho
  obtain ⟨hlog, hsis, hother, c, d, -, hself⟩ := moveToDline_line (s.store p' (s.inst p') r) p' m
  refine ⟨[.dequeued p' m], hlog, fun hp hq => ⟨hsis ▸ hp, ?_⟩⟩
  rcases eq_or_ne p p' with rfl | hne
  · rw [hself, s.store_inst] at hq ⊢
    have hmem : r.queues (s.inst p).kind.multiqueue = (s.inst p).queues :=
      Inst.queues_congr hmoved.live
    have hqueues : q ∈ (s.inst p).queues := hmem ▸ hq
    have hchosen : chosen p [.dequeued p m] = [m] := by simp [chosen]
    rw [hchosen]
    rcases eq_or_ne q q' with rfl | hne
    · refine ⟨hqueues, rfl, rfl, [m], .refl _, fun _ => rfl, ?_⟩
      exact (List.append_nil _).trans (hq'.trans (congrArg (m :: ·) hmoved.mq_self.symm))
    · refine ⟨hqueues, rfl, rfl, [], List.nil_sublist _, fun hk => ?_, ?_⟩
      -- with one queue, the packet is from this one
      · have hq₁ : q' ∈ (s.inst p).queues := hs.mem_queues hq'
        rw [SchInst.queues, Inst.queues, if_neg (by simp [hk]), Finset.mem_singleton] at hq₁ hqueues
        exact absurd (hqueues.trans hq₁.symm) hne
      · exact (List.append_nil _).trans (hmoved.mq_of_ne hne).symm
  · rw [hother p hne, s.store_inst_of_ne _ r hne] at hq ⊢
    refine ⟨hq, rfl, rfl, [], List.nil_sublist _, fun _ => ?_, List.append_nil _⟩
    simp [chosen, hne.symm]

/-- **Every change** that brings no instance, no queue and no packet. -/
theorem Move.keepsOrder {k : MoveKind} (hk : k ∈ laterMoves) (hm : Move k s t) :
    InOrder p q [] s t := by
  have hnil : ∀ {t : Dn}, t.log = s.log → t.log = s.log ++ [] := fun h => by
    rw [h, List.append_nil]
  cases hm with
  | quiet hq | conf hq =>
    exact .of_inst (hnil hq.log) (by simp) (by rw [hq.sis]) fun _ => by rw [hq.inst]
  | heap hkeep hlog hl =>
    exact .of_inst hlog (fun e he => (hl e he).aside) (by rw [hkeep.sis]) fun _ => by
      rw [hkeep.inst]
  | note n m f hl => exact .of_inst rfl (fun e he => (hl e he).aside) subset_rfl fun _ => rfl
  | clock | flush => exact .of_inst (hnil rfl) (by simp) subset_rfl fun _ => rfl
  | credit | line => exact .setInst rfl rfl rfl rfl
  | new | newQueue | enqueue => exact absurd hk (by simp [laterMoves])
  | destroy _ _ _ hd =>
    obtain ⟨hsis, hother⟩ := siDestroy_other hd
    have hlog : t.log = s.log := by
      obtain ⟨ev, pos, rfl⟩ := siDestroy_spec hd
      rfl
    refine .of_inst (hnil hlog) (by simp) (hsis ▸ Finset.erase_subset ..) fun hp => ?_
    rw [hsis] at hp
    exact hother p (Finset.ne_of_mem_erase hp)
  | delete _ hq hs _ hc | purge _ hq hs hc =>
    obtain ⟨r, hr, rfl⟩ := callback_spec hc
    exact .delete hq hs hr
  | idle _ hs hc =>
    obtain ⟨r, hr, rfl⟩ := callback_spec hc
    rcases dequeue_moved hs.ok hr with ⟨-, hshell⟩ | ⟨_, _, _, ho, -⟩
    · exact .of_shell hshell
    · exact absurd ho (by simp)
  | take _ hs hc =>
    obtain ⟨r, hr, rfl⟩ := callback_spec hc
    exact .take hs hr
  | @transmit _ ds p' now _ =>
    obtain ⟨ds', w, he⟩ : ∃ ds' w, transmitEvent s ds p' now = (ds', w) := ⟨_, _, rfl⟩
    obtain ⟨out, rest, l, b, -, hlog, hl, hsis, -, hother, -, hself, -⟩ := transmitEvent_line he
    rw [he]
    have hchosen : chosen p (out.map (Event.released p') ++ l) = [] := by
      rw [chosen_append, chosen_released, chosen_aside fun e he => (hl e he).aside]
      rfl
    refine ⟨_, hlog, fun hp hq => ⟨hsis ▸ hp, ?_⟩⟩
    rw [hchosen]
    rcases eq_or_ne p p' with rfl | hne
    · rw [hself] at hq ⊢
      exact ⟨hq, rfl, rfl, [], .refl _, fun _ => rfl, List.append_nil _⟩
    · rw [hother p hne] at hq ⊢
      exact ⟨hq, rfl, rfl, [], .refl _, fun _ => rfl, List.append_nil _⟩

theorem Path.keepsOrder (h : Path laterMoves s t) : InOrder p q [] s t :=
  h.invariant (I := fun t => InOrder p q [] s t) (fun hk hm hI => hI.trans (hm.keepsOrder hk))
    (.refl p q s)

/-- **An arrival**: the packet comes to the end of a queue, or is dropped. -/
theorem InOrder.enqueue {q' : QPtr} {m : Mbuf} {d : Draws} {drop : Bool}
    (hq : q' ∈ (s.inst p').queues) (hs : (s.inst p').kind.Sound (s.load (s.inst p')))
    (hm : ¬ (s.inst p').s.isHead q' m)
    (h : s.callback p' (fun k t => k.desc.enqueue t q' m d) = some (drop, t)) :
    ∃ new : List Mbuf, new.Sublist [m] ∧ InOrder p q new s t ∧
      (new = [] ∨ p = p' ∧ ((s.load (s.inst p')).enqueue q m false d).1 = false) := by
  obtain ⟨r, hr, rfl⟩ := callback_spec h
  obtain ⟨q₁, -, hdrop, -, hmoved⟩ := enqueue_moved hs.ok hq hm hr
  have hqueues : r.queues (s.inst p').kind.multiqueue = (s.inst p').queues :=
    Inst.queues_congr hmoved.live
  by_cases hin : (p = p' ∧ q = q₁) ∧ drop = false
  · obtain ⟨⟨rfl, rfl⟩, rfl⟩ := hin
    exact ⟨[m], .refl _, .store (fun _ hq => ⟨hqueues ▸ hq, hmoved.mq_self⟩)
      fun hne => absurd rfl hne, .inr ⟨rfl, hdrop.symm⟩⟩
  · refine ⟨[], List.nil_sublist _, .store (fun hp hq => ⟨hqueues ▸ hq, ?_⟩) fun _ => rfl,
      .inl rfl⟩
    rw [List.append_nil]
    rcases eq_or_ne q q₁ with rfl | hne
    · have hdropped : drop = true := by simpa [hp] using hin
      exact hmoved.mq_self.trans (if_pos hdropped)
    · exact hmoved.mq_of_ne hne

/-- A lookup may bring a new instance or a new queue, which are empty. -/
theorem Path.queueOf (h : Path findMoves s t) : ∀ p q, t.queueOf p q = s.queueOf p q := by
  refine h.invariant (I := fun t => ∀ p q, t.queueOf p q = s.queueOf p q)
    (fun {k u v} hk hm hI p q => ?_) fun _ _ => rfl
  rw [← hI]
  cases hm with
  | quiet hq => rw [Dn.queueOf, hq.sis, hq.inst, Dn.queueOf]
  | note => rfl
  | @new _ p' x hp hx =>
    rcases eq_or_ne p p' with rfl | hne
    · have hself : (u.addInst p x).inst p = x := u.setInst_inst p x
      rw [Dn.queueOf, Dn.queueOf, if_neg hp, hself]
      exact (if_pos (Finset.mem_insert_self ..)).trans (hx.mq q)
    · have hother : (u.addInst p' x).inst p = u.inst p := u.setInst_inst_of_ne x hne
      have hmem : p ∈ (u.addInst p' x).sis ↔ p ∈ u.sis := by simp [Dn.addInst, hne]
      rw [Dn.queueOf, Dn.queueOf, hother]
      simp only [hmem]
  | @newQueue _ _ p' q' fp id _ hp hq hmulti hs hc =>
    obtain ⟨r, hr, rfl⟩ := callback_setInst_spec hc
    obtain ⟨r', hr', he⟩ := Option.map_eq_some_iff.1 hr
    obtain ⟨-, rfl⟩ := Prod.mk.inj he
    obtain ⟨-, -, -, -, hqueue, -⟩ := qNew_shell hr'
    rcases eq_or_ne p p' with rfl | hne
    · rw [Dn.queueOf, Dn.queueOf, u.store_inst]
      refine (if_pos hp).trans (Eq.trans ?_ (if_pos hp).symm)
      change (r'.queue q).mq = _
      rw [hqueue]
      rcases eq_or_ne q q' with rfl | hne
      · have hempty : (u.inst p).s.mq q = [] :=
          hs.tidy q (by rwa [Inst.queues, if_pos hmulti])
        rw [Function.update_self, hempty]
      · rw [Function.update_of_ne hne]
        rfl
    · rw [Dn.queueOf, Dn.queueOf, u.store_inst_of_ne _ r' hne]
      rfl
  | _ => rcases hk with hk | hk | hk | hk <;> exact absurd hk (by simp)

/-! ### Operations and runs -/

/-- The packet that an operation brings. -/
def DnOp.packet : DnOp → List Mbuf
  | .io a _ => [a.m]
  | _ => []

/-- The packets that the operations of a run brought, in their order. -/
def arrived (l : List (DnOp × List Event)) : List Mbuf := l.flatMap fun x => x.1.packet

theorem arrived_snoc (l : List (DnOp × List Event)) (x : DnOp × List Event) :
    arrived (l ++ [x]) = arrived l ++ x.1.packet := by
  simp [arrived]

theorem DnOp.Enters.keepsOrder (h : op.Enters s t) :
    ∃ new : List Mbuf, new.Sublist op.packet ∧ InOrder p q new s t := by
  rcases h with rfl | ⟨a, env, p', q', drop, rfl, -, hq, hs, hhead, hcall⟩
  · exact ⟨[], List.nil_sublist _, .refl p q t⟩
  · obtain ⟨new, hsub, hin, -⟩ := InOrder.enqueue (p := p) (q := q) hq hs hhead hcall
    exact ⟨new, hsub, hin⟩

/-- **One operation**, as far as the queue `q` of the instance `p` exists after it. -/
theorem Dn.WellFormed.step_order (h : s.WellFormed M) (hnew : op.NewTo s)
    (hs : s.step op = some (l, t)) (hp : p ∈ t.sis) (hq : q ∈ (t.inst p).queues) :
    ∃ new c : List Mbuf, new.Sublist op.packet ∧ c.Sublist (chosen p l) ∧
      ((t.inst p).kind.multiqueue = false → c = chosen p l) ∧
        s.queueOf p q ++ new = c ++ t.queueOf p q := by
  obtain ⟨env, u, v, hfind, hlog, henter, hlater, rfl⟩ := h.step_parts hnew hs
  obtain ⟨new, hsub, hin⟩ := henter.keepsOrder (p := p) (q := q)
  have hboth := hin.trans hlater.keepsOrder
  rw [List.append_nil] at hboth
  obtain ⟨l, hl, hrest⟩ := hboth
  obtain ⟨hpu, -, hkind, -, c, hc, hall, heq⟩ := hrest hp hq
  have hstart : s.queueOf p q = (u.inst p).s.mq q :=
    (hfind.queueOf p q).symm.trans (if_pos hpu)
  rw [hlog, List.nil_append] at hl
  have hend : t.queueOf p q = (t.inst p).s.mq q := if_pos hp
  rw [hl]
  exact ⟨new, c, hsub, hc, fun hk => hall (hkind ▸ hk), by rw [hstart, heq, hend]⟩

/-- A run in which a packet arrives at an instance with one queue. -/
theorem threeOps_single : ∃ s u l l', Runs.Run Dn.step (fun s op _ => op.NewTo s)
      (Dn.init {} [.fifo, .wf2qp, .rr]) l s ∧
    Runs.Run Dn.step (fun s op t => op.NewTo s ∧ 4 ∈ t.sis ∧ (t.inst 4).kind.multiqueue = false)
      s l' u ∧ (arrived l').length = 1 ∧ (u.lineOf 4).length = 1 := by
  have hexec : threeOps.any (fun x => decide (x.1.sis = ∅ ∧
      (4 ∈ x.2.1.sis ∧ (x.2.1.inst 4).kind.multiqueue = false) ∧
      (4 ∈ x.2.2.sis ∧ (x.2.2.inst 4).kind.multiqueue = false) ∧
      (x.2.2.lineOf 4).length = 1)) = true := by
    decide +kernel
  obtain ⟨⟨s, t, u⟩, h, hall⟩ := (Option.any_eq_true _ _).1 hexec
  obtain ⟨hs, ht, hu, hlen⟩ := of_decide_eq_true hall
  obtain ⟨o₁, o₂, o₃, hstep₁, hstep₂, hstep₃⟩ := threeOps_steps h
  have hnew : opPacket.NewTo s := fun ⟨p, hp, _⟩ => by
    rw [hs] at hp
    exact Finset.notMem_empty p hp
  have hlink : opLink.NewTo (Dn.init {} [.fifo, .wf2qp, .rr]) := trivial
  have htask : (opTask 3).NewTo t := trivial
  exact ⟨s, u, _, _, (Runs.Run.nil _).snoc hlink hstep₁,
    ((Runs.Run.nil _).snoc ⟨hnew, ht⟩ hstep₂).snoc ⟨htask, hu⟩ hstep₃, rfl, hlen⟩

/-- **A queue is served in the order of arrival.** In a run after whose steps the queue `q` of `p`
exists, the packets that were in it and some of those that arrived, in this order, are the ones
that the scheduler took from it and the ones that are in it. -/
theorem order_of_run {parms : DnParms} {schedlist : List SchedType}
    {l l' : List (DnOp × List Event)}
    (h : Runs.Run Dn.step (fun s op _ => op.NewTo s) (Dn.init parms schedlist) l s)
    (h' : Runs.Run Dn.step (fun s op t => op.NewTo s ∧ p ∈ t.sis ∧ q ∈ (t.inst p).queues)
      s l' t) :
    ∃ new c : List Mbuf, new.Sublist (arrived l') ∧ c.Sublist (chosen p (records l')) ∧
      s.queueOf p q ++ new = c ++ t.queueOf p q := by
  induction h' with
  | nil => exact ⟨[], [], .refl _, .refl _, List.append_nil _⟩
  | @snoc t u l' op o hr hok hst ih =>
    obtain ⟨new, c, hnew, hc, heq⟩ := ih
    have hwf : t.WellFormed False :=
      wellFormed_of_run ((h.trans (hr.mono fun _ _ _ hok => hok.1)).mono
        fun _ _ _ hok => ⟨hok, fun h => h.elim⟩)
    obtain ⟨new', c', hnew', hc', -, heq'⟩ := hwf.step_order hok.1 hst hok.2.1 hok.2.2
    refine ⟨new ++ new', c ++ c', ?_, ?_, ?_⟩
    · rw [arrived_snoc]
      exact hnew.append hnew'
    · rw [records_snoc, chosen_append]
      exact hc.append hc'
    · rw [← List.append_assoc, heq, List.append_assoc, heq', List.append_assoc]

/-- A packet that arrived, and was taken. -/
theorem order_threeOps : ∃ (s t : Dn) (l : List (DnOp × List Event)) (new c : List Mbuf),
    (arrived l).length = 1 ∧ new.Sublist (arrived l) ∧ c.Sublist (chosen 4 (records l)) ∧
      s.queueOf 4 fifoQueue ++ new = c ++ t.queueOf 4 fifoQueue := by
  obtain ⟨s, u, l, l', hl, hl', hlen, -⟩ := threeOps_single
  obtain ⟨new, c, horder⟩ := order_of_run hl
    (hl'.mono fun _ _ _ hok => ⟨hok.1, hok.2.1, fifoQueue_mem hok.2.2⟩)
  exact ⟨s, u, l', new, c, hlen, horder⟩

/-- **A pipe with one queue is a queue.** In a run after whose steps the instance `p` exists and its
scheduler has one queue, what was on its delay line, what was in its queue, and some of the packets
that arrived leave in this order. -/
theorem fifo_of_run {parms : DnParms} {schedlist : List SchedType}
    {l l' : List (DnOp × List Event)}
    (h : Runs.Run Dn.step (fun s op _ => op.NewTo s) (Dn.init parms schedlist) l s)
    (h' : Runs.Run Dn.step (fun s op t => op.NewTo s ∧ p ∈ t.sis ∧
      (t.inst p).kind.multiqueue = false) s l' t) :
    ∃ new : List Mbuf, new.Sublist (arrived l') ∧
      s.lineOf p ++ s.queueOf p fifoQueue ++ new =
        outOf p (records l') ++ (t.lineOf p ++ t.queueOf p fifoQueue) := by
  induction h' with
  | nil => exact ⟨[], .refl _, List.append_nil _⟩
  | @snoc t u l' op o hr hok hst ih =>
    obtain ⟨new, hnew, heq⟩ := ih
    have hwf : t.WellFormed False :=
      wellFormed_of_run ((h.trans (hr.mono fun _ _ _ hok => hok.1)).mono
        fun _ _ _ hok => ⟨hok, fun h => h.elim⟩)
    obtain ⟨new', c, hnew', -, hall, hqueue⟩ :=
      hwf.step_order hok.1 hst hok.2.1 (fifoQueue_mem hok.2.2)
    rw [hall hok.2.2] at hqueue
    have hline := hwf.step_line hok.1 hst hok.2.1
    refine ⟨new ++ new', ?_, ?_⟩
    · rw [arrived_snoc]
      exact hnew.append hnew'
    · calc s.lineOf p ++ s.queueOf p fifoQueue ++ (new ++ new')
          = outOf p (records l') ++ (t.lineOf p ++ (t.queueOf p fifoQueue ++ new')) := by
            rw [← List.append_assoc, heq]
            simp only [List.append_assoc]
        _ = outOf p (records l') ++ (t.lineOf p ++ chosen p o ++ u.queueOf p fifoQueue) := by
            rw [hqueue, List.append_assoc]
        _ = outOf p (records (l' ++ [(op, o)])) ++ (u.lineOf p ++ u.queueOf p fifoQueue) := by
            rw [hline, records_snoc, outOf_append]
            simp only [List.append_assoc]

/-- A packet that is still on the delay line. -/
theorem fifo_threeOps : ∃ (s t : Dn) (l : List (DnOp × List Event)) (new : List Mbuf),
    (t.lineOf 4).length = 1 ∧ new.Sublist (arrived l) ∧
      s.lineOf 4 ++ s.queueOf 4 fifoQueue ++ new =
        outOf 4 (records l) ++ (t.lineOf 4 ++ t.queueOf 4 fifoQueue) := by
  obtain ⟨s, u, l, l', hl, hl', -, hlen⟩ := threeOps_single
  obtain ⟨new, hfifo⟩ := fifo_of_run hl hl'
  exact ⟨s, u, l', new, hlen, hfifo⟩

end Dummynet
