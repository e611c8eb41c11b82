import Dummynet.System.Holdings

/-!
# The backlog of an instance

The length that an instance counts is the sum of the lengths of its queues, as long as no queue that
holds packets is deleted.

## Main definitions

* `SchInst.Even`: the length of an instance is the sum of the lengths of its queues.
* `Dn.EvenBut K`: this holds of all instances but those in `K` that have several queues.

## Main results

* `Move.even`, `Path.even`: every change keeps it, if queues with packets are only deleted in `K`.
* `Dn.EvenBut.honest`: the drain can rely on the lengths.
-/

namespace Dummynet

variable {s t u : Dn} {p : SiPtr} {K : SiPtr → Prop}

/-! ### One instance -/

section Instances

variable {P X : Type} {y z : Inst P X} {b : Bool} {q : QPtr}

/-- The sum of the lengths of the queues. -/
def Inst.backlog (y : Inst P X) (multiqueue : Bool) : BitVec 32 :=
  ∑ q ∈ y.queues multiqueue, (y.queue q).ni.length

theorem Inst.backlog_congr (hlive : z.live = y.live)
    (hlen : ∀ q, (z.queue q).ni.length = (y.queue q).ni.length) : z.backlog b = y.backlog b := by
  have hqueues : z.queues b = y.queues b := by rw [Inst.queues, Inst.queues, hlive]
  rw [Inst.backlog, Inst.backlog, hqueues]
  exact Finset.sum_congr rfl fun q _ => hlen q

/-- The length of one queue changes. -/
theorem Inst.backlog_update {dq : DnQueue} {d : BitVec 32} (hlive : z.live = y.live)
    (hq : q ∈ y.queues b) (hqueue : z.queue = Function.update y.queue q dq)
    (hd : dq.ni.length = (y.queue q).ni.length + d) : z.backlog b = y.backlog b + d := by
  have hqueues : z.queues b = y.queues b := by rw [Inst.queues, Inst.queues, hlive]
  rw [Inst.backlog, Inst.backlog, hqueues, ← Finset.sum_erase_add _ _ hq,
    ← Finset.sum_erase_add _ (fun q => (y.queue q).ni.length) hq, hqueue, Function.update_self, hd,
    ← add_assoc]
  refine congrArg (· + _ + _) (Finset.sum_congr rfl fun q' hq' => ?_)
  rw [Function.update_of_ne (Finset.ne_of_mem_erase hq')]

end Instances

/-- **`dn_enqueue`** adds the same to the lengths of the instance and of the queue. -/
theorem dnEnqueue_lengths (cfg : DnCfg) (ni : DnFlow) (q : DnQueue) (m : Mbuf) (drop : Bool)
    (r : Draws) : ∃ d, (dnEnqueue cfg ni q m drop r).2.2.1.length = ni.length + d ∧
      (dnEnqueue cfg ni q m drop r).2.2.2.ni.length = q.ni.length + d := by
  unfold dnEnqueue
  split_ifs with hsi
  · exact ⟨0, (add_zero _).symm, (add_zero _).symm⟩
  · dsimp only
    split_ifs
    · exact ⟨0, (add_zero _).symm, (add_zero _).symm⟩
    · exact ⟨1, rfl, rfl⟩

/-- **`dn_dequeue`** takes the same from both, if the queue belongs to an instance. -/
theorem dnDequeue_lengths (cfg : DnCfg) (ni : DnFlow) {q : DnQueue} (hsi : q.si ≠ none) :
    ∃ d, (dnDequeue cfg ni q).2.2.1.length = ni.length + d ∧
      (dnDequeue cfg ni q).2.2.2.ni.length = q.ni.length + d := by
  unfold dnDequeue
  split
  · exact ⟨0, (add_zero _).symm, (add_zero _).symm⟩
  · dsimp only
    split_ifs <;> exact ⟨-1, sub_eq_add_neg .., sub_eq_add_neg ..⟩

/-- The length of an instance is the sum of the lengths of its queues. -/
def SchInst.Even (x : SchInst) : Prop := x.s.ni.length = x.s.backlog x.kind.multiqueue

theorem load_backlog (s : Dn) (x : SchInst) :
    (s.load x).backlog x.kind.multiqueue = x.s.backlog x.kind.multiqueue :=
  Inst.backlog_congr rfl fun _ => rfl

/-- A callback that leaves the instance as it is, apart from private data. -/
theorem even_of_shell {x : SchInst} {r : Inst x.kind.Priv x.kind.Ext} (h : x.Even)
    (hshell : r.shell = (s.load x).shell) : SchInst.Even { x with s := r } := by
  change r.ni.length = r.backlog x.kind.multiqueue
  rw [shell_ni hshell, Inst.backlog_congr (shell_live hshell)
    fun q => by rw [shell_queue hshell], load_backlog]
  exact h

/-- The callback `enqueue`. -/
theorem even_enqueue {x : SchInst} {r : Inst x.kind.Priv x.kind.Ext} {q : QPtr} {m : Mbuf}
    {d : Draws} {b : Bool} (h : x.Even) (hs : x.kind.Sound (s.load x)) (hq : q ∈ x.queues)
    (hm : ¬ x.s.isHead q m) (hr : x.kind.desc.enqueue (s.load x) q m d = some (b, r)) :
    SchInst.Even { x with s := r } := by
  obtain ⟨q', hq', -, hshell, hmoved⟩ := enqueue_moved hs.ok hq hm hr
  set y := s.load x with hy
  obtain ⟨e, hni, hlen⟩ := dnEnqueue_lengths y.cfg y.ni (y.queue q') m false d
  have hsum : r.backlog x.kind.multiqueue = y.backlog x.kind.multiqueue + e :=
    Inst.backlog_update hmoved.live hq' (shell_queue hshell) hlen
  change r.ni.length = r.backlog x.kind.multiqueue
  rw [hsum, load_backlog, ← h]
  exact (congrArg DnFlow.length (shell_ni hshell)).trans hni

/-- The callback `dequeue`. -/
theorem even_dequeue {x : SchInst} {r : Inst x.kind.Priv x.kind.Ext} {o : Option Mbuf}
    (h : x.Even) (hs : x.kind.Sound (s.load x))
    (hr : x.kind.desc.dequeue (s.load x) = some (o, r)) : SchInst.Even { x with s := r } := by
  rcases dequeue_moved hs.ok hr with ⟨-, hshell⟩ | ⟨q, m, rest, -, hq, hshell, hmoved⟩
  · exact even_of_shell h hshell
  set y := s.load x with hy
  have hmem := hs.mem_queues hq
  obtain ⟨e, hni, hlen⟩ := dnDequeue_lengths y.cfg y.ni (q := y.queue q) (by
    rw [hs.owned q hmem]
    simp)
  have hsum : r.backlog x.kind.multiqueue = y.backlog x.kind.multiqueue + e :=
    Inst.backlog_update hmoved.live hmem (shell_queue hshell) hlen
  change r.ni.length = r.backlog x.kind.multiqueue
  rw [hsum, load_backlog, ← h]
  exact (congrArg DnFlow.length (shell_ni hshell)).trans hni

/-- A new queue. -/
theorem even_newQueue {x : SchInst} {r : Inst x.kind.Priv x.kind.Ext} {q : QPtr} {fs : DnFsk}
    (h : x.Even) (hq : q ∉ x.s.live) (hmulti : x.kind.multiqueue = true)
    (hr : qNew x.kind.desc (s.load x) q fs = some r) : SchInst.Even { x with s := r } := by
  obtain ⟨-, hlive, -, hni, hqueue, -⟩ := qNew_shell hr
  change r.ni.length = r.backlog x.kind.multiqueue
  rw [hni, Inst.backlog, Inst.queues, if_pos hmulti, hlive]
  refine h.trans ?_
  have hnot : q ∉ (s.load x).live := hq
  rw [Finset.sum_insert hnot, hqueue, Function.update_self, Inst.backlog, Inst.queues,
    if_pos hmulti]
  refine Eq.trans ?_ (zero_add _).symm
  refine Finset.sum_congr rfl fun q' hq' => ?_
  have hne : q' ≠ q := fun he => hnot (he ▸ hq')
  rw [Function.update_of_ne hne]
  rfl

/-- A queue with the length 0 goes, or stays. -/
theorem even_deleteQueue {x : SchInst} {r : Inst x.kind.Priv x.kind.Ext} {q : QPtr}
    {safe b : Bool} (h : x.Even) (hs : x.kind.Sound (s.load x)) (hq : q ∈ x.s.live)
    (hlen : (x.s.queue q).ni.length = 0)
    (hr : dnDeleteQueue x.kind.desc (s.load x) q true safe = some (b, r)) :
    SchInst.Even { x with s := r } := by
  rcases dnDeleteQueue_shell hr with ⟨-, hshell⟩ | ⟨-, -, hlive, -, hni, hqueue, -⟩
  · exact even_of_shell h hshell
  have hmulti : x.kind.multiqueue = true := by
    by_contra hk
    have hempty : x.s.live = ∅ := hs.single (by simpa using hk)
    rw [hempty] at hq
    exact Finset.notMem_empty q hq
  change r.ni.length = r.backlog x.kind.multiqueue
  rw [hni, Inst.backlog, Inst.queues, if_pos hmulti, hlive]
  refine h.trans ?_
  rw [Inst.backlog, Inst.queues, if_pos hmulti, ← Finset.sum_erase_add _ _ hq, hlen, add_zero]
  refine Finset.sum_congr rfl fun q' hq' => ?_
  rw [hqueue, Function.update_of_ne (Finset.ne_of_mem_erase hq')]
  rfl

/-! ### All instances -/

/-- The instances are even, apart from those in `K` that have several queues. -/
def Dn.EvenBut (K : SiPtr → Prop) (s : Dn) : Prop :=
  ∀ p ∈ s.sis, (s.inst p).kind.multiqueue = false ∨ ¬ K p → (s.inst p).Even

theorem Dn.EvenBut.congr (h : s.EvenBut K) (hinst : t.inst = s.inst) (hsis : t.sis = s.sis) :
    t.EvenBut K := fun p hp hk => by
  rw [hinst] at hk ⊢
  exact h p (hsis ▸ hp) hk

/-- One instance changes. -/
theorem Dn.EvenBut.update (h : s.EvenBut K) (hsis : t.sis = s.sis)
    (hother : ∀ p', p' ≠ p → t.inst p' = s.inst p') (hkind : (t.inst p).kind = (s.inst p).kind)
    (heven : (s.inst p).kind.multiqueue = false ∨ ¬ K p → (s.inst p).Even → (t.inst p).Even) :
    t.EvenBut K := fun p' hp' hk => by
  rw [hsis] at hp'
  rcases eq_or_ne p' p with rfl | hne
  · rw [hkind] at hk
    exact heven hk (h p' hp' hk)
  · rw [hother p' hne] at hk ⊢
    exact h p' hp' hk

/-- A callback of a scheduler. -/
theorem Dn.EvenBut.store {x : SchInst} {r : Inst x.kind.Priv x.kind.Ext} (h : s.EvenBut K)
    (hkind : x.kind = (s.inst p).kind)
    (heven : (s.inst p).kind.multiqueue = false ∨ ¬ K p → (s.inst p).Even →
      SchInst.Even { x with s := r }) : (s.store p x r).EvenBut K := by
  refine h.update (p := p) rfl (fun p' hne => s.store_inst_of_ne x r hne) ?_ fun hk he => ?_
  · rw [s.store_inst]
    exact hkind
  · rw [s.store_inst]
    exact heven hk he

/-- **Every change**, if queues with packets are only deleted in `K`. -/
theorem Move.even {k : MoveKind} (hk : ∀ p, k = .purge p → K p) (hm : Move k s t)
    (h : s.EvenBut K) : t.EvenBut K := by
  have hset : ∀ {p : SiPtr} {x : SchInst}, x.kind = (s.inst p).kind → ((s.inst p).Even → x.Even) →
      (s.setInst p x).EvenBut K := fun {p x} hkind heven => by
    refine h.update (p := p) rfl (fun p' hne => s.setInst_inst_of_ne x hne) ?_ fun _ he => ?_
    · rw [Dn.setInst_inst, hkind]
    · rw [Dn.setInst_inst]
      exact heven he
  cases hm with
  | quiet hq | conf hq => exact h.congr hq.inst hq.sis
  | heap hkeep => exact h.congr hkeep.inst hkeep.sis
  | note | clock | flush => exact h.congr rfl rfl
  | credit | line => exact hset rfl id
  | @new _ p x hp hx =>
    intro p' hp' hk'
    rcases eq_or_ne p' p with rfl | hne
    · have hself : (s.addInst p' x).inst p' = x := s.setInst_inst p' x
      rw [hself, SchInst.Even, hx.ni, Inst.backlog]
      refine (Finset.sum_eq_zero fun q _ => ?_).symm
      rw [hx.niq]
    · have hother : (s.addInst p x).inst p' = s.inst p' := s.setInst_inst_of_ne x hne
      rw [hother] at hk' ⊢
      exact h p' ((Finset.mem_insert.1 hp').resolve_left hne) hk'
  | @destroy _ _ p _ _ _ hd =>
    obtain ⟨hsis, hother⟩ := siDestroy_other hd
    intro p' hp' hk'
    rw [hsis] at hp'
    rw [hother p' (Finset.ne_of_mem_erase hp')] at hk' ⊢
    exact h p' (Finset.mem_of_mem_erase hp') hk'
  | @newQueue _ _ p q fp id _ _ hq hmulti _ hc =>
    obtain ⟨r, hr, rfl⟩ := callback_setInst_spec hc
    obtain ⟨r', hr', he⟩ := Option.map_eq_some_iff.1 hr
    obtain ⟨-, rfl⟩ := Prod.mk.inj he
    exact h.store (x := (s.inst p).name q fp id) rfl fun _ he => even_newQueue he hq hmulti hr'
  | delete _ hq hs hlen hc =>
    obtain ⟨r, hr, rfl⟩ := callback_spec hc
    exact h.store rfl fun _ he => even_deleteQueue he hs hq hlen hr
  | @purge _ _ p q _ _ hq hs hc =>
    obtain ⟨r, hr, rfl⟩ := callback_spec hc
    refine h.store rfl fun hk' _ => ?_
    rcases hk' with hsingle | hK
    · have hempty : (s.inst p).s.live = ∅ := hs.single hsingle
      rw [hempty] at hq
      exact absurd hq (Finset.notMem_empty q)
    · exact absurd (hk p rfl) hK
  | enqueue _ hq hs hm hc =>
    obtain ⟨r, hr, rfl⟩ := callback_spec hc
    exact h.store rfl fun _ he => even_enqueue he hs hq hm hr
  | idle _ hs hc =>
    obtain ⟨r, hr, rfl⟩ := callback_spec hc
    exact h.store rfl fun _ he => even_dequeue he hs hr
  | @take _ v p m _ hs hc =>
    obtain ⟨r, hr, rfl⟩ := callback_spec hc
    have hstore : (s.store p (s.inst p) r).EvenBut K :=
      h.store rfl fun _ he => even_dequeue he hs hr
    obtain ⟨-, hsis, hother, c, d, -, hself⟩ := moveToDline_line (s.store p (s.inst p) r) p m
    refine hstore.update hsis hother (by rw [hself]) fun _ he => ?_
    rw [hself]
    exact he
  | @transmit _ q p now _ =>
    obtain ⟨q', v, he⟩ : ∃ q' v, transmitEvent s q p now = (q', v) := ⟨_, _, rfl⟩
    obtain ⟨out, rest, l, b, -, -, -, hsis, -, hother, -, hself, -⟩ := transmitEvent_line he
    rw [he]
    refine h.update hsis hother (by rw [hself]) fun _ he => ?_
    rw [hself]
    exact he

/-- A path on which queues with packets are only deleted in `K`. -/
theorem Path.even {A : Set MoveKind} (hA : ∀ p, MoveKind.purge p ∈ A → K p) (h : Path A s t)
    (hs : s.EvenBut K) : t.EvenBut K :=
  h.invariant (fun hk hm => hm.even fun p he => hA p (he ▸ hk)) hs

end Dummynet
