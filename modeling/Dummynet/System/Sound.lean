import Dummynet.System.State

/-!
# Instances and their queues

What holds of a scheduler instance whatever happens around it: its scheduler knows its own data,
packets are only in its queues, and the lengths and the number of the queues are counted. And what
the callbacks of a scheduler do to the queues of an instance.

## Main definitions

* `Moved`: the packets of one queue change, and nothing else of the queues.
* `SchedType.Sound`: the invariant of an instance.

## Main results

* `enqueue_moved`, `dequeue_moved`: what the callbacks do, for all schedulers.
* `Sound.enqueue`, `Sound.dequeue`, `Sound.newQueue`, `Sound.deleteQueue`: the callbacks keep the
  invariant.
-/

namespace Dummynet

variable {P X : Type}

/-! ### Changes of the queues -/

/-- The instance `t` differs from `s` in the packets of the queue `q`, which are `l`, and in
statistics and private data. -/
structure Moved (s t : Inst P X) (q : QPtr) (l : List Mbuf) : Prop where
  inst : t.si = s.si
  live : t.live = s.live
  count : t.qCount = s.qCount
  fs : ∀ q', (t.queue q').fs = (s.queue q').fs
  si : ∀ q', (t.queue q').si = (s.queue q').si
  counted : ∀ q', (s.queue q').Counted → (t.queue q').Counted
  mq : ∀ q', t.mq q' = Function.update s.mq q l q'

section Shell

variable {s t : Inst P X} (h : t.shell = s.shell)

include h

theorem shell_si : t.si = s.si := (congrArg Inst.si h :)

theorem shell_live : t.live = s.live := (congrArg Inst.live h :)

theorem shell_queue : t.queue = s.queue := (congrArg Inst.queue h :)

theorem shell_cfg : t.cfg = s.cfg := (congrArg Inst.cfg h :)

theorem shell_ni : t.ni = s.ni := (congrArg Inst.ni h :)

theorem shell_qCount : t.qCount = s.qCount := (congrArg Inst.qCount h :)

theorem shell_mq (q : QPtr) : t.mq q = s.mq q := by rw [Inst.mq, shell_queue h, Inst.mq]

end Shell

/-- A callback that leaves the rest as the common operation did. -/
theorem SameBut.moved {s t u : Inst P X} {q : QPtr} {l : List Mbuf} (h : SameBut s u q l)
    (hsi : u.si = s.si) (hcount : u.qCount = s.qCount) (ht : t.shell = u.shell) :
    Moved s t q l where
  inst := (shell_si ht).trans hsi
  live := (shell_live ht).trans h.live
  count := (shell_qCount ht).trans hcount
  fs q' := by rw [shell_queue ht, h.fs]
  si q' := by rw [shell_queue ht, h.si]
  counted q' hc := by
    rw [shell_queue ht]
    exact h.counted q' hc
  mq q' := by rw [shell_mq ht, h.mq]

theorem Moved.par {s t : Inst P X} {q : QPtr} {l : List Mbuf} (h : Moved s t q l) (q' : QPtr)
    (i : Fin 4) : t.par q' i = s.par q' i := by
  rw [Inst.par, DnQueue.par, h.fs]
  rfl

theorem Moved.mq_self {s t : Inst P X} {q : QPtr} {l : List Mbuf} (h : Moved s t q l) :
    t.mq q = l := by
  rw [h.mq, Function.update_self]

theorem Moved.mq_of_ne {s t : Inst P X} {q q' : QPtr} {l : List Mbuf} (h : Moved s t q l)
    (hne : q' ≠ q) : t.mq q' = s.mq q' := by
  rw [h.mq, Function.update_of_ne hne]

/-- The callback `enqueue` appends the packet to a queue of the instance or drops it. -/
theorem enqueue_moved {k : SchedType} {s t : Inst k.Priv k.Ext} {q : QPtr} {m : Mbuf} {r : Draws}
    {b : Bool} (hok : k.Ok s) (hq : q ∈ s.queues k.multiqueue) (hm : ¬ s.isHead q m)
    (h : k.desc.enqueue s q m r = some (b, t)) :
    ∃ q' ∈ s.queues k.multiqueue, b = (s.enqueue q' m false r).1 ∧
      t.shell = (s.enqueue q' m false r).2.shell ∧
      Moved s t q' (if b then s.mq q' else s.mq q' ++ [m]) := by
  obtain ⟨q', hq', hb, ht⟩ := k.lawful.enqueue hok hq hm h
  obtain ⟨b', u, hu, hbut⟩ := s.enqueue_spec q' m false r
  have hsi : u.si = s.si := (congrArg (fun r => r.2.si) hu :).symm
  have hcount : u.qCount = s.qCount := (congrArg (fun r => r.2.qCount) hu :).symm
  refine ⟨q', hq', hb, ht, ?_⟩
  rw [hu] at hb ht
  subst hb
  exact hbut.moved hsi hcount ht

/-- The callback `dequeue` takes the head of a queue, or nothing. -/
theorem dequeue_moved {k : SchedType} {s t : Inst k.Priv k.Ext} {o : Option Mbuf} (hok : k.Ok s)
    (h : k.desc.dequeue s = some (o, t)) :
    o = none ∧ t.shell = s.shell ∨
      ∃ q m rest, o = some m ∧ s.mq q = m :: rest ∧ t.shell = (s.dequeue q).2.shell ∧
        Moved s t q rest := by
  rcases k.lawful.dequeue hok h with ⟨ho, ht⟩ | ⟨q, m, ho, hm, ht⟩
  · exact .inl ⟨ho, ht⟩
  · refine .inr ⟨q, m, ?_⟩
    rcases hq : s.mq q with _ | ⟨m', rest⟩
    · rw [Inst.dequeue_nil hq] at hm
      simp at hm
    · obtain ⟨u, hu, hbut⟩ := Inst.dequeue_spec hq
      rw [hu] at hm
      obtain rfl : m' = m := Option.some.inj hm
      have hsi : u.si = s.si := by
        have := congrArg (fun r => r.2.si) hu
        simp only [Inst.dequeue] at this
        exact this.symm
      have hcount : u.qCount = s.qCount := by
        have := congrArg (fun r => r.2.qCount) hu
        simp only [Inst.dequeue] at this
        exact this.symm
      refine ⟨rest, ho, rfl, ht, ?_⟩
      rw [hu] at ht
      exact hbut.moved hsi hcount ht

/-! ### The invariant of an instance -/

/-- What holds of an instance: its scheduler knows its data, the packets are in its queues, which
know their instance and count their packets, and the queues made by `q_new` are counted. -/
structure SchedType.Sound (k : SchedType) (s : Inst k.Priv k.Ext) : Prop where
  ok : k.Ok s
  tidy : ∀ q, q ∉ s.queues k.multiqueue → s.mq q = []
  owned : ∀ q ∈ s.queues k.multiqueue, (s.queue q).si = some s.si
  counted : ∀ q, (s.queue q).Counted
  count : s.qCount = s.live.card
  single : k.multiqueue = false → s.live = ∅

namespace SchedType.Sound

variable {k : SchedType} {s t : Inst k.Priv k.Ext} {q : QPtr}

/-- A queue that is not empty belongs to the instance. -/
theorem mem_queues (h : k.Sound s) {m : Mbuf} {rest : List Mbuf} (hq : s.mq q = m :: rest) :
    q ∈ s.queues k.multiqueue := by
  by_contra hmem
  rw [h.tidy q hmem] at hq
  simp at hq

/-- A change in the packets of a queue of the instance. -/
theorem moved {l : List Mbuf} (h : k.Sound s) (hm : Moved s t q l)
    (hq : q ∈ s.queues k.multiqueue) (hok : k.Ok t) : k.Sound t := by
  have hqueues : t.queues k.multiqueue = s.queues k.multiqueue := by
    rw [Inst.queues, hm.live, Inst.queues]
  refine ⟨hok, fun q' hq' => ?_, fun q' hq' => ?_, fun q' => hm.counted q' (h.counted q'), ?_, ?_⟩
  · rw [hqueues] at hq'
    have hne : q' ≠ q := fun heq => hq' (heq ▸ hq)
    rw [hm.mq_of_ne hne]
    exact h.tidy q' hq'
  · rw [hm.si, hm.inst]
    exact h.owned q' (hqueues ▸ hq')
  · rw [hm.count, hm.live, h.count]
  · rw [hm.live]
    exact h.single

/-- A change in private data. -/
theorem of_shell (h : k.Sound s) (ht : t.shell = s.shell) (hok : k.Ok t) : k.Sound t := by
  have hqueues : t.queues k.multiqueue = s.queues k.multiqueue := by
    rw [Inst.queues, shell_live ht, Inst.queues]
  refine ⟨hok, fun q' hq' => ?_, fun q' hq' => ?_, fun q' => ?_, ?_, ?_⟩
  · rw [shell_mq ht]
    exact h.tidy q' (hqueues ▸ hq')
  · rw [shell_queue ht, shell_si ht]
    exact h.owned q' (hqueues ▸ hq')
  · rw [shell_queue ht]
    exact h.counted q'
  · rw [shell_qCount ht, shell_live ht, h.count]
  · rw [shell_live ht]
    exact h.single

theorem enqueue {m : Mbuf} {r : Draws} {b : Bool} (h : k.Sound s)
    (hq : q ∈ s.queues k.multiqueue) (hm : ¬ s.isHead q m)
    (he : k.desc.enqueue s q m r = some (b, t)) : k.Sound t := by
  obtain ⟨q', hq', -, -, hmoved⟩ := enqueue_moved h.ok hq hm he
  exact h.moved hmoved hq' (k.lawful.ok_enqueue h.ok hq hm he)

theorem dequeue {o : Option Mbuf} (h : k.Sound s) (hd : k.desc.dequeue s = some (o, t)) :
    k.Sound t := by
  have hok := k.lawful.ok_dequeue h.ok hd
  rcases dequeue_moved h.ok hd with ⟨-, ht⟩ | ⟨q, m, rest, -, hq, -, hmoved⟩
  · exact h.of_shell ht hok
  · exact h.moved hmoved (h.mem_queues hq) hok

end SchedType.Sound

/-! ### New and deleted queues -/

/-- What `q_new` leaves of an instance. -/
theorem qNew_shell {k : SchedType} {s t : Inst k.Priv k.Ext} {q : QPtr} {fs : DnFsk}
    (h : qNew k.desc s q fs = some t) :
    t.si = s.si ∧ t.live = insert q s.live ∧ t.qCount = s.qCount + 1 ∧ t.ni = s.ni ∧
      t.queue = Function.update s.queue q { fs := fs, si := some s.si } ∧
      t.cfg = { s.cfg with
        queueCount := s.cfg.queueCount + 1, idleQueue := s.cfg.idleQueue + 1 } := by
  obtain ⟨⟨e, u⟩, hu, rfl⟩ := Option.map_eq_some_iff.1 h
  have hshell := k.lawful.new (by simp [Inst.mq]) hu
  refine ⟨(shell_si hshell :), (shell_live hshell :), (shell_qCount hshell :),
    (shell_ni hshell :), (shell_queue hshell :), ?_⟩
  rw [shell_cfg hshell]

/-- What `dn_delete_queue` with `DN_DESTROY` leaves of an instance. -/
theorem dnDeleteQueue_shell {k : SchedType} {s t : Inst k.Priv k.Ext} {q : QPtr} {safe b : Bool}
    (h : dnDeleteQueue k.desc s q true safe = some (b, t)) :
    b = true ∧ t.shell = s.shell ∨
      b = false ∧ t.si = s.si ∧ t.live = s.live.erase q ∧ t.qCount = s.qCount - 1 ∧ t.ni = s.ni ∧
        t.queue = Function.update s.queue q {} ∧
        t.cfg = { s.cfg with
          idleQueue := if s.mq q = [] then s.cfg.idleQueue - 1 else s.cfg.idleQueue
          queueCount := s.cfg.queueCount - 1 } := by
  obtain ⟨⟨b', u⟩, hu, he⟩ := Option.map_eq_some_iff.1 h
  have hshell := k.lawful.free hu
  cases b' with
  | true =>
    obtain ⟨rfl, rfl⟩ := Prod.mk.inj he
    exact .inl ⟨rfl, hshell⟩
  | false =>
    obtain ⟨rfl, rfl⟩ := Prod.mk.inj he
    have hmq := shell_mq hshell q
    refine .inr ⟨rfl, (shell_si hshell :), ?_, ?_, (shell_ni hshell :), ?_, ?_⟩
    · simp [removeQueue, shell_live hshell]
    · simp [removeQueue, shell_qCount hshell]
    · simp [removeQueue, shell_queue hshell]
    · have hcfg : u.cfg = s.cfg := shell_cfg hshell
      by_cases hnil : s.mq q = []
      · have hnil' : (u.queue q).mq = [] := hmq.trans hnil
        rw [if_pos hnil]
        simp [removeQueue, Inst.mq, hcfg, hnil']
      · have hnil' : (u.queue q).mq ≠ [] := fun h0 => hnil (hmq.symm.trans h0)
        rw [if_neg hnil]
        simp [removeQueue, Inst.mq, hcfg, hnil']

namespace SchedType.Sound

variable {k : SchedType} {s t : Inst k.Priv k.Ext} {q : QPtr}

theorem newQueue {fs : DnFsk} (h : k.Sound s) (hk : k.multiqueue = true) (hq : q ∉ s.live)
    (hn : qNew k.desc s q fs = some t) : k.Sound t := by
  obtain ⟨hsi, hlive, hcount, -, hqueue, -⟩ := qNew_shell hn
  have hqueues : ∀ q', q' ∈ t.queues k.multiqueue ↔ q' = q ∨ q' ∈ s.queues k.multiqueue := by
    simp [Inst.queues, hk, hlive]
  have hother : ∀ q', q' ≠ q → t.queue q' = s.queue q' := fun q' hne => by
    rw [hqueue, Function.update_of_ne hne]
  refine ⟨k.lawful.ok_new h.ok hq hn, fun q' hq' => ?_, fun q' hq' => ?_, fun q' => ?_, ?_, ?_⟩
  · have hne : q' ≠ q := fun heq => hq' ((hqueues q').2 (.inl heq))
    rw [Inst.mq, hother q' hne]
    exact h.tidy q' fun hmem => hq' ((hqueues q').2 (.inr hmem))
  · rcases eq_or_ne q' q with rfl | hne
    · rw [hqueue, Function.update_self, hsi]
    · rw [hother q' hne, hsi]
      exact h.owned q' (((hqueues q').1 hq').resolve_left hne)
  · rcases eq_or_ne q' q with rfl | hne
    · rw [hqueue, Function.update_self]
      rfl
    · rw [hother q' hne]
      exact h.counted q'
  · rw [hcount, hlive, Finset.card_insert_of_notMem hq, h.count]
    push_cast
    rfl
  · simp [hk]

theorem deleteQueue {safe b : Bool} (h : k.Sound s) (hk : k.multiqueue = true) (hq : q ∈ s.live)
    (hd : dnDeleteQueue k.desc s q true safe = some (b, t)) : k.Sound t := by
  have hok := k.lawful.ok_delete h.ok hq hd
  rcases dnDeleteQueue_shell hd with ⟨-, hshell⟩ | ⟨-, hsi, hlive, hcount, -, hqueue, -⟩
  · exact h.of_shell hshell hok
  · have hqueues : ∀ q', q' ∈ t.queues k.multiqueue ↔ q' ≠ q ∧ q' ∈ s.queues k.multiqueue := by
      simp [Inst.queues, hk, hlive]
    have hother : ∀ q', q' ≠ q → t.queue q' = s.queue q' := fun q' hne => by
      rw [hqueue, Function.update_of_ne hne]
    refine ⟨hok, fun q' hq' => ?_, fun q' hq' => ?_, fun q' => ?_, ?_, by simp [hk]⟩
    · rcases eq_or_ne q' q with rfl | hne
      · rw [Inst.mq, hqueue, Function.update_self]
      · rw [Inst.mq, hother q' hne]
        exact h.tidy q' fun hmem => hq' ((hqueues q').2 ⟨hne, hmem⟩)
    · obtain ⟨hne, hmem⟩ := (hqueues q').1 hq'
      rw [hother q' hne, hsi]
      exact h.owned q' hmem
    · rcases eq_or_ne q' q with rfl | hne
      · rw [hqueue, Function.update_self]
        rfl
      · rw [hother q' hne]
        exact h.counted q'
    · rw [hcount, hlive, Finset.card_erase_of_mem hq, h.count]
      have := Finset.card_pos.2 ⟨q, hq⟩
      omega

end SchedType.Sound

/-- Only a request that asks to keep a queue in use can be refused. -/
theorem dnDeleteQueue_unsafe {k : SchedType} {s t : Inst k.Priv k.Ext} {q : QPtr} {b : Bool}
    (h : dnDeleteQueue k.desc s q true false = some (b, t)) : b = false := by
  obtain ⟨⟨b', u⟩, hu, he⟩ := Option.map_eq_some_iff.1 h
  have hb' : b' = false := by
    cases k with
    | fifo => exact (Prod.mk.inj (Option.some.inj hu)).1.symm
    | wf2qp =>
      simp only [SchedType.desc, wf2qpDesc, wf2qpFreeQueue, Bool.false_eq_true, if_false] at hu
      split_ifs at hu
      · exact (Prod.mk.inj (Option.some.inj hu)).1.symm
      all_goals
        obtain ⟨v, -, he⟩ := Option.map_eq_some_iff.1 hu
        exact (Prod.mk.inj he).1.symm
    | rr =>
      simp only [SchedType.desc, rrDesc, rrFreeQueue, Bool.false_eq_true, if_false] at hu
      split_ifs at hu
      · obtain ⟨v, -, he⟩ := Option.map_eq_some_iff.1 hu
        exact (Prod.mk.inj he).1.symm
      · exact (Prod.mk.inj (Option.some.inj hu)).1.symm
    | qfq =>
      simp only [SchedType.desc, qfqDesc, qfqFreeQueue] at hu
      split_ifs at hu <;> exact (Prod.mk.inj (Option.some.inj hu)).1.symm
    | prio =>
      simp only [SchedType.desc, prioDesc, prioFreeQueue] at hu
      split_ifs at hu
      · obtain ⟨v, -, he⟩ := Option.map_eq_some_iff.1 hu
        exact (Prod.mk.inj he).1.symm
      · exact (Prod.mk.inj (Option.some.inj hu)).1.symm
  subst hb'
  exact (Prod.mk.inj he).1.symm

end Dummynet
