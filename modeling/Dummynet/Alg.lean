import Dummynet.Fifo
import Dummynet.Wf2q.Model
import Dummynet.Rr.Invariant
import Dummynet.Qfq.Base
import Dummynet.Prio

/-!
# The scheduling algorithms

The five schedulers as values of one type, and what the rest of dummynet relies on: a scheduler
touches queues, statistics and counters only through `dn_enqueue` and `dn_dequeue`, and keeps to
the queues of its instance.

## Main definitions

* `SchedType`: the algorithms, with their private data, extensions and callbacks.
* `Inst.shell`: what an instance has that its scheduler does not own.
* `DnAlg.Lawful`: what the framework relies on.

## Main results

* `SchedType.lawful`: the five schedulers keep to the rules.
-/

namespace Dummynet

/-- The algorithms that register with `DECLARE_DNSCHED_MODULE`. -/
inductive SchedType
  | fifo
  | wf2qp
  | rr
  | qfq
  | prio
deriving DecidableEq

/-- The private data of an instance. -/
def SchedType.Priv : SchedType → Type
  | .fifo => Unit
  | .wf2qp => Wf2qpSi
  | .rr => RrSi
  | .qfq => QfqSched
  | .prio => PrioSi

/-- The extension of a queue. -/
def SchedType.Ext : SchedType → Type
  | .fifo => Unit
  | .wf2qp => Wf2qpQueue
  | .rr => RrQueue
  | .qfq => QfqClass
  | .prio => Unit

/-- The callbacks, `struct dn_alg`. -/
def SchedType.desc : (k : SchedType) → DnAlg k.Priv k.Ext
  | .fifo => fifoDesc
  | .wf2qp => wf2qpDesc
  | .rr => rrDesc
  | .qfq => qfqDesc
  | .prio => prioDesc

/-- The private data that the callback `new_sched` sets. -/
def SchedType.newSched : (k : SchedType) → k.Priv
  | .fifo => ()
  | .wf2qp => wf2qpNewSched
  | .rr => {}
  | .qfq => qfqNewSched
  | .prio => {}

/-- The flag `DN_MULTIQUEUE`. -/
def SchedType.multiqueue : SchedType → Bool
  | .fifo => false
  | _ => true

/-- The field `type`. -/
def SchedType.type : SchedType → ℕ
  | .fifo => 1
  | .wf2qp => 2
  | .rr => 3
  | .qfq => 4
  | .prio => 5

/-- The field `name`. -/
def SchedType.name : SchedType → List Char
  | .fifo => ['F', 'I', 'F', 'O']
  | .wf2qp => ['W', 'F', '2', 'Q', '+']
  | .rr => ['R', 'R']
  | .qfq => ['Q', 'F', 'Q']
  | .prio => ['P', 'R', 'I', 'O']

variable {P X : Type}

/-- An instance without what its scheduler owns. -/
def Inst.shell (s : Inst P X) : Inst Unit Unit := { s with priv := (), ext := fun _ => () }

/-- The queues of an instance: those that were made by `q_new`, or the one that is part of it. -/
def Inst.queues (multiqueue : Bool) (s : Inst P X) : Finset QPtr :=
  if multiqueue then s.live else {fifoQueue}

/-- `dn_dequeue` looks at nothing that the scheduler owns. -/
theorem dequeue_congr {s t : Inst P X} (h : t.shell = s.shell) (q : QPtr) :
    (t.dequeue q).1 = (s.dequeue q).1 ∧ (t.dequeue q).2.shell = (s.dequeue q).2.shell :=
  ⟨(congrArg (fun u : Inst Unit Unit => (u.dequeue q).1) h :),
    (congrArg (fun u : Inst Unit Unit => (u.dequeue q).2) h :)⟩

/-- What the callback `dequeue` may do: nothing, or `dn_dequeue` on one queue. -/
def Inst.Takes (s : Inst P X) (o : Option Mbuf) (t : Inst P X) : Prop :=
  o = none ∧ t.shell = s.shell ∨
    ∃ q m, o = some m ∧ (s.dequeue q).1 = some m ∧ t.shell = (s.dequeue q).2.shell

theorem Inst.Takes.congr {s t u : Inst P X} {o : Option Mbuf} (h : u.Takes o t)
    (hu : u.shell = s.shell) : s.Takes o t := by
  rcases h with ⟨ho, ht⟩ | ⟨q, m, ho, hm, ht⟩
  · exact .inl ⟨ho, ht.trans hu⟩
  · obtain ⟨hout, hshell⟩ := dequeue_congr hu q
    exact .inr ⟨q, m, ho, hout ▸ hm, ht.trans hshell⟩

/-- What the framework relies on. `Ok` is what the scheduler knows about its own data. -/
structure DnAlg.Lawful (alg : DnAlg P X) (multiqueue : Bool) (Ok : Inst P X → Prop) : Prop where
  new : ∀ {s t q e}, s.mq q = [] → alg.newQueue s q = some (e, t) → t.shell = s.shell
  free : ∀ {s t q safe b}, alg.freeQueue s q safe = some (b, t) → t.shell = s.shell
  enqueue : ∀ {s t q m r b}, Ok s → q ∈ s.queues multiqueue → ¬ s.isHead q m →
    alg.enqueue s q m r = some (b, t) →
    ∃ q' ∈ s.queues multiqueue, b = (s.enqueue q' m false r).1 ∧
      t.shell = (s.enqueue q' m false r).2.shell
  dequeue : ∀ {s t o}, Ok s → alg.dequeue s = some (o, t) → s.Takes o t
  ok_enqueue : ∀ {s t q m r b}, Ok s → q ∈ s.queues multiqueue → ¬ s.isHead q m →
    alg.enqueue s q m r = some (b, t) → Ok t
  ok_dequeue : ∀ {s t o}, Ok s → alg.dequeue s = some (o, t) → Ok t
  ok_new : ∀ {s t q fs}, Ok s → q ∉ s.live → qNew alg s q fs = some t → Ok t
  ok_delete : ∀ {s t q destroy safe b}, Ok s → q ∈ s.live →
    dnDeleteQueue alg s q destroy safe = some (b, t) → Ok t
  ok_congr : ∀ {s t}, Ok s → t.priv = s.priv → t.ext = s.ext → t.live = s.live →
    (∀ q ∈ s.live, t.par q = s.par q) → Ok t

/-- A scheduler that keeps to the queue it is given and knows nothing about its own data. -/
theorem DnAlg.Lawful.of_true {alg : DnAlg P X} {multiqueue : Bool}
    (new : ∀ {s t q e}, s.mq q = [] → alg.newQueue s q = some (e, t) → t.shell = s.shell)
    (free : ∀ {s t q safe b}, alg.freeQueue s q safe = some (b, t) → t.shell = s.shell)
    (enqueue : ∀ {s t q m r b}, q ∈ s.queues multiqueue → ¬ s.isHead q m →
      alg.enqueue s q m r = some (b, t) →
      b = (s.enqueue q m false r).1 ∧ t.shell = (s.enqueue q m false r).2.shell)
    (dequeue : ∀ {s t o}, alg.dequeue s = some (o, t) → s.Takes o t) :
    alg.Lawful multiqueue fun _ => True where
  new := new
  free := free
  enqueue := fun _ hq hm h => ⟨_, hq, enqueue hq hm h⟩
  dequeue := fun _ h => dequeue h
  ok_enqueue := fun _ _ _ _ => trivial
  ok_dequeue := fun _ _ => trivial
  ok_new := fun _ _ _ => trivial
  ok_delete := fun _ _ _ => trivial
  ok_congr := fun _ _ _ _ _ => trivial

/-- What the callback `enqueue` may do: nothing with a packet that is in a queue already, or
`dn_enqueue` on one queue. -/
def Inst.Gives (s : Inst P X) (m : Mbuf) (r : Draws) (b : Bool) (t : Inst P X) : Prop :=
  b = false ∧ t.shell = s.shell ∨
    ∃ q, b = (s.enqueue q m false r).1 ∧ t.shell = (s.enqueue q m false r).2.shell

/-- The callback `enqueue` of WF2Q+, RR and QFQ: a queue with its first packet is activated. -/
theorem shell_enqueue {s t : Inst P X} {q : QPtr} {m : Mbuf} {r : Draws} {b : Bool}
    {activate : Inst P X → Option (Bool × Inst P X)}
    (hact : ∀ {u b t}, activate u = some (b, t) → b = false ∧ t.shell = u.shell)
    (h : (if s.isHead q m then activate s
      else
        let (drop, u) := s.enqueue q m false r
        if drop then some (true, u)
        else if u.isHead q m then activate u
        else some (false, u)) = some (b, t)) :
    s.Gives m r b t ∧ (¬ s.isHead q m →
      b = (s.enqueue q m false r).1 ∧ t.shell = (s.enqueue q m false r).2.shell) := by
  by_cases hm : s.isHead q m
  · rw [if_pos hm] at h
    exact ⟨.inl (hact h), fun hno => absurd hm hno⟩
  have hgives : b = (s.enqueue q m false r).1 ∧ t.shell = (s.enqueue q m false r).2.shell := by
    rw [if_neg hm] at h
    rcases he : s.enqueue q m false r with ⟨_ | _, u⟩
    · simp only [he, Bool.false_eq_true, if_false] at h
      split_ifs at h
      · exact hact h
      · obtain ⟨rfl, rfl⟩ := Prod.mk.inj (Option.some.inj h)
        exact ⟨rfl, rfl⟩
    · simp only [he, if_true] at h
      obtain ⟨rfl, rfl⟩ := Prod.mk.inj (Option.some.inj h)
      exact ⟨rfl, rfl⟩
  exact ⟨.inr ⟨q, hgives⟩, fun _ => hgives⟩

/-! ### FIFO -/

theorem fifo_lawful : fifoDesc.Lawful false fun _ => True := by
  refine .of_true (fun _ h => ?_) (fun h => ?_) (fun hq _ h => ?_) fun {s t o} h => ?_
  · obtain ⟨-, rfl⟩ := Prod.mk.inj (Option.some.inj h)
    rfl
  · obtain ⟨-, rfl⟩ := Prod.mk.inj (Option.some.inj h)
    rfl
  · obtain rfl := Finset.mem_singleton.1 hq
    have h := Option.some.inj h
    exact ⟨(congrArg Prod.fst h).symm, (congrArg (fun r => r.2.shell) h).symm⟩
  · have h : s.dequeue fifoQueue = (o, t) := Option.some.inj h
    rcases o with _ | m
    · refine .inl ⟨rfl, ?_⟩
      rcases hm : s.mq fifoQueue with _ | ⟨m, rest⟩
      · rw [Inst.dequeue_nil hm] at h
        rw [(Prod.mk.inj h).2]
      · obtain ⟨u, hu, -⟩ := Inst.dequeue_spec hm
        rw [hu] at h
        simp at h
    · exact .inr ⟨fifoQueue, m, rfl, by rw [h], by rw [h]⟩

/-! ### WF2Q+ -/

namespace Wf2qp

variable {s t : Wf2qp} {q : QPtr}

@[simp] theorem shell_insertIn (w : WHeap) (key : BitVec 64) :
    (insertIn s w key q).shell = s.shell := rfl

theorem shell_extractFrom {w : WHeap} {o : Option QPtr} (h : extractFrom s w o = some t) :
    t.shell = s.shell := by
  obtain ⟨r, -, rfl⟩ := Option.map_eq_some_iff.1 h
  rfl

theorem shell_idleCheck {n : ℕ} {force : Bool} (h : idleCheck n s force = some t) :
    t.shell = s.shell := by
  induction n generalizing s with
  | zero => rw [Option.some.inj h]
  | succ n ih =>
    simp only [idleCheck] at h
    split_ifs at h
    · obtain ⟨u, hu, ht⟩ := Option.bind_eq_some_iff.1 h
      have hus : u.shell = s.shell := shell_extractFrom hu
      exact (ih ht).trans hus
    · rw [Option.some.inj h]

theorem shell_restamp {len : BitVec 64} (h : restamp s q len = some t) : t.shell = s.shell := by
  obtain ⟨⟨u, S⟩, hu, rfl⟩ := Option.map_eq_some_iff.1 h
  change u.shell = s.shell
  split_ifs at hu
  · obtain ⟨v, hv, he⟩ := Option.map_eq_some_iff.1 hu
    obtain ⟨rfl, -⟩ := Prod.mk.inj he
    simp only [addWeight] at hv
    split_ifs at hv
    rw [← Option.some.inj hv]
    rfl
  · obtain ⟨v, hv, he⟩ := Option.map_eq_some_iff.1 hu
    obtain ⟨rfl, -⟩ := Prod.mk.inj he
    exact shell_extractFrom hv

@[simp] theorem shell_place : (place s q).shell = s.shell := by
  simp only [place]
  split_ifs <;> rfl

theorem shell_moveEligible {n : ℕ} (h : moveEligible n s = some t) : t.shell = s.shell := by
  induction n generalizing s with
  | zero => rw [Option.some.inj h]
  | succ n ih =>
    simp only [moveEligible] at h
    split_ifs at h
    · obtain ⟨u, hu, ht⟩ := Option.bind_eq_some_iff.1 h
      have hus : u.shell = s.shell := shell_extractFrom hu
      exact (ih ht).trans hus
    · rw [Option.some.inj h]

theorem shell_settle (h : settle s = some t) : t.shell = s.shell := by
  refine (shell_moveEligible h).trans ?_
  simp only [raiseV]
  split_ifs <;> rfl

@[simp] theorem shell_requeue : (requeue s q).shell = s.shell := by
  simp only [requeue]
  split
  · rfl
  · split_ifs <;> rfl

/-- The loop of `wf2qp_dequeue` takes the packet from a queue, and keeps the rest in order. -/
theorem shell_serve {m : Mbuf} (h : serve s = some (m, t)) :
    ∃ q, (s.dequeue q).1 = some m ∧ t.shell = (s.dequeue q).2.shell := by
  refine ⟨(s.priv.heap .sch).topObject, ?_⟩
  rcases hd : s.dequeue (s.priv.heap .sch).topObject with ⟨_ | m', u⟩
  · simp [serve, hd] at h
  · simp only [serve, hd] at h
    obtain ⟨v, hv, he⟩ := Option.map_eq_some_iff.1 h
    obtain ⟨rfl, rfl⟩ := Prod.mk.inj he
    have hvu : v.shell = u.shell := shell_extractFrom hv
    exact ⟨rfl, shell_requeue.trans hvu⟩

/-- The activation of a queue with its first packet. -/
theorem shell_activate {m : Mbuf} {b : Bool}
    (h : ((restamp s q m.len64).map fun s => (false, place s q)) = some (b, t)) :
    b = false ∧ t.shell = s.shell := by
  obtain ⟨u, hu, he⟩ := Option.map_eq_some_iff.1 h
  obtain ⟨rfl, rfl⟩ := Prod.mk.inj he
  exact ⟨rfl, shell_place.trans (shell_restamp hu)⟩

end Wf2qp

open Wf2qp in
theorem wf2qp_lawful : wf2qpDesc.Lawful true fun _ => True := by
  refine .of_true (fun {s t q e} hq h => ?_) (fun {s t q safe b} h => ?_)
    (fun _ hm h => (shell_enqueue shell_activate h).2 hm) fun {s t o} h => ?_
  · simp only [wf2qpDesc, wf2qpNewQueue] at h
    split_ifs at h
    split at h
    · obtain ⟨-, rfl⟩ := Prod.mk.inj (Option.some.inj h)
      rfl
    · next hm => exact absurd (hm.symm.trans hq) (by simp)
  · simp only [wf2qpDesc, wf2qpFreeQueue] at h
    split_ifs at h
    · obtain ⟨-, rfl⟩ := Prod.mk.inj (Option.some.inj h)
      rfl
    · obtain ⟨-, rfl⟩ := Prod.mk.inj (Option.some.inj h)
      rfl
    all_goals
      obtain ⟨u, hu, he⟩ := Option.map_eq_some_iff.1 h
      obtain ⟨-, rfl⟩ := Prod.mk.inj he
      have hus : u.shell = (subWeight s q).shell := shell_extractFrom hu
      exact hus
  · simp only [wf2qpDesc, wf2qpDequeue] at h
    split_ifs at h
    · obtain ⟨u, hu, he⟩ := Option.map_eq_some_iff.1 h
      obtain ⟨rfl, rfl⟩ := Prod.mk.inj he
      have hus : u.shell = s.shell := shell_idleCheck hu
      exact .inl ⟨rfl, hus⟩
    · obtain ⟨u, hu, h⟩ := Option.bind_eq_some_iff.1 h
      obtain ⟨v, hv, h⟩ := Option.bind_eq_some_iff.1 h
      obtain ⟨⟨m, w⟩, hw, h⟩ := Option.bind_eq_some_iff.1 h
      obtain ⟨x, hx, he⟩ := Option.map_eq_some_iff.1 h
      obtain ⟨rfl, rfl⟩ := Prod.mk.inj he
      have hvs : v.shell = s.shell := (shell_settle hv).trans (shell_idleCheck hu)
      obtain ⟨q, hq, hwq⟩ := shell_serve hw
      have ht : v.Takes (some m) x := .inr ⟨q, m, rfl, hq, (shell_settle hx).trans hwq⟩
      exact ht.congr hvs

/-! ### RR -/

namespace Rr

variable {s t : Rr} {q : QPtr}

@[simp] theorem shell_setNext (n : Option QPtr) : (setNext s q n).shell = s.shell := rfl

@[simp] theorem shell_setStatus (status : ℤ) : (setStatus s q status).shell = s.shell := rfl

@[simp] theorem shell_setCredit (credit : BitVec 32) : (setCredit s q credit).shell = s.shell := rfl

@[simp] theorem shell_setEnds (head tail : Option QPtr) :
    (setEnds s head tail).shell = s.shell := rfl

theorem shell_append (h : rrAppend s q = some t) : t.shell = s.shell := by
  simp only [rrAppend] at h
  split at h
  · rw [← Option.some.inj h]
    rfl
  · obtain ⟨tail, -, rfl⟩ := Option.map_eq_some_iff.1 h
    rfl

theorem shell_removeHead (h : rrRemoveHead s = some t) : t.shell = s.shell := by
  simp only [rrRemoveHead] at h
  split at h
  · rw [Option.some.inj h]
  · split_ifs at h
    · rw [← Option.some.inj h]
      rfl
    · obtain ⟨tail, -, rfl⟩ := Option.map_eq_some_iff.1 h
      rfl

theorem shell_removeLoop {n : ℕ} {prev : Option QPtr} (h : removeLoop n s q prev = some t) :
    t.shell = s.shell := by
  induction n generalizing prev with
  | zero => simp [removeLoop] at h
  | succ n ih =>
    rcases prev with _ | prev
    · rw [Option.some.inj h]
    · simp only [removeLoop] at h
      split_ifs at h
      · exact ih h
      · rw [← Option.some.inj h]
        rfl

theorem shell_removeQueueQ (h : removeQueueQ s q = some t) : t.shell = s.shell := by
  simp only [removeQueueQ] at h
  split_ifs at h
  · rw [Option.some.inj h]
  · exact shell_removeHead h
  · exact shell_removeLoop h

theorem shell_nextPointer (h : nextPointer s = some t) : t.shell = s.shell := by
  simp only [nextPointer] at h
  split at h
  · rw [Option.some.inj h]
  · obtain ⟨tail, -, rfl⟩ := Option.map_eq_some_iff.1 h
    rfl

/-- The activation of a queue with its first packet. -/
theorem shell_activate {b : Bool}
    (h : (if (s.ext q).status = 1 then some (false, s)
      else (rrAppend s q).map fun s => (false, s)) = some (b, t)) :
    b = false ∧ t.shell = s.shell := by
  split_ifs at h
  · obtain ⟨rfl, rfl⟩ := Prod.mk.inj (Option.some.inj h)
    exact ⟨rfl, rfl⟩
  · obtain ⟨u, hu, he⟩ := Option.map_eq_some_iff.1 h
    obtain ⟨rfl, rfl⟩ := Prod.mk.inj he
    exact ⟨rfl, shell_append hu⟩

/-- The loop of `rr_dequeue` turns the ring until a queue can send. -/
theorem takes_rrLoop {n : ℕ} {o : Option Mbuf} (h : rrLoop n s = some (o, t)) : s.Takes o t := by
  induction n generalizing s with
  | zero => simp [rrLoop] at h
  | succ n ih =>
    simp only [rrLoop] at h
    split at h
    · obtain ⟨rfl, rfl⟩ := Prod.mk.inj (Option.some.inj h)
      exact .inl ⟨rfl, rfl⟩
    · next q _ =>
      split at h
      · obtain ⟨u, hu, ht⟩ := Option.bind_eq_some_iff.1 h
        exact (ih ht).congr (shell_removeHead hu)
      · next m rest hq =>
        split_ifs at h
        · obtain ⟨u, hu, ht⟩ := Option.bind_eq_some_iff.1 h
          have hus : u.shell = s.shell := by
            rw [shell_nextPointer hu, shell_setCredit]
          exact (ih ht).congr hus
        · set c := (s.ext q).credit - m.len64.setWidth 32
          have hd := Option.some.inj h
          obtain ⟨u, hu, -⟩ := Inst.dequeue_spec (s := setCredit s q c) hq
          obtain ⟨rfl, rfl⟩ := Prod.mk.inj (hu.symm.trans hd)
          have ht : (setCredit s q c).Takes (some m) u := .inr ⟨q, m, rfl, by rw [hu], by rw [hu]⟩
          exact ht.congr (shell_setCredit _)

end Rr

open Rr in
theorem rr_lawful : rrDesc.Lawful true fun _ => True := by
  refine .of_true (fun {s t q e} _ h => ?_) (fun {s t q safe b} h => ?_)
    (fun _ hm h => (shell_enqueue Rr.shell_activate h).2 hm) fun h => takes_rrLoop h
  · simp only [rrDesc, rrNewQueue] at h
    split_ifs at h
    · obtain ⟨-, rfl⟩ := Prod.mk.inj (Option.some.inj h)
      rfl
    · obtain ⟨u, hu, he⟩ := Option.map_eq_some_iff.1 h
      obtain ⟨-, rfl⟩ := Prod.mk.inj he
      exact (Rr.shell_append hu :)
  · simp only [rrDesc, rrFreeQueue] at h
    split_ifs at h
    · obtain ⟨-, rfl⟩ := Prod.mk.inj (Option.some.inj h)
      rfl
    · obtain ⟨u, hu, he⟩ := Option.map_eq_some_iff.1 h
      obtain ⟨-, rfl⟩ := Prod.mk.inj he
      exact shell_removeQueueQ hu
    · obtain ⟨-, rfl⟩ := Prod.mk.inj (Option.some.inj h)
      rfl

/-! ### QFQ -/

namespace Qfq

variable {s t : Qfq} {q : QPtr}

theorem shell_of_base (h : base t = base s) : t.shell = s.shell := (congrArg Inst.shell h :)

/-- The activation of a class with its first packet. -/
theorem shell_activate {m : Mbuf} {b : Bool}
    (h : ((qfqActivate s q m).map fun s => (false, s)) = some (b, t)) :
    b = false ∧ t.shell = s.shell := by
  obtain ⟨u, hu, he⟩ := Option.map_eq_some_iff.1 h
  obtain ⟨rfl, rfl⟩ := Prod.mk.inj he
  exact ⟨rfl, shell_of_base (base_activate hu)⟩

end Qfq

open Qfq in
theorem qfq_lawful : qfqDesc.Lawful true fun _ => True := by
  refine .of_true (fun {s t q e} _ h => ?_) (fun {s t q safe b} h => ?_)
    (fun _ hm h => (shell_enqueue Qfq.shell_activate h).2 hm) fun {s t o} h => ?_
  · simp only [qfqDesc, qfqNewQueue] at h
    split_ifs at h <;>
    · obtain ⟨-, rfl⟩ := Prod.mk.inj (Option.some.inj h)
      rfl
  · simp only [qfqDesc, qfqFreeQueue] at h
    split_ifs at h <;>
    · obtain ⟨-, rfl⟩ := Prod.mk.inj (Option.some.inj h)
      rfl
  · simp only [qfqDesc, qfqDequeue] at h
    split_ifs at h
    · obtain ⟨rfl, rfl⟩ := Prod.mk.inj (Option.some.inj h)
      exact .inl ⟨rfl, rfl⟩
    · obtain ⟨g, -, h⟩ := Option.bind_eq_some_iff.1 h
      obtain ⟨q, -, h⟩ := Option.bind_eq_some_iff.1 h
      rcases hm : s.mq q with _ | ⟨m, rest⟩
      · rw [Inst.dequeue_nil hm] at h
        obtain ⟨rfl, rfl⟩ := Prod.mk.inj (Option.some.inj h)
        exact .inl ⟨rfl, rfl⟩
      · obtain ⟨u, hu, -⟩ := Inst.dequeue_spec hm
        simp only [hu] at h
        obtain ⟨v, hv, he⟩ := Option.map_eq_some_iff.1 h
        obtain ⟨rfl, rfl⟩ := Prod.mk.inj he
        exact .inr ⟨q, m, rfl, by rw [hu], by rw [hu, shell_of_base (base_served hv)]⟩

/-! ### PRIO -/

namespace Prio

variable {s t : Prio} {q : QPtr}

/-- The array holds existing queues at their priorities. -/
def ArrayOk (s : Prio) : Prop :=
  ∀ ix q, s.priv.qArray ix = some q → q ∈ s.live ∧ (s.par q 0).toNat = ix

theorem ArrayOk.of_sameBut {l : List Mbuf} (h : ArrayOk s) (hb : SameBut s t q l) : ArrayOk t := by
  intro ix q' hq'
  rw [hb.priv] at hq'
  rw [hb.live, hb.par]
  exact h ix q' hq'

/-- A queue enters the array at its priority. -/
theorem ArrayOk.enter {bitmap : BitVec 64} (h : ArrayOk s) (hq : q ∈ s.live) :
    ArrayOk ({ s with
      priv := ⟨bitmap, Function.update s.priv.qArray (s.par q 0).toNat (some q)⟩ } : Prio) := by
  intro ix q' hq'
  by_cases hix : ix = (s.par q 0).toNat
  · subst hix
    obtain rfl : q = q' := by simpa using hq'
    exact ⟨hq, rfl⟩
  · exact h ix q' (by simpa [hix] using hq')

/-- A priority leaves the array. -/
theorem ArrayOk.leave {bitmap : BitVec 64} (h : ArrayOk s) (ix : ℕ) :
    ArrayOk ({ s with priv := ⟨bitmap, Function.update s.priv.qArray ix none⟩ } : Prio) := by
  intro ix' q' hq'
  by_cases hix : ix' = ix
  · simp [hix] at hq'
  · exact h ix' q' (by simpa [hix] using hq')

theorem prioEnqueue_takes {m : Mbuf} {r : Draws} {b : Bool} (hok : ArrayOk s) (hq : q ∈ s.live)
    (h : prioEnqueue s q m r = some (b, t)) :
    (∃ q' ∈ s.live, b = (s.enqueue q' m false r).1 ∧
      t.shell = (s.enqueue q' m false r).2.shell) ∧ ArrayOk t := by
  obtain ⟨busy, -, h⟩ := Option.bind_eq_some_iff.1 h
  split_ifs at h
  · obtain ⟨bitmap, -, he⟩ := Option.map_eq_some_iff.1 h
    set u : Prio := { s with
      priv := ⟨bitmap, Function.update s.priv.qArray (s.par q 0).toNat (some q)⟩ } with hu
    obtain ⟨b', t', heq, hbut⟩ := Inst.enqueue_spec u q m false r
    obtain ⟨rfl, rfl⟩ := Prod.mk.inj (heq.symm.trans he)
    have hok' : ArrayOk u := hok.enter hq
    refine ⟨⟨q, hq, (congrArg Prod.fst heq :).symm, ?_⟩, hok'.of_sameBut hbut⟩
    exact (congrArg (fun r => r.2.shell) heq :).symm
  · obtain ⟨q', hq', he⟩ := Option.map_eq_some_iff.1 h
    obtain ⟨b', t', heq, hbut⟩ := Inst.enqueue_spec s q' m false r
    obtain ⟨rfl, rfl⟩ := Prod.mk.inj (heq.symm.trans he)
    exact ⟨⟨q', (hok _ q' hq').1, by rw [heq], by rw [heq]⟩, hok.of_sameBut hbut⟩

theorem prioEnqueue_gives {m : Mbuf} {r : Draws} {b : Bool}
    (h : prioEnqueue s q m r = some (b, t)) : s.Gives m r b t := by
  obtain ⟨busy, -, h⟩ := Option.bind_eq_some_iff.1 h
  split_ifs at h
  · obtain ⟨bitmap, -, he⟩ := Option.map_eq_some_iff.1 h
    obtain ⟨hb, ht⟩ := Prod.mk.inj he
    exact .inr ⟨q, hb.symm, (congrArg Inst.shell ht).symm⟩
  · obtain ⟨q', -, he⟩ := Option.map_eq_some_iff.1 h
    exact .inr ⟨q', (congrArg Prod.fst he).symm, (congrArg (fun r => r.2.shell) he).symm⟩

theorem prioDequeue_takes {o : Option Mbuf} (h : prioDequeue s = some (o, t)) :
    s.Takes o t ∧ (ArrayOk s → ArrayOk t) := by
  simp only [prioDequeue] at h
  split_ifs at h
  · obtain ⟨rfl, rfl⟩ := Prod.mk.inj (Option.some.inj h)
    exact ⟨.inl ⟨rfl, rfl⟩, fun hok => hok⟩
  · obtain ⟨q, -, h⟩ := Option.bind_eq_some_iff.1 h
    have hfinish : ∀ {m : Option Mbuf} {u : Prio},
        (if u.mq q = [] then
          (clearBit ((Bits.ffs (s.priv.bitmap.setWidth 32) : ℤ) - 1) u.priv.bitmap).map fun bitmap =>
            (m, ({ u with priv := ⟨bitmap, Function.update u.priv.qArray
              ((Bits.ffs (s.priv.bitmap.setWidth 32) : ℤ) - 1).toNat none⟩ } : Prio))
        else some (m, u)) = some (o, t) → o = m ∧ t.shell = u.shell ∧ (ArrayOk u → ArrayOk t) := by
      intro m u h
      split_ifs at h
      · obtain ⟨bitmap, -, he⟩ := Option.map_eq_some_iff.1 h
        obtain ⟨rfl, rfl⟩ := Prod.mk.inj he
        exact ⟨rfl, rfl, fun hu => hu.leave _⟩
      · obtain ⟨rfl, rfl⟩ := Prod.mk.inj (Option.some.inj h)
        exact ⟨rfl, rfl, fun hu => hu⟩
    rcases hm : s.mq q with _ | ⟨m, rest⟩
    · rw [Inst.dequeue_nil hm] at h
      obtain ⟨rfl, hshell, hokt⟩ := hfinish h
      exact ⟨.inl ⟨rfl, hshell⟩, hokt⟩
    · obtain ⟨u, hu, hbut⟩ := Inst.dequeue_spec hm
      rw [hu] at h
      obtain ⟨rfl, hshell, hokt⟩ := hfinish h
      exact ⟨.inr ⟨q, m, rfl, by rw [hu], by rw [hu, hshell]⟩, fun hok => hokt (hok.of_sameBut hbut)⟩

theorem dnDeleteQueue_arrayOk {destroy safe b : Bool} (hok : ArrayOk s)
    (h : dnDeleteQueue prioDesc s q destroy safe = some (b, t)) : ArrayOk t := by
  obtain ⟨⟨b', u⟩, hu, he⟩ := Option.map_eq_some_iff.1 h
  have hfree : b' = false ∧ ArrayOk u ∧ u.live = s.live ∧ ∀ ix, u.priv.qArray ix ≠ some q := by
    simp only [prioDesc, prioFreeQueue] at hu
    split_ifs at hu with hq
    · obtain ⟨bitmap, -, hu⟩ := Option.map_eq_some_iff.1 hu
      obtain ⟨rfl, rfl⟩ := Prod.mk.inj hu
      refine ⟨rfl, hok.leave _, rfl, fun ix hix => ?_⟩
      by_cases heq : ix = (s.par q 0).toNat
      · simp [heq] at hix
      · exact heq (hok ix q (by simpa [heq] using hix)).2.symm
    · obtain ⟨rfl, rfl⟩ := Prod.mk.inj (Option.some.inj hu)
      refine ⟨rfl, hok, rfl, fun ix hix => hq ?_⟩
      rw [(hok ix q hix).2]
      exact hix
  obtain ⟨rfl, hoku, hlive, hne⟩ := hfree
  obtain rfl : removeQueue u q destroy = t := (Prod.mk.inj he).2
  obtain ⟨hpriv, -, hlive', hqueue⟩ := removeQueue_spec u q destroy
  intro ix q' hq'
  rw [hpriv] at hq'
  have hqq : q' ≠ q := by
    rintro rfl
    exact hne ix hq'
  obtain ⟨hmem, hpar⟩ := hoku ix q' hq'
  refine ⟨by rw [hlive']; exact Finset.mem_erase.2 ⟨hqq, hmem⟩, ?_⟩
  rw [Inst.par, hqueue q' hqq]
  exact hpar

theorem qNew_arrayOk {fs : DnFsk} (hok : ArrayOk s) (hq : q ∉ s.live)
    (h : qNew prioDesc s q fs = some t) : ArrayOk t := by
  obtain ⟨⟨e, u⟩, hu, rfl⟩ := Option.map_eq_some_iff.1 h
  simp only [prioDesc, prioNewQueue] at hu
  rw [if_pos (by simp [Inst.mq])] at hu
  obtain ⟨-, rfl⟩ := Prod.mk.inj (Option.some.inj hu)
  intro ix q' hq'
  obtain ⟨hmem, hpar⟩ := hok ix q' hq'
  have hqq : q' ≠ q := by
    rintro rfl
    exact hq hmem
  refine ⟨Finset.mem_insert_of_mem hmem, ?_⟩
  simpa [Inst.par, hqq] using hpar

end Prio

open Prio in
theorem prio_lawful : prioDesc.Lawful true ArrayOk where
  new {s t q e} hq h := by
    simp only [prioDesc, prioNewQueue, if_pos hq] at h
    obtain ⟨-, rfl⟩ := Prod.mk.inj (Option.some.inj h)
    rfl
  free {s t q safe b} h := by
    simp only [prioDesc, prioFreeQueue] at h
    split_ifs at h
    · obtain ⟨bitmap, -, he⟩ := Option.map_eq_some_iff.1 h
      obtain ⟨-, rfl⟩ := Prod.mk.inj he
      rfl
    · obtain ⟨-, rfl⟩ := Prod.mk.inj (Option.some.inj h)
      rfl
  enqueue hok hq _ h := (prioEnqueue_takes hok hq h).1
  dequeue _ h := (prioDequeue_takes h).1
  ok_enqueue hok hq _ h := (prioEnqueue_takes hok hq h).2
  ok_dequeue hok h := (prioDequeue_takes h).2 hok
  ok_new hok hq h := qNew_arrayOk hok hq h
  ok_delete hok _ h := dnDeleteQueue_arrayOk hok h
  ok_congr {s t} hok hpriv _ hlive hpar ix q hq := by
    rw [hpriv] at hq
    obtain ⟨hmem, hix⟩ := hok ix q hq
    exact ⟨hlive ▸ hmem, by rw [hpar q hmem, hix]⟩

/-! ### All of them -/

/-- What a scheduler knows about its own data. -/
def SchedType.Ok : (k : SchedType) → Inst k.Priv k.Ext → Prop
  | .prio => Prio.ArrayOk
  | _ => fun _ => True

/-- **The five schedulers** touch the queues of their instance only through `dn_enqueue` and
`dn_dequeue`. -/
theorem SchedType.lawful : (k : SchedType) → k.desc.Lawful k.multiqueue k.Ok
  | .fifo => fifo_lawful
  | .wf2qp => wf2qp_lawful
  | .rr => rr_lawful
  | .qfq => qfq_lawful
  | .prio => prio_lawful

/-- Whatever a scheduler knows, it takes packets only with `dn_dequeue`. -/
theorem SchedType.takes {k : SchedType} {s t : Inst k.Priv k.Ext} {o : Option Mbuf}
    (h : k.desc.dequeue s = some (o, t)) : s.Takes o t := by
  cases k with
  | fifo => exact fifo_lawful.dequeue trivial h
  | wf2qp => exact wf2qp_lawful.dequeue trivial h
  | rr => exact rr_lawful.dequeue trivial h
  | qfq => exact qfq_lawful.dequeue trivial h
  | prio => exact (Prio.prioDequeue_takes h).1

/-- Whatever a scheduler knows, it gives packets to queues only with `dn_enqueue`. -/
theorem SchedType.gives {k : SchedType} {s t : Inst k.Priv k.Ext} {q : QPtr} {m : Mbuf} {r : Draws}
    {b : Bool} (h : k.desc.enqueue s q m r = some (b, t)) : s.Gives m r b t := by
  cases k with
  | fifo =>
    have he := Option.some.inj h
    exact .inr ⟨fifoQueue, (congrArg Prod.fst he).symm, (congrArg (fun r => r.2.shell) he).symm⟩
  | wf2qp => exact (shell_enqueue Wf2qp.shell_activate h).1
  | rr => exact (shell_enqueue Rr.shell_activate h).1
  | qfq => exact (shell_enqueue Qfq.shell_activate h).1
  | prio => exact Prio.prioEnqueue_gives h

end Dummynet
