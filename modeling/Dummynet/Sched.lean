import Mathlib
import Dummynet.Queue
import Dummynet.Lib.Runs

/-!
# Scheduler instances

A scheduler instance of dummynet with its queues: the instance data common to all schedulers, the
private data of the scheduler, and for each queue the common part and the extension that the
scheduler keeps behind it. A scheduling algorithm, `struct dn_alg`, is a record of callbacks on
this state; the framework creates and deletes queues around the callbacks.

## Main definitions

* `Inst`: an instance, with the private data `P` and the queue extension `X` of its scheduler.
* `Inst.enqueue`, `Inst.dequeue`: `dn_enqueue` and `dn_dequeue` on a queue of the instance.
* `DnAlg`: the callbacks of a scheduler. A callback that panics, divides by zero or follows a
  null pointer has the result `none`.
* `qNew`, `dnDeleteQueue`: creation and deletion of a queue.
* `SchedOp`, `DnAlg.step`: one operation on an instance, the steps of the runs in this development.
* `Traffic`, `DnAlg.traffic`: the packets that went through each queue during a run.

## Main results

* `Inst.enqueue_spec`, `Inst.dequeue_spec`: the callbacks' use of a queue changes its packets only.
* `PktStep.fifo`, `QueueStep.fifo`: the packets of a queue leave in the order of their arrival.
-/

namespace Dummynet

/-- `struct dn_sch_inst` with the private data of the scheduler, and the queues that belong to
the instance: `queue` and `ext` are the memory of the queues, `live` the addresses in use. -/
structure Inst (P X : Type) where
  si : SiPtr
  cfg : DnCfg
  ni : DnFlow
  qCount : ℤ
  priv : P
  queue : QPtr → DnQueue
  ext : QPtr → X
  live : Finset QPtr

variable {P X : Type}

/-- The packets of a queue. -/
def Inst.mq (s : Inst P X) (q : QPtr) : List Mbuf := (s.queue q).mq

/-- `m == q->mq.head`. -/
def Inst.isHead (s : Inst P X) (q : QPtr) (m : Mbuf) : Prop :=
  (s.mq q).head?.map Mbuf.ptr = some m.ptr

instance (s : Inst P X) (q : QPtr) (m : Mbuf) : Decidable (s.isHead q m) :=
  inferInstanceAs (Decidable (_ = _))

/-- `q->fs->fs.par[i]`. -/
def Inst.par (s : Inst P X) (q : QPtr) (i : Fin 4) : ℤ := (s.queue q).par i

/-- `dn_enqueue` on the queue `q`; the result is `true` on drop. -/
def Inst.enqueue (s : Inst P X) (q : QPtr) (m : Mbuf) (drop : Bool) (r : Draws) :
    Bool × Inst P X :=
  let (b, cfg, ni, dq) := dnEnqueue s.cfg s.ni (s.queue q) m drop r
  (b, { s with cfg := cfg, ni := ni, queue := Function.update s.queue q dq })

/-- `dn_dequeue` on the queue `q`. -/
def Inst.dequeue (s : Inst P X) (q : QPtr) : Option Mbuf × Inst P X :=
  let (m, cfg, ni, dq) := dnDequeue s.cfg s.ni (s.queue q)
  (m, { s with cfg := cfg, ni := ni, queue := Function.update s.queue q dq })

/-- The callbacks of `struct dn_alg`. The result of `enqueue` is `true` when the packet was
dropped, that of `freeQueue` is `true` when the queue must stay, and that of `newQueue` is the
error number. -/
structure DnAlg (P X : Type) where
  /-- The extension of a queue in zeroed memory. -/
  zeroExt : X
  newFsk : DnFsk → DnFsk
  newQueue : Inst P X → QPtr → Option (ℕ × Inst P X)
  freeQueue : Inst P X → QPtr → Bool → Option (Bool × Inst P X)
  enqueue : Inst P X → QPtr → Mbuf → Draws → Option (Bool × Inst P X)
  dequeue : Inst P X → Option (Option Mbuf × Inst P X)

/-- `q_new` for an instance that exists: zeroed memory at the new address `q`, the flowset and
the instance, then the callback, whose error is ignored. -/
def qNew (alg : DnAlg P X) (s : Inst P X) (q : QPtr) (fs : DnFsk) : Option (Inst P X) :=
  let s := { s with
    queue := Function.update s.queue q { fs := fs, si := some s.si }
    ext := Function.update s.ext q alg.zeroExt
    live := insert q s.live
    qCount := s.qCount + 1 }
  (alg.newQueue s q).map fun r =>
    { r.2 with cfg := { r.2.cfg with
        queueCount := r.2.cfg.queueCount + 1, idleQueue := r.2.cfg.idleQueue + 1 } }

/-- The rest of `dn_delete_queue`, after the scheduler has let the queue go. -/
def removeQueue (s : Inst P X) (q : QPtr) (destroy : Bool) : Inst P X :=
  let s := { s with
    qCount := s.qCount - 1
    queue := Function.update s.queue q { s.queue q with si := none }
    live := s.live.erase q }
  if destroy then
    { s with
      queue := Function.update s.queue q {}
      cfg := { s.cfg with
        idleQueue := if s.mq q = [] then s.cfg.idleQueue - 1 else s.cfg.idleQueue
        queueCount := s.cfg.queueCount - 1 } }
  else s

/-- `dn_delete_queue` with the flags `DN_DESTROY` and `DN_DEL_SAFE`; the result is `true` when the
queue is not deleted. -/
def dnDeleteQueue (alg : DnAlg P X) (s : Inst P X) (q : QPtr) (destroy safe : Bool) :
    Option (Bool × Inst P X) :=
  (alg.freeQueue s q safe).map fun r => if r.1 then r else (false, removeQueue r.2 q destroy)

/-- The operations on an instance: a queue is created with a flowset or deleted, a packet arrives
for a queue, and the scheduler is asked for a packet. -/
inductive SchedOp
  | new (q : QPtr) (fs : DnFsk)
  | delete (q : QPtr) (destroy safe : Bool)
  | enqueue (q : QPtr) (m : Mbuf) (r : Draws)
  | dequeue

/-- One operation of the instance. The output is the packet that `dequeue` returns. -/
def DnAlg.step (alg : DnAlg P X) (s : Inst P X) : SchedOp → Option (Option Mbuf × Inst P X)
  | .new q fs => (qNew alg s q (alg.newFsk fs)).map fun t => (none, t)
  | .delete q destroy safe => (dnDeleteQueue alg s q destroy safe).map fun r => (none, r.2)
  | .enqueue q m r => (alg.enqueue s q m r).map fun r => (none, r.2)
  | .dequeue => alg.dequeue s

/-- What the framework promises about an operation: a new queue gets an unused address, and the
other operations are about an existing queue; a packet that arrives is not already the head of
the queue. The number of queues, which `dn_cfg` counts in an `int`, does not overflow. -/
def SchedOp.Promised (s : Inst P X) : SchedOp → Prop
  | .new q _ => q ∉ s.live ∧ s.live.card < 2 ^ 31 - 1
  | .delete q _ _ => q ∈ s.live
  | .enqueue q m _ => q ∈ s.live ∧ ¬ s.isHead q m
  | .dequeue => True

instance (s : Inst P X) (i : SchedOp) : Decidable (i.Promised s) := by
  cases i <;> unfold SchedOp.Promised <;> infer_instance

/-- A packet that arrives is not longer than `L`. -/
def SchedOp.LenLe (L : ℕ) : SchedOp → Prop
  | .enqueue _ m _ => m.len ≤ L
  | _ => True

instance (L : ℕ) (i : SchedOp) : Decidable (i.LenLe L) := by
  cases i <;> unfold SchedOp.LenLe <;> infer_instance

/-! ### Traffic -/

/-- For every queue the packets that it accepted and the packets that were taken from it. -/
structure Traffic where
  arrived : QPtr → List Mbuf := fun _ => []
  departed : QPtr → List Mbuf := fun _ => []

/-- The observer of the traffic: an enqueue operation adds packets at the end of a queue, and a
dequeue operation takes them from the front. -/
def Traffic.observe (s : Inst P X) (i : SchedOp) (t : Inst P X) (g : Traffic) : Traffic :=
  match i with
  | .enqueue q _ _ =>
    let new := (t.mq q).drop (s.mq q).length
    { g with arrived := Function.update g.arrived q (g.arrived q ++ new) }
  | .dequeue =>
    let gone := fun q => (s.mq q).take ((s.mq q).length - (t.mq q).length)
    { g with departed := fun q => g.departed q ++ gone q }
  | _ => g

/-- The observer of the traffic of the queues that exist: a queue that is deleted is forgotten. -/
def Traffic.watch (s : Inst P X) (i : SchedOp) (t : Inst P X) (g : Traffic) : Traffic :=
  match i with
  | .delete q _ _ =>
    if q ∈ t.live then g
    else ⟨Function.update g.arrived q [], Function.update g.departed q []⟩
  | i => Traffic.observe s i t g

/-- The bytes taken from a queue. -/
def Traffic.bytes (g : Traffic) (q : QPtr) : ℕ := ((g.departed q).map Mbuf.len).sum

/-- One operation of the instance, with its traffic. -/
def DnAlg.traffic (alg : DnAlg P X) (x : Inst P X × Traffic) (i : SchedOp) :
    Option (Option Mbuf × Inst P X × Traffic) :=
  Runs.observe alg.step Traffic.observe x i

/-- What one operation, not a deletion, does to the queues and their packets, with its output. -/
inductive PktStep (s t : Inst P X) : SchedOp → Option Mbuf → Prop
  | new {q : QPtr} {fs : DnFsk} : q ∉ s.live → t.live = insert q s.live → t.mq q = [] →
      (∀ q', q' ≠ q → t.mq q' = s.mq q') → PktStep s t (.new q fs) none
  | dropped {q : QPtr} {m : Mbuf} {r : Draws} : t.live = s.live → (∀ q', t.mq q' = s.mq q') →
      PktStep s t (.enqueue q m r) none
  | queued {q : QPtr} {m : Mbuf} {r : Draws} : q ∈ s.live → t.live = s.live →
      (∀ q', t.mq q' = Function.update s.mq q (s.mq q ++ [m]) q') →
      PktStep s t (.enqueue q m r) none
  | idle : t.live = s.live → (∀ q', t.mq q' = s.mq q') → PktStep s t .dequeue none
  | served {q : QPtr} {m : Mbuf} {rest : List Mbuf} : q ∈ s.live → t.live = s.live →
      s.mq q = m :: rest → (∀ q', t.mq q' = Function.update s.mq q rest q') →
      PktStep s t .dequeue (some m)

/-- The traffic so far explains the packets: those accepted by a queue are those taken from it,
in the same order, and those still in it. -/
def Traffic.Fifo (s : Inst P X) (g : Traffic) : Prop :=
  ∀ q, if q ∈ s.live then g.arrived q = g.departed q ++ s.mq q
    else g.arrived q = [] ∧ g.departed q = []

/-- **First in, first out.** An operation keeps the order of the packets of every queue. -/
theorem PktStep.fifo {s t : Inst P X} {i : SchedOp} {o : Option Mbuf} {g : Traffic}
    (h : PktStep s t i o) (hg : g.Fifo s) : (Traffic.observe s i t g).Fifo t := by
  intro q
  have hq := hg q
  cases h with
  | @new p fs hp hl hmq hother =>
    rcases eq_or_ne q p with rfl | hne
    · rw [if_neg hp] at hq
      simp [Traffic.observe, hl, hmq, hq.1, hq.2]
    · simpa [Traffic.observe, hl, hne, hother q hne] using hq
  | @dropped p m r hl hmq =>
    rcases eq_or_ne q p with rfl | hne
    · simpa [Traffic.observe, hl, hmq] using hq
    · simpa [Traffic.observe, hl, hmq, hne] using hq
  | @queued p m r hp hl hmq =>
    rcases eq_or_ne q p with rfl | hne
    · rw [if_pos hp] at hq
      simp [Traffic.observe, hl, hmq, hp, hq]
    · simpa [Traffic.observe, hl, hmq, hne] using hq
  | idle hl hmq => simpa [Traffic.observe, hl, hmq] using hq
  | @served p m rest hp hl hm hmq =>
    rcases eq_or_ne q p with rfl | hne
    · rw [if_pos hp, hm] at hq
      simp [Traffic.observe, hl, hmq, hp, hq, hm]
    · simpa [Traffic.observe, hl, hmq, hne] using hq

/-- What any operation does to the queues and their packets, with its output. -/
inductive QueueStep (s t : Inst P X) : SchedOp → Option Mbuf → Prop
  | pkt {i : SchedOp} {o : Option Mbuf} : PktStep s t i o → QueueStep s t i o
  | kept {q : QPtr} {destroy safe : Bool} : q ∈ s.live → t.live = s.live →
      (∀ q', t.mq q' = s.mq q') → QueueStep s t (.delete q destroy safe) none
  | deleted {q : QPtr} {destroy safe : Bool} : t.live = s.live.erase q →
      (∀ q', q' ≠ q → t.mq q' = s.mq q') → QueueStep s t (.delete q destroy safe) none

/-- **First in, first out**, also when queues are deleted. -/
theorem QueueStep.fifo {s t : Inst P X} {i : SchedOp} {o : Option Mbuf} {g : Traffic}
    (h : QueueStep s t i o) (hg : g.Fifo s) : (Traffic.watch s i t g).Fifo t := by
  cases h with
  | pkt h =>
    have hwatch : Traffic.watch s i t g = Traffic.observe s i t g := by
      cases h <;> rfl
    rw [hwatch]
    exact h.fifo hg
  | @kept q _ _ hq hlive hmq =>
    intro q'
    rw [Traffic.watch, hlive, if_pos hq, hmq q']
    exact hg q'
  | @deleted q _ _ hlive hmq =>
    have hq : q ∉ t.live := by simp [hlive]
    intro q'
    rw [Traffic.watch, if_neg hq]
    rcases eq_or_ne q' q with rfl | hne
    · simp [hq]
    · have hmem : q' ∈ t.live ↔ q' ∈ s.live := by simp [hlive, hne]
      simpa [hmem, hne, hmq q' hne] using hg q'

/-- Every packet was there before or has just arrived. -/
theorem QueueStep.mem {s t : Inst P X} {i : SchedOp} {o : Option Mbuf} {q : QPtr} {m : Mbuf}
    (h : QueueStep s t i o) (hq : q ∈ t.live) (hm : m ∈ t.mq q) :
    q ∈ s.live ∧ m ∈ s.mq q ∨ ∃ r, i = .enqueue q m r := by
  cases h with
  | pkt h =>
    cases h with
    | @new p fs hp hl hnil hother =>
      have hne : q ≠ p := by
        rintro rfl
        simp [hnil] at hm
      exact .inl ⟨by simpa [hl, hne] using hq, hother q hne ▸ hm⟩
    | dropped hl hmq => exact .inl ⟨hl ▸ hq, hmq q ▸ hm⟩
    | @queued p m' r hp hl hmq =>
      rw [hmq] at hm
      rcases eq_or_ne q p with rfl | hne
      · rw [Function.update_self, List.mem_append, List.mem_singleton] at hm
        rcases hm with hm | rfl
        · exact .inl ⟨hp, hm⟩
        · exact .inr ⟨r, rfl⟩
      · rw [Function.update_of_ne hne] at hm
        exact .inl ⟨hl ▸ hq, hm⟩
    | idle hl hmq => exact .inl ⟨hl ▸ hq, hmq q ▸ hm⟩
    | @served p m' rest hp hl hhead hmq =>
      rw [hmq] at hm
      rcases eq_or_ne q p with rfl | hne
      · rw [Function.update_self] at hm
        exact .inl ⟨hp, by simp [hhead, hm]⟩
      · rw [Function.update_of_ne hne] at hm
        exact .inl ⟨hl ▸ hq, hm⟩
  | kept _ hl hmq => exact .inl ⟨hl ▸ hq, hmq q ▸ hm⟩
  | deleted hl hmq =>
    obtain ⟨hne, hq⟩ := Finset.mem_erase.1 (hl ▸ hq)
    exact .inl ⟨hq, hmq q hne ▸ hm⟩

/-! ### What the common operations change -/

/-- After a deletion the address is free, and nothing else of the scheduler has changed. -/
theorem removeQueue_spec (s : Inst P X) (q : QPtr) (destroy : Bool) :
    (removeQueue s q destroy).priv = s.priv ∧ (removeQueue s q destroy).ext = s.ext ∧
      (removeQueue s q destroy).live = s.live.erase q ∧
      ∀ q', q' ≠ q → (removeQueue s q destroy).queue q' = s.queue q' := by
  unfold removeQueue
  refine ⟨?_, ?_, ?_, fun q' hne => ?_⟩
  · cases destroy <;> rfl
  · cases destroy <;> rfl
  · cases destroy <;> rfl
  · cases destroy <;> simp [hne]

/-- The two states differ in counters and statistics only, and in the packets of `q`, which are
`l` in the second one. -/
structure SameBut (s t : Inst P X) (q : QPtr) (l : List Mbuf) : Prop where
  priv : t.priv = s.priv
  ext : t.ext = s.ext
  live : t.live = s.live
  fs : ∀ q', (t.queue q').fs = (s.queue q').fs
  si : ∀ q', (t.queue q').si = (s.queue q').si
  counted : ∀ q', (s.queue q').Counted → (t.queue q').Counted
  mq : ∀ q', t.mq q' = Function.update s.mq q l q'

theorem SameBut.par {s t : Inst P X} {q : QPtr} {l : List Mbuf} (h : SameBut s t q l) (q' : QPtr)
    (i : Fin 4) : t.par q' i = s.par q' i := by
  rw [Inst.par, DnQueue.par, h.fs q']
  rfl

theorem SameBut.mq_self {s t : Inst P X} {q : QPtr} {l : List Mbuf} (h : SameBut s t q l) :
    t.mq q = l := by
  rw [h.mq, Function.update_self]

theorem SameBut.mq_of_ne {s t : Inst P X} {q q' : QPtr} {l : List Mbuf} (h : SameBut s t q l)
    (hne : q' ≠ q) : t.mq q' = s.mq q' := by
  rw [h.mq, Function.update_of_ne hne]

private theorem sameBut_of_queue {s : Inst P X} {q : QPtr} {l : List Mbuf} {dq : DnQueue}
    (cfg : DnCfg) (ni : DnFlow) (hfs : dq.fs = (s.queue q).fs) (hsi : dq.si = (s.queue q).si)
    (hmq : dq.mq = l) (hcount : (s.queue q).Counted → dq.Counted) :
    SameBut s { s with cfg := cfg, ni := ni, queue := Function.update s.queue q dq } q l := by
  refine ⟨rfl, rfl, rfl, fun q' => ?_, fun q' => ?_, fun q' h => ?_, fun q' => ?_⟩ <;>
  · rcases eq_or_ne q' q with rfl | hne
    · simp_all [Inst.mq]
    · simp_all [Inst.mq]

/-- **Enqueue** appends the packet or drops it. -/
theorem Inst.enqueue_spec (s : Inst P X) (q : QPtr) (m : Mbuf) (drop : Bool) (r : Draws) :
    ∃ b t, s.enqueue q m drop r = (b, t) ∧
      SameBut s t q (if b then s.mq q else s.mq q ++ [m]) := by
  obtain ⟨b, cfg, ni, dq, heq, hfs, hsi, hmq, hcount⟩ :=
    dnEnqueue_cases s.cfg s.ni (s.queue q) m drop r
  refine ⟨b, _, by rw [Inst.enqueue, heq], sameBut_of_queue cfg ni hfs hsi hmq hcount⟩

/-- **Dequeue** takes the head of a queue that is not empty. -/
theorem Inst.dequeue_spec {s : Inst P X} {q : QPtr} {m : Mbuf} {rest : List Mbuf}
    (hq : s.mq q = m :: rest) : ∃ t, s.dequeue q = (some m, t) ∧ SameBut s t q rest := by
  obtain ⟨cfg, ni, dq, heq, hfs, hsi, hmq, hcount⟩ := dnDequeue_cons s.cfg s.ni hq
  exact ⟨_, by rw [Inst.dequeue, heq], sameBut_of_queue cfg ni hfs hsi hmq hcount⟩

theorem Inst.dequeue_nil {s : Inst P X} {q : QPtr} (hq : s.mq q = []) :
    s.dequeue q = (none, s) := by
  rw [Inst.dequeue, dnDequeue_nil hq]
  simp

end Dummynet
