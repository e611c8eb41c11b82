import Dummynet.System.Graph
import Mathlib

/-!
# What an operation does to the instances

The operations of dummynet as sequences of small changes, each of one kind: an instance is made or
destroyed, a queue comes or goes, a packet enters a queue or leaves it, the clock moves, and so on.
Whatever the changes of the kinds that an operation makes preserve, the operation preserves.

## Main definitions

* `Quiet`: a change that the instances do not see.
* `MoveKind`, `Move`: the kinds of changes, and the changes.
* `Path`: a sequence of changes of given kinds.
* `Goes`: a path to a state that has a graph.

## Main results

* `Path.invariant`: what every change preserves, a path preserves.
-/

namespace Dummynet

/-- The instances, the counters and what was recorded are the same. -/
structure Keeps (s t : Dn) : Prop where
  inst : t.inst = s.inst
  sis : t.sis = s.sis
  cfg : t.cfg = s.cfg
  siCount : t.siCount = s.siCount
  ioPkt : t.ioPkt = s.ioPkt
  malloc : (∀ n, s.env.malloc n = true) → ∀ n, t.env.malloc n = true

/-- A change that the instances do not see. -/
structure Quiet (s t : Dn) : Prop extends Keeps s t where
  evheap : t.evheap = s.evheap
  oidId : t.oidId = s.oidId
  log : t.log = s.log

theorem Keeps.refl (s : Dn) : Keeps s s := ⟨rfl, rfl, rfl, rfl, rfl, id⟩

theorem Quiet.refl (s : Dn) : Quiet s s := ⟨.refl s, rfl, rfl, rfl⟩

theorem Keeps.trans {s t u : Dn} (h : Keeps s t) (h' : Keeps t u) : Keeps s u :=
  ⟨h'.inst.trans h.inst, h'.sis.trans h.sis, h'.cfg.trans h.cfg, h'.siCount.trans h.siCount,
    h'.ioPkt.trans h.ioPkt, fun hm => h'.malloc (h.malloc hm)⟩

theorem Quiet.trans {s t u : Dn} (h : Quiet s t) (h' : Quiet t u) : Quiet s u :=
  ⟨h.toKeeps.trans h'.toKeeps, h'.evheap.trans h.evheap, h'.oidId.trans h.oidId, h'.log.trans h.log⟩

/-- An instance that is new at the address `p`. -/
structure SchInst.Fresh (x : SchInst) (p : SiPtr) : Prop where
  si : x.s.si = p
  ni : x.s.ni = {}
  live : x.s.live = ∅
  mq : ∀ q, (x.s.queue q).mq = []
  niq : ∀ q, (x.s.queue q).ni = {}
  priv : x.s.priv = x.kind.newSched
  ext : ∀ q, x.s.ext q = x.kind.desc.zeroExt
  active : x.active = false
  dline : x.dline = []
  dlineSubtype : x.dlineSubtype = false

/-- An event that is only about the event heap. -/
def Event.isKey : Event → Prop
  | .key _ => True
  | _ => False

/-- An event that is about packets that have left the scheduler instances. -/
def Event.isNote : Event → Prop
  | .handed _ | .chained _ | .sent _ _ | .freed _ => True
  | _ => False

/-- The kinds of changes. The kind `purge p` is the deletion of a queue of the instance `p` that
may hold packets. -/
inductive MoveKind
  | quiet
  | conf
  | heap
  | note
  | clock
  | credit
  | new
  | destroy
  | newQueue
  | delete
  | purge (p : SiPtr)
  | enqueue
  | idle
  | take
  | line
  | transmit
  | flush

/-- The instance `p` in a new table, as `si_new` leaves it. -/
def Dn.addInst (s : Dn) (p : SiPtr) (x : SchInst) : Dn :=
  { s.setInst p x with
    oidId := Function.update (Function.update s.oidId (.si p) (-1)) (.dline p) (-1)
    sis := insert p s.sis
    siCount := s.siCount + 1
    cfg := { s.cfg with idleSi := s.cfg.idleSi + 1 } }

/-- The changes. -/
inductive Move : MoveKind → Dn → Dn → Prop
  /-- Tables, lists and the environment. -/
  | quiet {s t : Dn} : Quiet s t → (∀ sp, (t.schk sp).link = (s.schk sp).link) → Move .quiet s t
  /-- The configuration of links and flowsets. -/
  | conf {s t : Dn} : Quiet s t → Move .conf s t
  /-- The event heap. -/
  | heap {s t : Dn} {l : List Event} : Keeps s t → t.log = s.log ++ l → (∀ e ∈ l, e.isKey) →
      Move .heap s t
  /-- The counters of packets, and what is recorded. -/
  | note {s : Dn} (n m f : BitVec 64) {l : List Event} : (∀ e ∈ l, e.isNote) →
      Move .note s { s with
        ioPkt := n, ioPktFast := f, cfg := { s.cfg with ioPktDrop := m }, log := s.log ++ l }
  /-- The clock. -/
  | clock {s : Dn} (now : BitVec 64) (sum : ℤ) :
      Move .clock s { s with cfg := { s.cfg with currTime := now }, tickDeltaSum := sum }
  /-- The credit of an instance and the times that go with it. -/
  | credit {s : Dn} (p : SiPtr) (credit schedTime idleTime : BitVec 64) :
      Move .credit s (s.setInst p { s.inst p with
        credit := credit, schedTime := schedTime, idleTime := idleTime })
  /-- A new instance. -/
  | new {s : Dn} {p : SiPtr} {x : SchInst} : p ∉ s.sis → x.Fresh p → x.kind.Sound x.s →
      Move .new s (s.addInst p x)
  /-- An instance without queues in a table goes. -/
  | destroy {s t : Dn} {p : SiPtr} : p ∈ s.sis → (s.inst p).s.live = ∅ →
      (s.inst p).kind.Sound (s.inst p).s → siDestroy s p = some t → Move .destroy s t
  /-- A new queue. -/
  | newQueue {s t : Dn} {p : SiPtr} {q : QPtr} {fp : FskPtr} {id : FlowId} {u : Unit} :
      p ∈ s.sis → q ∉ (s.inst p).s.live → (s.inst p).kind.multiqueue = true →
      (s.inst p).kind.Sound (s.load (s.inst p)) →
      (s.setInst p ((s.inst p).name q fp id)).callback p
        (fun k t => (qNew k.desc t q (s.fsk fp).data).map fun t => ((), t)) = some (u, t) →
      Move .newQueue s t
  /-- A queue without packets goes, or stays if its scheduler says so. -/
  | delete {s t : Dn} {p : SiPtr} {q : QPtr} {safe b : Bool} : p ∈ s.sis →
      q ∈ (s.inst p).s.live → (s.inst p).kind.Sound (s.load (s.inst p)) →
      ((s.inst p).s.queue q).ni.length = 0 →
      s.callback p (fun k t => dnDeleteQueue k.desc t q true safe) = some (b, t) →
      Move .delete s t
  /-- A queue goes. -/
  | purge {s t : Dn} {p : SiPtr} {q : QPtr} {b : Bool} : p ∈ s.sis →
      q ∈ (s.inst p).s.live → (s.inst p).kind.Sound (s.load (s.inst p)) →
      s.callback p (fun k t => dnDeleteQueue k.desc t q true false) = some (b, t) →
      Move (.purge p) s t
  /-- A packet arrives. -/
  | enqueue {s t : Dn} {p : SiPtr} {q : QPtr} {m : Mbuf} {b : Bool} : p ∈ s.sis →
      q ∈ (s.inst p).queues → (s.inst p).kind.Sound (s.load (s.inst p)) →
      ¬ (s.inst p).s.isHead q m →
      s.callback p (fun k t => k.desc.enqueue t q m s.env.draws) = some (b, t) →
      Move .enqueue s t
  /-- The scheduler has no packet. -/
  | idle {s t : Dn} {p : SiPtr} : p ∈ s.sis → (s.inst p).kind.Sound (s.load (s.inst p)) →
      s.callback p (fun k t => k.desc.dequeue t) = some (none, t) → Move .idle s t
  /-- A packet goes from a queue to the delay line. -/
  | take {s t : Dn} {p : SiPtr} {m : Mbuf} : p ∈ s.sis →
      (s.inst p).kind.Sound (s.load (s.inst p)) →
      s.callback p (fun k t => k.desc.dequeue t) = some (some m, t) →
      Move .take s (moveToDline t p m)
  /-- The state of the instance in the event heap, and the times on its delay line. -/
  | line {s : Dn} (p : SiPtr) (active : Bool) (d : List DlPkt) :
      d.map DlPkt.m = (s.inst p).dline.map DlPkt.m →
      Move .line s (s.setInst p { s.inst p with dline := d, active := active })
  /-- Packets leave the delay line. -/
  | transmit {s : Dn} (q : List DlPkt) (p : SiPtr) (now : BitVec 64) : p ∈ s.sis →
      Move .transmit s (transmitEvent s q p now).2
  /-- The event heap is made new. -/
  | flush {s : Dn} {b : Bool} : s.sis = ∅ →
      Move .flush s { s with evheap := (heapInit b s.evheap 16 4).2 }

/-- A sequence of changes of the kinds in `A`. -/
def Path (A : Set MoveKind) : Dn → Dn → Prop :=
  Relation.ReflTransGen fun s t => ∃ k ∈ A, Move k s t

namespace Path

variable {A B : Set MoveKind} {s t u : Dn}

theorem refl (s : Dn) : Path A s s := Relation.ReflTransGen.refl

theorem trans (h : Path A s t) (h' : Path A t u) : Path A s u := Relation.ReflTransGen.trans h h'

theorem single {k : MoveKind} (h : Move k s t) (hk : k ∈ A) : Path A s t :=
  Relation.ReflTransGen.single ⟨k, hk, h⟩

theorem mono (h : Path A s t) (hA : A ⊆ B) : Path B s t :=
  Relation.ReflTransGen.mono (fun _ _ ⟨k, hk, hm⟩ => ⟨k, hA hk, hm⟩) _ _ h

/-- What every change of the kinds preserves, a path preserves. -/
theorem invariant {I : Dn → Prop} (h : Path A s t)
    (hI : ∀ {k s t}, k ∈ A → Move k s t → I s → I t) (hs : I s) : I t := by
  induction h with
  | refl => exact hs
  | tail _ hm ih =>
    obtain ⟨k, hk, hm⟩ := hm
    exact hI hk hm ih

end Path

/-- A path to a state that has a graph. -/
structure Goes (A : Set MoveKind) (F : Set FskPtr) (S : Set SchkPtr) (L : Option FskPtr)
    (s t : Dn) : Prop where
  graph : Graph F S L t
  path : Path A s t

end Dummynet
