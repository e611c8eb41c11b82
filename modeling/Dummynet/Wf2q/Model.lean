import Dummynet.Heap
import Dummynet.Sched

/-!
# The WF2Q+ scheduler

The scheduler of `dn_sched_wf2q.c`: every queue has a start time `S` and a finish time `F`, the
instance a virtual time `V`, and the queues with packets or valid timestamps are in one of three
heaps. `sch` holds the backlogged queues that are eligible, `S ≤ V`, keyed by `F`; `ne` the other
backlogged queues, keyed by `S`; and `idle` the queues without packets that still count for the
sum of the weights, keyed by `F`.

Timestamps are 64-bit words compared with `DN_KEY_LT` and `MAX64`, weights and their inverses
32-bit words. Memory for the heaps is always found. A function that can panic, divide by zero or
follow a null pointer has its result in `Option`.

## Main definitions

* `Wf2qpSi`, `Wf2qpQueue`, `Wf2qp`: the private data of the instance and of a queue.
* `wf2qpEnqueue`, `wf2qpDequeue`, `wf2qpNewQueue`, `wf2qpFreeQueue`: the callbacks.
* `wf2qpDesc`: the scheduler descriptor.
-/

namespace Dummynet

/-- `FRAC_BITS`. -/
def fracBits : ℕ := 28

/-- `ONE_FP`. -/
def oneFP : ℕ := 2 ^ fracBits

/-- The three heaps of an instance. -/
inductive WHeap
  | sch
  | ne
  | idle
deriving DecidableEq

/-- `struct wf2qp_si`. -/
structure Wf2qpSi where
  heap : WHeap → DnHeap QPtr
  V : BitVec 64 := 0
  invWsum : BitVec 32 := 0
  wsum : BitVec 32 := 0

/-- `struct wf2qp_queue` behind the common part. -/
structure Wf2qpQueue where
  S : BitVec 64 := 0
  F : BitVec 64 := 0
  invW : BitVec 32 := 0
  heapPos : ℤ := 0

/-- A WF2Q+ instance with its queues. -/
abbrev Wf2qp := Inst Wf2qpSi Wf2qpQueue

/-- `MAX64`. -/
def max64 (x y : BitVec 64) : BitVec 64 := if 0 < (y - x).toInt then y else x

/-- `ONE_FP / w` as `uint32_t`. -/
def invWeight (w : BitVec 32) : BitVec 32 := BitVec.ofNat 32 (oneFP / w.toNat)

namespace Wf2qp

/-- The number of entries of a heap. -/
def elements (s : Wf2qp) (w : WHeap) : ℕ := (s.priv.heap w).elements

/-- The field `heap_pos` of the queues. -/
def heapPos (s : Wf2qp) (q : QPtr) : ℤ := (s.ext q).heapPos

/-- Writes a heap and the positions that its queues record. -/
def setHeap (s : Wf2qp) (w : WHeap) (h : DnHeap QPtr) (pos : QPtr → ℤ) : Wf2qp :=
  { s with
    priv := { s.priv with heap := Function.update s.priv.heap w h }
    ext := fun q => { s.ext q with heapPos := pos q } }

/-- `heap_insert`, when memory is found. -/
def insertIn (s : Wf2qp) (w : WHeap) (key : BitVec 64) (q : QPtr) : Wf2qp :=
  let (_, h, pos) := heapInsert true (s.priv.heap w) s.heapPos key q
  setHeap s w h pos

/-- `heap_extract`. -/
def extractFrom (s : Wf2qp) (w : WHeap) (q : Option QPtr) : Option Wf2qp :=
  (heapExtract (s.priv.heap w) s.heapPos q).map fun r => setHeap s w r.1 r.2

/-- Writes the timestamps of a queue. -/
def setTimes (s : Wf2qp) (q : QPtr) (S F : BitVec 64) : Wf2qp :=
  { s with ext := Function.update s.ext q { s.ext q with S := S, F := F } }

/-- Writes the virtual time. -/
def setV (s : Wf2qp) (V : BitVec 64) : Wf2qp := { s with priv := { s.priv with V := V } }

/-- The weight of a queue as `uint32_t`. -/
def weight (s : Wf2qp) (q : QPtr) : BitVec 32 := BitVec.ofInt 32 (s.par q 0)

/-- Takes the weight of a queue out of the sum, and computes the inverse unless the sum is 0. -/
def subWeight (s : Wf2qp) (q : QPtr) : Wf2qp :=
  let wsum := s.priv.wsum - weight s q
  { s with priv := { s.priv with
      wsum := wsum
      invWsum := if 0 < wsum.toNat then invWeight wsum else s.priv.invWsum } }

/-- Adds the weight of a queue to the sum and computes the inverse; a sum of 0 is divided by. -/
def addWeight (s : Wf2qp) (q : QPtr) : Option Wf2qp :=
  let wsum := s.priv.wsum + weight s q
  if wsum = 0 then none
  else some { s with priv := { s.priv with wsum := wsum, invWsum := invWeight wsum } }

end Wf2qp

open Wf2qp

/-- `idle_check`: takes at most `n` queues out of the idle heap, those with `F` before `V` or,
with `force`, all. -/
def idleCheck : ℕ → Wf2qp → Bool → Option Wf2qp
  | 0, s, _ => some s
  | n + 1, s, force =>
    let h := s.priv.heap .idle
    if 0 < h.elements ∧ (force ∨ keyLT h.topKey s.priv.V) then
      let q := h.topObject
      (extractFrom s .idle none).bind fun s =>
        let F := (s.ext q).F
        idleCheck n (subWeight (setTimes s q (F + 1) F) q) force
    else some s

/-- `wf2qp_enqueue`, the part for a queue that was idle: the new timestamps. -/
def restamp (s : Wf2qp) (q : QPtr) (len : BitVec 64) : Option Wf2qp :=
  let F := (s.ext q).F
  let started := if keyLT F (s.ext q).S then
      (addWeight s q).map fun t => (t, s.priv.V)
    else
      (extractFrom s .idle (some q)).map fun t => (t, max64 F s.priv.V)
  started.map fun (t, S) => setTimes t q S (S + len * (s.ext q).invW.setWidth 64)

/-- `wf2qp_enqueue`, the part for a queue that was idle: `V` if nothing else is backlogged, and
the heap for the queue. -/
def place (s : Wf2qp) (q : QPtr) : Wf2qp :=
  let S := (s.ext q).S
  let s := if elements s .ne = 0 ∧ elements s .sch = 0 then setV s (max64 S s.priv.V) else s
  if keyLT s.priv.V S then insertIn s .ne S q else insertIn s .sch (s.ext q).F q

/-- `wf2qp_enqueue`. A packet that is already at the head of the queue, as for a new queue with
packets, only needs the scheduling. -/
def wf2qpEnqueue (s : Wf2qp) (q : QPtr) (m : Mbuf) (r : Draws) : Option (Bool × Wf2qp) :=
  let activate := fun s : Wf2qp => (restamp s q m.len64).map fun s => (false, place s q)
  if s.isHead q m then activate s
  else
    let (drop, s) := s.enqueue q m false r
    if drop then some (true, s)
    else if s.isHead q m then activate s
    else some (false, s)

/-- `wf2qp_dequeue`: `V` moves up to the smallest `S` if no queue is eligible. -/
def raiseV (s : Wf2qp) : Wf2qp :=
  if elements s .sch = 0 ∧ 0 < elements s .ne then
    setV s (max64 s.priv.V (s.priv.heap .ne).topKey)
  else s

/-- `wf2qp_dequeue`: the queues that have become eligible move to `sch`. Every round takes one
out of `ne`, so that its number of entries is enough. -/
def moveEligible : ℕ → Wf2qp → Option Wf2qp
  | 0, s => some s
  | n + 1, s =>
    if 0 < elements s .ne ∧ keyLEQ (s.priv.heap .ne).topKey s.priv.V then
      let q := (s.priv.heap .ne).topObject
      (extractFrom s .ne none).bind fun s => moveEligible n (insertIn s .sch (s.ext q).F q)
    else some s

/-- The part of the loop in `wf2qp_dequeue` that runs before and after the packet is taken. -/
def settle (s : Wf2qp) : Option Wf2qp :=
  let s := raiseV s
  moveEligible (elements s .ne) s

/-- The queue that was served gets its next timestamps and goes to a heap. -/
def requeue (s : Wf2qp) (q : QPtr) : Wf2qp :=
  let F := (s.ext q).F
  match s.mq q with
  | [] => insertIn (setTimes s q F F) .idle F q
  | m :: _ =>
    let s := setTimes s q F (F + m.len64 * (s.ext q).invW.setWidth 64)
    if keyLEQ F s.priv.V then insertIn s .sch (s.ext q).F q else insertIn s .ne F q

/-- The part of the loop in `wf2qp_dequeue` that takes the packet from the queue with the
smallest `F`. -/
def serve (s : Wf2qp) : Option (Mbuf × Wf2qp) :=
  let q := (s.priv.heap .sch).topObject
  match s.dequeue q with
  | (none, _) => none
  | (some m, s) =>
    (extractFrom s .sch none).map fun s =>
      (m, requeue (setV s (s.priv.V + m.len64 * s.priv.invWsum.setWidth 64)) q)

/-- `wf2qp_dequeue`. With nothing backlogged the idle heap is drained and the clock restarts. -/
def wf2qpDequeue (s : Wf2qp) : Option (Option Mbuf × Wf2qp) :=
  if elements s .sch = 0 ∧ elements s .ne = 0 then
    (idleCheck 0x7fffffff s true).map fun s =>
      (none, { s with priv := { s.priv with V := 0, wsum := 0 } })
  else
    (idleCheck 1 s false).bind fun s => (settle s).bind fun s => (serve s).bind fun r =>
      (settle r.2).map fun s => (some r.1, s)

/-- `wf2qp_new_sched`: three empty heaps with positions. -/
def wf2qpNewSched : Wf2qpSi :=
  let zero : DnHeap QPtr := ⟨0, 0, 0, fun _ => ⟨0, 0⟩⟩
  { heap := fun _ => (heapInit true zero 16 1).2 }

/-- `wf2qp_new_fsk`: the weight is between 1 and 100. -/
def wf2qpNewFsk (fs : DnFsk) : DnFsk :=
  { fs with fs := { fs.fs with
      par := Function.update fs.fs.par 0 (ipdnBoundVar (fs.fs.par 0) 1 1 100) } }

/-- `wf2qp_new_queue`. -/
def wf2qpNewQueue (s : Wf2qp) (q : QPtr) : Option (ℕ × Wf2qp) :=
  if weight s q = 0 then none
  else
    let x := { s.ext q with S := 1, F := 0, invW := invWeight (weight s q) }
    let s := { s with ext := Function.update s.ext q x }
    match s.mq q with
    | [] => some (0, s)
    | m :: _ => (wf2qpEnqueue s q m {}).map fun r => (0, r.2)

/-- `wf2qp_free_queue`: a queue with valid timestamps is in a heap and goes out of it, unless
`safe` asks to keep it. -/
def wf2qpFreeQueue (s : Wf2qp) (q : QPtr) (safe : Bool) : Option (Bool × Wf2qp) :=
  if (s.ext q).F + 1 ≤ (s.ext q).S then some (false, s)
  else if safe then some (true, s)
  else
    let s := subWeight s q
    let w : WHeap :=
      if s.mq q = [] then .idle else if keyLT s.priv.V (s.ext q).S then .ne else .sch
    (extractFrom s w (some q)).map fun s => (false, s)

/-- `wf2qp_desc`. -/
def wf2qpDesc : DnAlg Wf2qpSi Wf2qpQueue where
  zeroExt := {}
  newFsk := wf2qpNewFsk
  newQueue := wf2qpNewQueue
  freeQueue := wf2qpFreeQueue
  enqueue := wf2qpEnqueue
  dequeue := wf2qpDequeue

end Dummynet
