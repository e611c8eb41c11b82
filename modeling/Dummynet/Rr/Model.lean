import Dummynet.Sched

/-!
# The round robin scheduler

The scheduler of `dn_sched_rr.c`: the queues with packets are in a ring, and the head of the ring
is served as long as its credit lasts. A queue without credit gets its quantum and the next queue
becomes the head; a queue without packets goes out of the ring when it is the head.

Credits and quanta are `int`, words of 32 bits. The comparison of a packet length, `uint64_t`,
with a credit extends the sign, so that a negative credit is larger than every length. Following
a null pointer has the result `none`, and so has a loop that does not end.

## Main definitions

* `RrSi`, `RrQueue`, `Rr`: the instance and its queues.
* `rrEnqueue`, `rrDequeue`, `rrNewQueue`, `rrFreeQueue`: the callbacks.
* `rrDesc`: the scheduler descriptor.
-/

namespace Dummynet

/-- `struct rr_queue` behind the common part. -/
structure RrQueue where
  status : ℤ := 0
  credit : BitVec 32 := 0
  quantum : BitVec 32 := 0
  qnext : Option QPtr := none

/-- `struct rr_si`. -/
structure RrSi where
  head : Option QPtr := none
  tail : Option QPtr := none

/-- A round robin instance with its queues. -/
abbrev Rr := Inst RrSi RrQueue

namespace Rr

/-- The field `qnext` of the queues. -/
def qnext (s : Rr) (q : QPtr) : Option QPtr := (s.ext q).qnext

/-- Changes the extension of a queue. -/
def modify (s : Rr) (q : QPtr) (f : RrQueue → RrQueue) : Rr :=
  { s with ext := Function.update s.ext q (f (s.ext q)) }

/-- Writes `qnext` of a queue. -/
def setNext (s : Rr) (q : QPtr) (n : Option QPtr) : Rr := modify s q fun x => { x with qnext := n }

/-- Writes `status` of a queue. -/
def setStatus (s : Rr) (q : QPtr) (status : ℤ) : Rr :=
  modify s q fun x => { x with status := status }

/-- Writes `credit` of a queue. -/
def setCredit (s : Rr) (q : QPtr) (credit : BitVec 32) : Rr :=
  modify s q fun x => { x with credit := credit }

/-- Writes both ends of the ring. -/
def setEnds (s : Rr) (head tail : Option QPtr) : Rr := { s with priv := ⟨head, tail⟩ }

end Rr

open Rr

/-- `rr_append`. -/
def rrAppend (s : Rr) (q : QPtr) : Option Rr :=
  let s := setStatus s q 1
  let s := setCredit s q (s.ext q).quantum
  match s.priv.head with
  | none => some (setNext (setEnds s (some q) (some q)) q (some q))
  | some h => s.priv.tail.map fun tail =>
    setNext (setEnds (setNext s tail (some q)) (some h) (some q)) q (some h)

/-- `rr_remove_head`. -/
def rrRemoveHead (s : Rr) : Option Rr :=
  match s.priv.head with
  | none => some s
  | some h =>
    let s := setStatus s h 0
    if s.priv.head = s.priv.tail then some (setEnds s none none)
    else s.priv.tail.map fun tail =>
      setNext (setEnds s (qnext s h) (some tail)) tail (qnext s h)

/-- `remove_queue_q`, the part that takes `q` out of the ring behind `prev`. -/
def unlink (s : Rr) (q prev : QPtr) : Rr :=
  let tail := if some q = s.priv.tail then some prev else s.priv.tail
  setStatus (setEnds (setNext s prev (qnext s q)) s.priv.head tail) q 0

/-- The loop of `remove_queue_q`, with `prev` as its variable. -/
def removeLoop : ℕ → Rr → QPtr → Option QPtr → Option Rr
  | 0, _, _, _ => none
  | _ + 1, s, _, none => some s
  | n + 1, s, q, some prev =>
    if qnext s prev ≠ some q then removeLoop n s q (qnext s prev) else some (unlink s q prev)

/-- `remove_queue_q`. A ring has as many elements as there are queues at most, and the loop ends
when it has seen them all. -/
def removeQueueQ (s : Rr) (q : QPtr) : Option Rr :=
  if (s.ext q).status ≠ 1 then some s
  else if s.priv.head = some q then rrRemoveHead s
  else removeLoop s.live.card s q s.priv.head

/-- `next_pointer`. -/
def nextPointer (s : Rr) : Option Rr :=
  match s.priv.head with
  | none => some s
  | some h => s.priv.tail.map fun tail => setEnds s (qnext s h) (qnext s tail)

/-- `rr_enqueue`. -/
def rrEnqueue (s : Rr) (q : QPtr) (m : Mbuf) (r : Draws) : Option (Bool × Rr) :=
  let activate := fun s : Rr =>
    if (s.ext q).status = 1 then some (false, s) else (rrAppend s q).map fun s => (false, s)
  if s.isHead q m then activate s
  else
    let (drop, s) := s.enqueue q m false r
    if drop then some (true, s)
    else if s.isHead q m then activate s
    else some (false, s)

/-- `len > credit`, a comparison of `uint64_t` with `int`. -/
def tooBig (m : Mbuf) (credit : BitVec 32) : Bool := (credit.signExtend 64).ult m.len64

/-- The loop of `rr_dequeue`. -/
def rrLoop : ℕ → Rr → Option (Option Mbuf × Rr)
  | 0, _ => none
  | n + 1, s =>
    match s.priv.head with
    | none => some (none, s)
    | some q =>
      match s.mq q with
      | [] => (rrRemoveHead s).bind (rrLoop n)
      | m :: _ =>
        let credit := (s.ext q).credit
        if tooBig m credit then
          -- the next queue, with more credit for this one
          (nextPointer (setCredit s q (credit + (s.ext q).quantum))).bind (rrLoop n)
        else some ((setCredit s q (credit - m.len64.setWidth 32)).dequeue q)

/-- `rr_dequeue`. A quantum is at least 1 and a packet shorter than `2 ^ 31` bytes, so that no
queue is passed over more often. -/
def rrDequeue (s : Rr) : Option (Option Mbuf × Rr) := rrLoop (2 ^ 31 * s.live.card + 1) s

/-- `rr_new_fsk`, with the bounds that `rr_config` sets. -/
def rrNewFsk (fs : DnFsk) : DnFsk :=
  let par := Function.update fs.fs.par 0 (ipdnBoundVar (fs.fs.par 0) 1 1 65536)
  let par := Function.update par 1 (ipdnBoundVar (fs.fs.par 1) 1500 64 2048)
  { fs with fs := { fs.fs with par := par } }

/-- `rr_new_queue`. -/
def rrNewQueue (s : Rr) (q : QPtr) : Option (ℕ × Rr) :=
  let quantum := BitVec.ofInt 32 (s.par q 0 * s.par q 1)
  let x := { s.ext q with quantum := quantum, credit := quantum, status := 0 }
  let s : Rr := { s with ext := Function.update s.ext q x }
  if s.mq q = [] then some (0, s) else (rrAppend s q).map fun s => (0, s)

/-- `rr_free_queue`: with `safe`, the answer is whether the queue is in the ring. -/
def rrFreeQueue (s : Rr) (q : QPtr) (safe : Bool) : Option (Bool × Rr) :=
  if safe then some (decide ((s.ext q).status ≠ 0), s)
  else if (s.ext q).status = 1 then (removeQueueQ s q).map fun s => (false, s)
  else some (false, s)

/-- `rr_desc`. -/
def rrDesc : DnAlg RrSi RrQueue where
  zeroExt := {}
  newFsk := rrNewFsk
  newQueue := rrNewQueue
  freeQueue := rrFreeQueue
  enqueue := rrEnqueue
  dequeue := rrDequeue

end Dummynet
