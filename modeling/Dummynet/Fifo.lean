import Dummynet.Sched

/-!
# The FIFO scheduler

The scheduler of `dn_sched_fifo.c`: a single queue, which is part of the scheduler instance and
does not go through `q_new`.

## Main definitions

* `fifoQueue`: the address of the queue in the instance.
* `fifoEnqueue`, `fifoDequeue`, `fifoDesc`: the callbacks.
-/

namespace Dummynet

/-- A FIFO instance. It keeps nothing but its queue. -/
abbrev Fifo := Inst Unit Unit

/-- The address of the queue behind the instance, `(struct dn_queue *)(si + 1)`. -/
def fifoQueue : QPtr := 0

/-- `fifo_enqueue`. The queue that the caller names is ignored. -/
def fifoEnqueue (s : Fifo) (_q : QPtr) (m : Mbuf) (r : Draws) : Option (Bool × Fifo) :=
  some (s.enqueue fifoQueue m false r)

/-- `fifo_dequeue`. -/
def fifoDequeue (s : Fifo) : Option (Option Mbuf × Fifo) := some (s.dequeue fifoQueue)

/-- `fifo_desc`. There are no callbacks for flowsets and queues. -/
def fifoDesc : DnAlg Unit Unit where
  zeroExt := ()
  newFsk := id
  newQueue := fun s _ => some (0, s)
  freeQueue := fun s _ _ => some (false, s)
  enqueue := fifoEnqueue
  dequeue := fifoDequeue

end Dummynet
