import Dummynet.System.Packet

/-!
# The timer and the steps of dummynet

The drain routines, which `dummynet_task` runs to collect idle queues and scheduler instances, the
timer handler itself, and dummynet as a machine.

The drain callbacks count the objects they examine with `*arg++`, which moves their copy of the
pointer and leaves the count at 0, so that no scan ever ends early.

## Main definitions

* `drainQueueCb`, `drainSchedulerCb`, `doDrain`: the drain routines.
* `dummynetTask`: the timer handler.
* `DnOp`, `Dn.step`, `Dn.init`: the operations, one step, and the state after `ip_dn_init`.
-/

namespace Dummynet

/-- An object became idle long ago: `t < curr_time - object_idle_tick`. -/
def Dn.expired (s : Dn) (t : BitVec 64) : Bool :=
  t.ult (s.currTime - s.parms.objectIdleTick.setWidth 64)

/-! ### Queues -/

/-- `drain_queue_cb`, and the removal of a queue that was deleted. -/
def drainQueueCb (fp : FskPtr) (s : Dn) (a : QAddr) : Option Dn :=
  let q := (s.inst a.si).s.queue a.q
  if q.ni.length = 0 then
    if s.expired q.qTime then do
      let (kept, s) ← deleteQueue s a true
      let f := s.fsk fp
      pure (if kept then s else s.setFsk fp { f with qht := f.qht.remove a })
    else some { s with idleQueueWait := s.idleQueueWait + 1 }
  else some s

/-- `drain_queue_fs_cb`. -/
def drainQueueFsCb (s : Dn) (fp : FskPtr) : Option Dn :=
  let f := s.fsk fp
  if f.data.fs.flags &&& dnQhtHash ≠ 0 then
    match f.qht with
    | .null => some s
    | .one _ => none
    | .table ht =>
      let i := ht.scanBucket f.drainBucket
      (ht.chain i).foldlM (drainQueueCb fp)
        (s.setFsk fp { f with drainBucket := BitVec.ofNat 32 (i + 1) })
  else
    match f.qht with
    | .null => some s
    | .one a => drainQueueCb fp s a
    | .table _ => none

/-- `dn_drain_queue`. -/
def dnDrainQueue (s : Dn) : Option Dn :=
  match s.fshash with
  | none => some s
  | some ht =>
    let i := ht.scanBucket s.drainFs
    (ht.chain i).foldlM drainQueueFsCb { s with drainFs := BitVec.ofNat 32 (i + 1) }

/-! ### Scheduler instances -/

/-- `drain_scheduler_cb`, and the removal of an instance that was destroyed. -/
def drainSchedulerCb (sp : SchkPtr) (s : Dn) (p : SiPtr) : Option Dn :=
  let x := s.inst p
  if x.active || !x.dline.isEmpty then some s
  else if x.s.ni.length = 0 then
    if (x.kind.multiqueue → x.s.qCount = 0) ∧ s.expired x.idleTime then do
      let s ← siDestroy s p
      let sch := s.schk sp
      pure (s.setSchk sp { sch with siht := sch.siht.remove p })
    else some { s with idleSiWait := s.idleSiWait + 1 }
  else some s

/-- `drain_scheduler_sch_cb`. -/
def drainSchedulerSchCb (s : Dn) (sp : SchkPtr) : Option Dn :=
  let sch := s.schk sp
  if sch.sch.flags &&& dnHaveMask ≠ 0 then
    match sch.siht with
    | .null => some s
    | .one _ => none
    | .table ht =>
      let i := ht.scanBucket sch.drainBucket
      (ht.chain i).foldlM (drainSchedulerCb sp)
        (s.setSchk sp { sch with drainBucket := BitVec.ofNat 32 (i + 1) })
  else
    match sch.siht with
    | .null => some s
    | .one p => drainSchedulerCb sp s p
    | .table _ => none

/-- `dn_drain_scheduler`. -/
def dnDrainScheduler (s : Dn) : Option Dn :=
  match s.schedhash with
  | none => some s
  | some ht =>
    let i := ht.scanBucket s.drainSch
    (ht.chain i).foldlM drainSchedulerSchCb { s with drainSch := BitVec.ofNat 32 (i + 1) }

/-! ### The timer -/

/-- The loop of `do_drain`, for at most `n` cycles. The numbers of idle objects are compared with
the threshold as unsigned numbers. -/
def drainLoop : ℕ → Dn → Option Dn
  | 0, s => some s
  | n + 1, s => do
    let queues := s.parms.expireObject.ult (BitVec.ofInt 32 s.cfg.idleQueue) ∧
      s.idleQueueWait < s.cfg.idleQueue
    let s ← if queues then dnDrainQueue s else some s
    let insts := s.parms.expireObject.ult (BitVec.ofInt 32 s.cfg.idleSi) ∧
      s.idleSiWait < s.cfg.idleSi
    let s ← if insts then dnDrainScheduler s else some s
    if queues ∨ insts then drainLoop n s else pure s

/-- `do_drain`. -/
def doDrain (s : Dn) : Option Dn :=
  if s.parms.expire = 0 then some s
  else
    let s := { s with expireCycle := s.expireCycle + 1 }
    if s.expireCycle.ult s.parms.expire then some s
    else drainLoop (s.env.drainCycles + 1)
      { s with expireCycle := 0, idleQueueWait := 0, idleSiWait := 0 }

/-- `dummynet_task`. -/
def dummynetTask (s : Dn) : Option Dn := do
  let s ← taskTime s
  -- an event that is handled comes back later than now, so that every event is handled once
  let (q, s) ← taskLoop (s.evheap.elements + 1) s []
  let s ← doDrain s
  pure (dummynetSend s q)

/-! ### The machine -/

/-- What can happen: a packet arrives, the timer runs, a configuration message arrives, the
parameters are set. -/
inductive DnOp
  | io (a : IoArgs) (env : Env)
  | task (env : Env)
  | config (os : List DnObj) (l : ℕ) (env : Env)
  | sysctl (parms : DnParms)

/-- One operation. The output is what it did. -/
def Dn.step (s : Dn) (op : DnOp) : Option (List Event × Dn) :=
  let s := { s with log := [] }
  (match op with
    | .io a env => (dummynetIo { s with env := env } a).map Prod.snd
    | .task env => dummynetTask { s with env := env }
    | .config os l env => (doConfig { s with env := env } os l).map Prod.snd
    | .sysctl parms => some { s with parms := { parms with hz := s.parms.hz, tick := s.parms.tick } }
    : Option Dn).map fun s => (s.log, s)

/-- The state after `ip_dn_init`, with the schedulers that are loaded. -/
def Dn.init (parms : DnParms) (schedlist : List SchedType) : Dn where
  cfg := {}
  parms := parms
  id := 0
  schkCount := 0
  siCount := 0
  fskCount := 0
  evheap := (heapInit true ⟨0, 0, 0, fun _ => ⟨0, .si 0⟩⟩ 16 4).2
  oidId := fun _ => 0
  fshash := none
  schedhash := none
  fsu := []
  schedlist := schedlist
  idleQueueWait := 0
  idleSiWait := 0
  expireCycle := 0
  drainFs := 0
  drainSch := 0
  tickDeltaSum := 0
  ioPkt := 0
  ioPktFast := 0
  fsk := fun _ => {}
  schk := fun _ => {}
  inst := fun _ => .zero .fifo
  sis := ∅
  tags := fun _ => ⟨0, 0⟩
  brk := 1
  env := {}
  log := []

end Dummynet
