import Dummynet.System.State

/-!
# Schedulers, flowsets, instances and queues

The part of `ip_dummynet.c` that creates and destroys the objects of dummynet.

A function has the result `none` where the code follows a null pointer or panics.

## Main definitions

* `siNew`, `ipdnSiFind`, `siDestroy`: scheduler instances.
* `qNewAt`, `ipdnQFind`, `deleteQueue`, `qhtDelete`: queues.
* `fskNew`, `fskDetach`, `fskDetachList`, `deleteFs`: flowsets.
* `schkNew`, `schkDeleteCb`, `deleteSchk`: schedulers.
-/

namespace Dummynet

/-- `heap_insert` on the event heap, whose failure goes unnoticed. -/
def Dn.evInsert (s : Dn) (k : BitVec 64) (o : EvObj) : Dn :=
  let (ok, s) := s.malloc
  let (_, h, pos) := heapInsert ok s.evheap s.oidId k o
  { s with evheap := h, oidId := pos }.emit (.key k)

/-- `heap_extract` on the event heap. -/
def Dn.evExtract (s : Dn) (o : Option EvObj) : Option Dn :=
  (heapExtract s.evheap s.oidId o).map fun r => { s with evheap := r.1, oidId := r.2 }

/-- `heap_extract` on the event heap for an object that is there if its flag says so. -/
def Dn.evExtractIf (s : Dn) (flag : Bool) (o : EvObj) : Option Dn :=
  if flag then s.evExtract (some o) else some s

/-! ### Scheduler instances -/

/-- `si_reset_credit`. -/
def siResetCredit (s : Dn) (p : SiPtr) : Dn :=
  let x := s.inst p
  let link := (s.schk x.sched).link
  s.setInst p { x with
    idleTime := s.currTime
    credit := link.burst + if s.parms.ioFast then link.bandwidth.signExtend 64 else 0 }

/-- The fields of a new instance, with what the callback `new_sched` sets. -/
def SchInst.init (s : Dn) (p : SiPtr) (sp : SchkPtr) (kind : SchedType) (key : FlowId) : SchInst :=
  let x := SchInst.zero kind
  let sch := s.schk sp
  let x := { x with
    sched := sp
    s := { x.s with si := p }
    fid := if sch.sch.flags &&& dnHaveMask ≠ 0 then key else {} }
  -- `fifo_new_sched`
  if kind = .fifo then
    { x with
      s := { x.s with queue := Function.update x.s.queue fifoQueue { si := some p } }
      qfs := Function.update x.qfs fifoQueue sch.fs }
  else x

/-- `si_new`. The result is null if `malloc` fails, also in `wf2qp_new_sched`. -/
def siNew (s : Dn) (sp : SchkPtr) (key : FlowId) : Option (Option SiPtr × Dn) := do
  let kind ← (s.schk sp).fp
  let (ok, s) := s.malloc
  if !ok then pure (none, s)
  else
    let (heaps, s) := if kind = .wf2qp then s.malloc else (true, s)
    if !heaps then pure (none, s)
    else
      let (p, s) := s.alloc
      let s := s.setInst p (SchInst.init s p sp kind key)
      let s := siResetCredit s p
      pure (some p, { s with
        oidId := Function.update (Function.update s.oidId (.si p) (-1)) (.dline p) (-1)
        sis := insert p s.sis
        siCount := s.siCount + 1
        cfg := { s.cfg with idleSi := s.cfg.idleSi + 1 } })

/-- `ipdn_si_find`. -/
def ipdnSiFind (s : Dn) (sp : SchkPtr) (id : FlowId) : Option (Option SiPtr × Dn) :=
  let sch := s.schk sp
  if sch.sch.flags &&& dnHaveMask ≠ 0 then
    let id := flowIdMask sch.sch.schedMask id
    match sch.siht with
    | .table ht =>
      match ht.find (flowIdHash id) fun p => flowIdCmp (s.inst p).fid id with
      | some p => some (some p, s)
      | none => do
        let (p, s) ← siNew s sp id
        match p with
        | none => pure (none, s)
        | some p =>
          let sch := s.schk sp
          pure (some p, s.setSchk sp { sch with siht := .table (ht.insert (flowIdHash id) p) })
    | _ => none
  else
    match sch.siht with
    | .one p => some (some p, s)
    | .null => do
      let (p, s) ← siNew s sp {}
      let sch := s.schk sp
      pure (p, s.setSchk sp { sch with siht := p.elim .null .one })
    | .table _ => none

/-- The memory of an instance after `si_destroy`, without the queues that `q_new` made. -/
def SchInst.freed (x : SchInst) : SchInst :=
  let z := SchInst.zero x.kind
  { z with
    s := { z.s with
      queue := Function.update x.s.queue fifoQueue {}
      ext := x.s.ext
      live := x.s.live }
    qfs := x.qfs
    qfid := x.qfid }

/-- The number of idle instances without the instance `x`. -/
def SchInst.uncount (x : SchInst) (s : Dn) : Dn :=
  { s with cfg := { s.cfg with
      idleSi := if x.s.ni.length = 0 then s.cfg.idleSi - 1 else s.cfg.idleSi } }

/-- `si_destroy`. With the instance go the packets on its delay line and those of a queue that is
part of it. -/
def siDestroy (s : Dn) (p : SiPtr) : Option Dn := do
  let x := s.inst p
  let s ← s.evExtractIf x.dlineSubtype (.dline p)
  let s ← (x.uncount s).evExtractIf x.active (.si p)
  pure { s.setInst p x.freed with sis := s.sis.erase p, siCount := s.siCount - 1 }

/-- `dn_ht_scan` of `siht` with `si_destroy`. -/
def siDestroyAll (s : Dn) (sp : SchkPtr) : List SiPtr → Option Dn
  | [] => some s
  | p :: ps => do
    let s ← siDestroy s p
    let sch := s.schk sp
    siDestroyAll (s.setSchk sp { sch with siht := sch.siht.remove p }) sp ps

/-- `schk_reset_credit`. -/
def schkResetCredit (s : Dn) (sp : SchkPtr) : Dn := (s.schk sp).siht.list.foldl siResetCredit s

/-! ### Queues -/

/-- `q_new`: a queue of the flowset `fp`, for the flow id `key` if the flowset has a hash table.
The template on the stack of the caller has no flow id. -/
def qNewAt (s : Dn) (fp : FskPtr) (key : FlowId) : Option (Option QAddr × Dn) := do
  let sp ← (s.fsk fp).sched
  let (ok, s) := s.malloc
  if !ok then pure (none, s)
  else
    let (p, s) ← ipdnSiFind s sp s.env.stack
    match p with
    | none => pure (none, s)
    | some p =>
      let (q, s) := s.alloc
      let f := s.fsk fp
      let x := s.inst p
      let s := s.setInst p { x with
        qfs := Function.update x.qfs q (some fp)
        qfid := Function.update x.qfid q (if f.data.fs.flags &&& dnQhtHash ≠ 0 then key else {}) }
      let (_, s) ← s.callback p fun k t => (qNew k.desc t q f.data).map fun t => ((), t)
      pure (some ⟨p, q⟩, s)

/-- The hash table of a flowset, which is made for the first packet. -/
def qhtTable (s : Dn) (fp : FskPtr) : Option (Option (DnHt QAddr) × Dn) :=
  let f := s.fsk fp
  match f.qht with
  | .table ht => some (some ht, s)
  | .null =>
    let (ok, s) := s.malloc
    match dnHtInit ok f.head.buckets.toInt with
    | none => some (none, s)
    | some ht => some (some ht, s.setFsk fp { f with qht := .table ht })
  | .one _ => none

/-- `ipdn_q_find`. -/
def ipdnQFind (s : Dn) (fp : FskPtr) (id : FlowId) : Option (Option QAddr × Dn) :=
  let f := s.fsk fp
  if f.data.fs.flags &&& dnQhtHash ≠ 0 then do
    let (ht, s) ← qhtTable s fp
    match ht with
    | none => pure (none, s)
    | some ht =>
      let id := flowIdMask f.fskMask id
      match ht.find (flowIdHash id) fun a => flowIdCmp ((s.inst a.si).qfid a.q) id with
      | some a => pure (some a, s)
      | none =>
        let (a, s) ← qNewAt s fp id
        match a with
        | none => pure (none, s)
        | some a =>
          pure (some a, s.setFsk fp { s.fsk fp with qht := .table (ht.insert (flowIdHash id) a) })
  else
    match f.qht with
    | .one a => some (some a, s)
    | .null => do
      let (a, s) ← qNewAt s fp {}
      pure (a, s.setFsk fp { s.fsk fp with qht := a.elim .null .one })
    | .table _ => none

/-- `dn_delete_queue` with `DN_DESTROY`, and with `DN_DEL_SAFE` if `safe`. The result is `true`
when the queue is not deleted. -/
def deleteQueue (s : Dn) (a : QAddr) (safe : Bool) : Option (Bool × Dn) := do
  let fp ← (s.inst a.si).qfs a.q
  let _ ← (s.fsk fp).sched
  s.callback a.si fun k t => dnDeleteQueue k.desc t a.q true safe

/-- `q_delete_cb` on the queues of a flowset. -/
def qDeleteAll (s : Dn) (fp : FskPtr) : List QAddr → Option Dn
  | [] => some s
  | a :: as => do
    let (_, s) ← deleteQueue s a false
    qDeleteAll (s.setFsk fp { s.fsk fp with qht := (s.fsk fp).qht.remove a }) fp as

/-- `qht_delete`. Every caller asks for `DN_DESTROY`. -/
def qhtDelete (s : Dn) (fp : FskPtr) : Option Dn := do
  let f := s.fsk fp
  let s ← match f.qht with
    | .null => some s
    | .one a => if f.data.fs.flags &&& dnQhtHash = 0 then qDeleteAll s fp [a] else none
    | .table ht =>
      if f.data.fs.flags &&& dnQhtHash ≠ 0 then qDeleteAll s fp ht.ordered else none
  pure (s.setFsk fp { s.fsk fp with qht := .null })

/-! ### Flowsets -/

/-- The list that holds a flowset: the one of its scheduler, or `fsu`. -/
def Dn.fskList (s : Dn) : Option SchkPtr → List FskPtr
  | none => s.fsu
  | some sp => (s.schk sp).fskList

/-- Writes a list of flowsets. -/
def Dn.setFskList (s : Dn) (l : List FskPtr) : Option SchkPtr → Dn
  | none => { s with fsu := l }
  | some sp => s.setSchk sp { s.schk sp with fskList := l }

/-- `fsk_hash` and `schk_hash`. -/
def nrHash (i : BitVec 32) : BitVec 32 := i >>> 8 ^^^ i >>> 4 ^^^ i

/-- `dn_ht_find` in `fshash` with a flowset number. -/
def Dn.findFs (s : Dn) (i : BitVec 32) : Option FskPtr :=
  dnHtFind s.fshash (nrHash i) fun fp => decide ((s.fsk fp).head.fsNr = i)

/-- `dn_ht_find` in `schedhash` with a scheduler number, `locate_scheduler`. -/
def Dn.findSched (s : Dn) (i : BitVec 32) : Option SchkPtr :=
  dnHtFind s.schedhash (nrHash i) fun sp => decide ((s.schk sp).sch.schedNr = i)

/-- `fsk_new`. -/
def fskNew (s : Dn) : Option FskPtr × Dn :=
  let (ok, s) := s.malloc
  if ok then
    let (fp, s) := s.alloc
    let s := s.setFsk fp { head := { oid := { type := 2, len := sizeofFs } } }
    (some fp, { s with fskCount := s.fskCount + 1, fsu := fp :: s.fsu })
  else (none, s)

/-- `SLIST_REMOVE` from the list of the scheduler or from `fsu`. A flowset that is not on the list
makes it run off the end. -/
def fskUnlist (s : Dn) (fp : FskPtr) : Option Dn :=
  let l := s.fskList (s.fsk fp).sched
  if fp ∈ l then some (s.setFskList (l.erase fp) (s.fsk fp).sched) else none

/-- `fsk_detach` after the removal from the list. Every caller asks for `DN_DESTROY`, and no
scheduler has the callback `free_fsk`. -/
def fskDetach (s : Dn) (fp : FskPtr) (deleteFs : Bool) : Option Dn := do
  let f := s.fsk fp
  let s := s.setFsk fp { f with data := { f.data with wQLookup := fun _ => 0 } }
  let s ← qhtDelete s fp
  let s := s.setFsk fp { s.fsk fp with sched := none }
  if deleteFs then pure { s.setFsk fp {} with fskCount := s.fskCount - 1 }
  else pure { s with fsu := fp :: s.fsu }

/-- `fsk_detach_list` on the list of a scheduler. -/
def fskDetachList (s : Dn) (sp : SchkPtr) : List FskPtr → Option Dn
  | [] => some s
  | fp :: fps => do
    let s ← fskDetach (s.setFskList fps (some sp)) fp false
    fskDetachList s sp fps

/-- `fsk_detach_list` on `fsu` with `DN_DELETE_FS`. -/
def fskDeleteList (s : Dn) : List FskPtr → Option Dn
  | [] => some s
  | fp :: fps => do
    let s ← fskDetach { s with fsu := fps } fp true
    fskDeleteList s fps

/-- `dn_ht_find` with `DNHT_REMOVE`, and the end of a table that is empty. -/
def dnHtDrop (ht : Option (DnHt ℕ)) (o : Option ℕ) : Option (DnHt ℕ) :=
  let ht := match o with
    | none => ht
    | some o => ht.map fun ht => ht.remove o
  if dnHtEntries ht = 0 then none else ht

/-- `delete_fs`. -/
def deleteFs (s : Dn) (i : BitVec 32) : Option (ℕ × Dn) :=
  let fp := s.findFs i
  let s := { s with fshash := dnHtDrop s.fshash fp }
  match fp with
  | none => some (einval, s)
  | some fp => do
    let s ← fskUnlist s fp
    let s ← fskDetach s fp true
    pure (0, s)

/-! ### Schedulers -/

/-- `schk_new`. The field `fp` stays null to mark a new scheduler. -/
def schkNew (s : Dn) (sch : DnSch) : Option SchkPtr × Dn :=
  let (ok, s) := s.malloc
  if !ok then (none, s)
  else
    let (sp, s) := s.alloc
    let x : Schk := {
      sch := sch
      link := { oid := { type := 1, len := sizeofLink }, linkNr := sch.schedNr } }
    if sch.flags &&& dnHaveMask ≠ 0 then
      let (ok, s) := s.malloc
      match dnHtInit ok sch.buckets.toInt with
      | none => (none, s)
      | some ht =>
        (some sp, { s.setSchk sp { x with siht := .table ht } with schkCount := s.schkCount + 1 })
    else (some sp, { s.setSchk sp x with schkCount := s.schkCount + 1 })

/-- `schk_delete_cb` with `DN_DESTROY` or `DN_DELETE_FS`. -/
def schkDeleteCb (s : Dn) (sp : SchkPtr) : Option Dn := do
  let s ← fskDetachList s sp (s.schk sp).fskList
  let s ← siDestroyAll s sp (s.schk sp).siht.list
  let _ ← (s.schk sp).fp
  pure { s.setSchk sp {} with schkCount := s.schkCount - 1 }

/-- `delete_schk`. -/
def deleteSchk (s : Dn) (i : BitVec 32) : Option (ℕ × Dn) :=
  let sp := s.findSched i
  let s := { s with schedhash := dnHtDrop s.schedhash sp }
  match sp with
  | none => some (einval, s)
  | some sp => do
    let (_, s) ← deleteFs s (i + dnMaxId)
    let s ← schkDeleteCb s sp
    pure (0, s)

end Dummynet
