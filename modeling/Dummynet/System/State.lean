import Dummynet.Alg
import Dummynet.System.Flow

/-!
# The state of dummynet

The objects of `ip_dn_private.h`, schedulers with their links, flowsets, scheduler instances with
their delay lines, and the global data `dn_cfg` with the tables and lists that hold them.

Objects are named by addresses, and an address is not used again. The memory of an object that
was freed is zero, as `bzero` leaves it just before `free`. What the environment provides during
one call, results of `malloc`, random numbers and the clock, is part of the state.

## Main definitions

* `Fsk`, `Schk`, `SchInst`: a flowset, a scheduler and a scheduler instance.
* `Dn`: the state.
* `Dn.callback`: runs a callback of the scheduler on an instance.
-/

namespace Dummynet

/-- Address of a `struct dn_fsk`. -/
abbrev FskPtr := ℕ

/-- Address of a `struct dn_schk`. -/
abbrev SchkPtr := ℕ

/-- Address of a `struct dn_queue` that `q_new` made: its instance and its place there. -/
structure QAddr where
  si : SiPtr
  q : QPtr
deriving DecidableEq

/-- `DN_MAX_ID`. -/
def dnMaxId : BitVec 32 := 0x10000

/-! ### Configuration -/

/-- `struct dn_id`. -/
structure DnId where
  len : BitVec 16 := 0
  type : BitVec 8 := 0
  subtype : BitVec 8 := 0
  id : BitVec 32 := 0
deriving DecidableEq

/-- `sizeof(struct dn_link)`. -/
def sizeofLink : BitVec 16 := 32

/-- `sizeof(struct dn_fs)`. -/
def sizeofFs : BitVec 16 := 120

/-- `sizeof(struct dn_sch)`. -/
def sizeofSch : BitVec 16 := 92

/-- `sizeof(struct dn_profile)`, without samples. -/
def sizeofProfile : BitVec 16 := 56

/-- `DN_HAVE_MASK`. -/
def dnHaveMask : BitVec 32 := 0x0001

/-- `DN_NOERROR`. -/
def dnNoerror : BitVec 32 := 0x0002

/-- `DN_QHT_HASH`. -/
def dnQhtHash : BitVec 32 := 0x0004

/-- `DN_PIPE_CMD`. -/
def dnPipeCmd : BitVec 32 := 0x1000

/-- `struct dn_link`. -/
structure DnLink where
  oid : DnId := {}
  linkNr : BitVec 32 := 0
  bandwidth : BitVec 32 := 0
  delay : BitVec 32 := 0
  burst : BitVec 64 := 0
deriving DecidableEq

/-- `struct dn_profile`: the header, and the samples behind it. -/
structure DnProfile where
  oid : DnId := {}
  linkNr : BitVec 32 := 0
  lossLevel : BitVec 32 := 0
  samplesNo : BitVec 32 := 0
  samples : ℕ → BitVec 32 := fun _ => 0

/-- `struct dn_sch`. -/
structure DnSch where
  oid : DnId := {}
  schedNr : BitVec 32 := 0
  buckets : BitVec 32 := 0
  flags : BitVec 32 := 0
  name : List Char := []
  schedMask : FlowId := {}
deriving DecidableEq

instance : DecidableEq DnFs := fun a b =>
  decidable_of_iff (a.flags = b.flags ∧ a.qsize = b.qsize ∧ a.plr = b.plr ∧ a.par = b.par) <| by
    cases a
    cases b
    simp

/-- The fields of `struct dn_fs` that the data path does not read. -/
structure FsHeader where
  oid : DnId := {}
  fsNr : BitVec 32 := 0
  buckets : BitVec 32 := 0
  flowMask : FlowId := {}
  schedNr : BitVec 32 := 0
  wQ : BitVec 32 := 0
  maxTh : BitVec 32 := 0
  minTh : BitVec 32 := 0
  maxP : BitVec 32 := 0
deriving DecidableEq

/-- `struct dn_fs`. -/
structure FsConfig where
  head : FsHeader := {}
  fs : DnFs := {}
deriving DecidableEq

/-- `struct dn_fs` in zeroed memory. -/
def zeroFs : DnFs := { flags := 0, qsize := 0, plr := 0, par := fun _ => 0 }

/-- `struct dn_fsk`: the configuration, with the part of the data path in `data`, the mask, the
queues and the scheduler. -/
structure Fsk where
  head : FsHeader := {}
  data : DnFsk := { fs := zeroFs }
  fskMask : FlowId := {}
  qht : Objs QAddr := .null
  sched : Option SchkPtr := none
  drainBucket : BitVec 32 := 0

/-- The field `fs` of a flowset. -/
def Fsk.fs (f : Fsk) : FsConfig := ⟨f.head, f.data.fs⟩

/-- `struct dn_schk`. The field `fp` is the scheduling algorithm. -/
structure Schk where
  sch : DnSch := {}
  fp : Option SchedType := none
  link : DnLink := {}
  profile : Option DnProfile := none
  fskList : List FskPtr := []
  fs : Option FskPtr := none
  drainBucket : BitVec 32 := 0
  siht : Objs SiPtr := .null

/-! ### Instances -/

/-- The part of `struct dn_pkt_tag` that dummynet uses. -/
structure DnPktTag where
  dnDir : BitVec 32
  outputTime : BitVec 64
deriving DecidableEq

/-- A packet on a delay line, with its tag. -/
structure DlPkt where
  m : Mbuf
  tag : DnPktTag
deriving DecidableEq

/-- `struct dn_sch_inst` with its delay line. The part that the scheduler sees is `s`; `kind` is
the algorithm of the scheduler, which does not change while there are instances. For each queue
there are the flowset and the flow id. -/
structure SchInst where
  kind : SchedType
  s : Inst kind.Priv kind.Ext
  fid : FlowId
  sched : SchkPtr
  active : Bool
  credit : BitVec 64
  schedTime : BitVec 64
  idleTime : BitVec 64
  dline : List DlPkt
  dlineSubtype : Bool
  qfs : QPtr → Option FskPtr
  qfid : QPtr → FlowId

/-- An instance in zeroed memory, with the private data of its scheduler. -/
def SchInst.zero (kind : SchedType) : SchInst where
  kind := kind
  s :=
    { si := 0
      cfg := {}
      ni := {}
      qCount := 0
      priv := kind.newSched
      queue := fun _ => {}
      ext := fun _ => kind.desc.zeroExt
      live := ∅ }
  fid := {}
  sched := 0
  active := false
  credit := 0
  schedTime := 0
  idleTime := 0
  dline := []
  dlineSubtype := false
  qfs := fun _ => none
  qfid := fun _ => {}

/-- The queues of an instance, those made by `q_new` or the one that is part of it. -/
def SchInst.queues (x : SchInst) : Finset QPtr := x.s.queues x.kind.multiqueue

/-- What is in the event heap: a scheduler instance or its delay line. -/
inductive EvObj
  | si (p : SiPtr)
  | dline (p : SiPtr)
deriving DecidableEq

/-! ### Global data -/

/-- The parameters in `dn_cfg` that can be set, and the constants of the kernel. -/
structure DnParms where
  redLookupDepth : BitVec 32 := 256
  redAvgPktSize : BitVec 32 := 512
  redMaxPktSize : BitVec 32 := 1500
  hashSize : BitVec 32 := 64
  maxHashSize : BitVec 32 := 1024
  byteLimit : BitVec 64 := 1024 * 1024
  slotLimit : BitVec 64 := 100
  ioFast : Bool := false
  expireObject : BitVec 32 := 50
  expire : BitVec 32 := 1
  objectIdleTick : BitVec 32 := 1000
  hz : ℕ := 1000
  tick : ℕ := 1000

/-- What the environment provides during one call: the results of `malloc` and `random`, the draws
of `dn_enqueue`, what was on the stack before, the time since the last tick, and how many drain
cycles fit into the time. -/
structure Env where
  malloc : ℕ → Bool := fun _ => true
  random : ℕ → ℕ := fun _ => 0
  draws : Draws := {}
  stack : FlowId := {}
  tickLast : ℤ := 0
  drainCycles : ℕ := 1

/-- What a packet meets when `dummynet_send` passes it on. -/
inductive SendTo
  | ipOutput
  | netisr
  | ip6Output
  | bridge
  | etherDemux
  | etherOutput
  | free
deriving DecidableEq

/-- What a call does to the packets, and the keys that enter the event heap. -/
inductive Event
  | key (k : BitVec 64)
  | dequeued (p : SiPtr) (m : Mbuf)
  | released (p : SiPtr) (pkt : DlPkt)
  | handed (pkt : DlPkt)
  | chained (pkts : List DlPkt)
  | sent (pkt : DlPkt) (dst : SendTo)
  | freed (m : Mbuf)

/-- The state of dummynet: `dn_cfg`, the counters of `ip_dn_io.c` and the memory of the objects.
`sis` are the addresses of the instances that exist, `brk` bounds the addresses in use, and `log`
is what the last call did. -/
structure Dn where
  cfg : DnCfg
  parms : DnParms
  id : BitVec 32
  schkCount : ℤ
  siCount : ℤ
  fskCount : ℤ
  evheap : DnHeap EvObj
  oidId : EvObj → ℤ
  fshash : Option (DnHt FskPtr)
  schedhash : Option (DnHt SchkPtr)
  fsu : List FskPtr
  schedlist : List SchedType
  idleQueueWait : ℤ
  idleSiWait : ℤ
  expireCycle : BitVec 32
  drainFs : BitVec 32
  drainSch : BitVec 32
  tickDeltaSum : ℤ
  ioPkt : BitVec 64
  ioPktFast : BitVec 64
  fsk : FskPtr → Fsk
  schk : SchkPtr → Schk
  inst : SiPtr → SchInst
  sis : Finset SiPtr
  tags : ℕ → DnPktTag
  brk : ℕ
  env : Env
  log : List Event

namespace Dn

variable (s : Dn)

/-- `curr_time`. -/
def currTime : BitVec 64 := s.cfg.currTime

/-- One call of `malloc`. -/
def malloc : Bool × Dn :=
  (s.env.malloc 0, { s with env := { s.env with malloc := fun n => s.env.malloc (n + 1) } })

/-- One call of `random`. -/
def random : ℕ × Dn :=
  (s.env.random 0, { s with env := { s.env with random := fun n => s.env.random (n + 1) } })

/-- A new address. -/
def alloc : ℕ × Dn := (s.brk, { s with brk := s.brk + 1 })

/-- Writes a flowset. -/
def setFsk (fp : FskPtr) (f : Fsk) : Dn := { s with fsk := Function.update s.fsk fp f }

/-- Writes a scheduler. -/
def setSchk (sp : SchkPtr) (x : Schk) : Dn := { s with schk := Function.update s.schk sp x }

/-- Writes an instance. -/
def setInst (p : SiPtr) (x : SchInst) : Dn := { s with inst := Function.update s.inst p x }

/-- Records what happens. -/
def emit (e : Event) : Dn := { s with log := s.log ++ [e] }

/-- The flowset to which a queue points, as the callbacks see it. -/
def fsOf (fp : Option FskPtr) : DnFsk := fp.elim { fs := zeroFs } fun fp => (s.fsk fp).data

/-- The instance as a callback sees it: with the counters of `dn_cfg`, and with the flowset of
every queue as it is now. -/
def load (x : SchInst) : Inst x.kind.Priv x.kind.Ext :=
  { x.s with
    cfg := s.cfg
    queue := fun q => { x.s.queue q with fs := s.fsOf (x.qfs q) } }

/-- What is left after a callback. -/
def store (p : SiPtr) (x : SchInst) (t : Inst x.kind.Priv x.kind.Ext) : Dn :=
  { s.setInst p { x with s := t } with cfg := t.cfg }

/-- Runs a callback of the scheduler on the instance `p`. -/
def callback {β : Type} (p : SiPtr)
    (f : (k : SchedType) → Inst k.Priv k.Ext → Option (β × Inst k.Priv k.Ext)) :
    Option (β × Dn) :=
  (f (s.inst p).kind (s.load (s.inst p))).map fun r => (r.1, s.store p (s.inst p) r.2)

end Dn

end Dummynet
