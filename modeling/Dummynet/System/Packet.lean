import Dummynet.System.Config

/-!
# The packet path

The data path of `ip_dn_io.c`: packets enter through `dummynet_io`, wait in the queues of a
scheduler instance until `serve_sched` takes them, travel along the delay line of the link, and
leave through `dummynet_send` or back to the caller.

A list of packets linked by `m_nextpkt` is a list. A packet has a length that is not negative, so
that the branch of `serve_sched` for a negative length is left out, and `dn_cfg.busy`, which
nothing sets, as well.

## Main definitions

* `transmitEvent`, `extraBits`, `serveSched`: the functions on an instance.
* `dummynetSend`, `dummynetIo`: the way of a packet out of dummynet and into it.
* `taskTime`, `taskLoop`: the parts of `dummynet_task` before the drain.
-/

namespace Dummynet

/-- `DIR_DROP`. -/
def dirDrop : BitVec 32 := 3

/-- `PROTO_LAYER2`. -/
def protoLayer2 : BitVec 32 := 4

/-- `ENOBUFS`. -/
def enobufs : ℕ := 55

/-! ### The delay line -/

/-- `transmit_event`: the packets that are due go to the end of `q`. -/
def transmitEvent (s : Dn) (q : List DlPkt) (p : SiPtr) (now : BitVec 64) : List DlPkt × Dn :=
  let x := s.inst p
  let due := fun d : DlPkt => keyLEQ d.tag.outputTime now
  let out := x.dline.takeWhile due
  let rest := x.dline.dropWhile due
  let s := s.setInst p { x with dline := rest, dlineSubtype := !rest.isEmpty }
  let s := { s with log := s.log ++ out.map (Event.released p) }
  match rest with
  | [] => (q ++ out, s)
  | d :: _ => (q ++ out, s.evInsert d.tag.outputTime (.dline p))

/-- `extra_bits`. -/
def extraBits (s : Dn) (m : Mbuf) (sp : SchkPtr) : BitVec 64 × Dn :=
  match (s.schk sp).profile with
  | none => (0, s)
  | some pf =>
    if pf.samplesNo = 0 then (0, s)
    else
      let (r, s) := s.random
      let index := r % pf.samplesNo.toInt.natAbs
      let sample := (pf.samples index).signExtend 64
      let bits := (sample * (s.schk sp).link.bandwidth.signExtend 64).sdiv 1000
      if pf.lossLevel.toInt ≤ index then
        let tag := { s.tags m.ptr with dnDir := dirDrop }
        (bits, { s with tags := Function.update s.tags m.ptr tag })
      else (bits, s)

/-- The credit that a packet costs, and the tag that it takes along. -/
def packetCost (s : Dn) (m : Mbuf) (sp : SchkPtr) : BitVec 64 × Dn :=
  if (s.schk sp).link.bandwidth = 0 then (0, s)
  else
    let (bits, s) := extraBits s m sp
    (BitVec.ofNat 64 s.parms.hz * ((BitVec.ofNat 32 m.len * 8).signExtend 64 + bits), s)

/-- The body of the loop in `serve_sched`, for the packet that the scheduler returned. -/
def moveToDline (s : Dn) (p : SiPtr) (m : Mbuf) : Dn :=
  let sp := (s.inst p).sched
  let (lenScaled, s) := packetCost (s.emit (.dequeued p m)) m sp
  let x := s.inst p
  let outputTime := s.currTime + (s.schk sp).link.delay.signExtend 64
  s.setInst p { x with
    credit := x.credit - lenScaled
    dline := x.dline ++ [⟨m, { s.tags m.ptr with outputTime := outputTime }⟩] }

/-- The packets in the queues of an instance. -/
def SchInst.pkts (x : SchInst) : ℕ := ∑ q ∈ x.queues, (x.s.mq q).length

/-- The loop of `serve_sched`. The results are whether a packet was moved, and whether the last
one moved is still in `m`. A round takes a packet from a queue. -/
def serveLoop : ℕ → Dn → SiPtr → Bool → Option (Bool × Bool × Dn)
  | 0, _, _, _ => none
  | n + 1, s, p, done =>
    if (s.inst p).credit.toInt < 0 then some (done, done, s)
    else do
      let (m, s) ← s.callback p fun k t => k.desc.dequeue t
      match m with
      | none => pure (done, false, s)
      | some m => serveLoop n (moveToDline s p m) p true

/-- The last packet of a list gets a later output time. -/
def delayLast (t : BitVec 64) (l : List DlPkt) : List DlPkt :=
  l.dropLast ++ (l.getLast?.map fun d =>
    { d with tag := { d.tag with outputTime := d.tag.outputTime + t } }).toList

/-- The start of `serve_sched`: the credit for the time since the last service. -/
def grantCredit (s : Dn) (p : SiPtr) (now : BitVec 64) : Dn :=
  let x := s.inst p
  let bw := (s.schk x.sched).link.bandwidth
  s.setInst p { x with
    active := false
    credit := if 0 < bw.toInt then x.credit + (now - x.schedTime) * bw.signExtend 64 else 0
    schedTime := now }

/-- The end of `serve_sched` with a negative credit: the instance is put back in the heap, and the
last packet, if there is one, leaves later. Without bandwidth the code panics. -/
def reschedule (s : Dn) (p : SiPtr) (now : BitVec 64) (last : Bool) : Option Dn :=
  let x := s.inst p
  let bw := (s.schk x.sched).link.bandwidth
  if bw.toInt ≤ 0 then none
  else
    let t := (bw.signExtend 64 - 1 - x.credit).sdiv (bw.signExtend 64)
    let dline := if last then delayLast t x.dline else x.dline
    let s := s.setInst p { x with dline := dline, active := true }
    some (s.evInsert (now + t) (.si p))

/-- `serve_sched`, with the packets that leave at the end of `q`. -/
def serveSched (s : Dn) (q : List DlPkt) (p : SiPtr) (now : BitVec 64) :
    Option (List DlPkt × Dn) := do
  let idle := (s.inst p).dline.isEmpty
  let s := grantCredit s p now
  let (done, last, s) ← serveLoop ((s.inst p).pkts + 1) s p false
  let s ← if (s.inst p).credit.toInt < 0 then reschedule s p now last
    else some (s.setInst p { s.inst p with idleTime := now })
  if idle && done then pure (transmitEvent s q p now) else pure (q, s)

/-! ### The way out -/

/-- The `switch` of `dummynet_send`. -/
def sendTo (dst : BitVec 32) : SendTo :=
  if dst = 0 then .ipOutput
  else if dst = 1 ∨ dst = 0x11 then .netisr
  else if dst = 0x10 then .ip6Output
  else if dst = 0xe then .bridge
  else if dst = 5 then .etherDemux
  else if dst = 4 then .etherOutput
  else .free

/-- `dummynet_send`. -/
def dummynetSend (s : Dn) (q : List DlPkt) : Dn :=
  { s with log := s.log ++ q.map fun d => .sent d (sendTo d.tag.dnDir) }

/-! ### The way in -/

/-- The arguments of `dummynet_io`: the packet, the direction, and from the firewall the
information of the rule and the flow id. -/
structure IoArgs where
  m : Mbuf
  dir : BitVec 32 := 0
  info : BitVec 32
  id : FlowId := {}

/-- The number of the flowset. -/
def IoArgs.fsNr (a : IoArgs) : BitVec 32 :=
  (a.info &&& 0xffff) + if a.info &&& 0x08000000 ≠ 0 then 2 * dnMaxId else 0

/-- The results of `dummynet_io`: the packet in `*m0`, and the error number. -/
structure IoResult where
  m0 : Option DlPkt := none
  err : ℕ := 0

/-- The label `dropit`, with the packet if it is still there. -/
def dropIt (s : Dn) (fp : Option FskPtr) (m : Option Mbuf) : IoResult × Dn :=
  let s := { s with cfg := { s.cfg with ioPktDrop := s.cfg.ioPktDrop + 1 } }
  let noerror := fp.any fun fp => (s.fsk fp).data.fs.flags &&& dnNoerror ≠ 0
  ({ err := if noerror then 0 else enobufs }, m.elim s fun m => s.emit (.freed m))

/-- The instance and the queue for a packet. A scheduler with one queue has no use for the
latter. -/
def locateQueue (s : Dn) (fp : FskPtr) (sp : SchkPtr) (id : FlowId) :
    Option (Option QAddr × Dn) := do
  let kind ← (s.schk sp).fp
  if kind.multiqueue then ipdnQFind s fp id
  else
    let (p, s) ← ipdnSiFind s sp id
    pure (p.map fun p => ⟨p, fifoQueue⟩, s)

/-- The initial allowance of an instance that was idle. -/
def initialAllowance (s : Dn) (p : SiPtr) (sp : SchkPtr) : Dn :=
  let x := s.inst p
  let link := (s.schk sp).link
  if x.idleTime.ult s.currTime then
    let bw := link.bandwidth.signExtend 64
    let burst := (s.currTime - x.idleTime) * bw
    let burst := if link.burst = 0 then 0 else if link.burst.ult burst then link.burst else burst
    s.setInst p { x with
      schedTime := s.currTime
      credit := (if s.parms.ioFast then bw else 0) + burst }
  else s

/-- The end of `dummynet_io`, with the packets that `serve_sched` returned: a packet that comes
back at once goes to the caller. -/
def handBack (s : Dn) (a : IoArgs) (q : List DlPkt) : IoResult × Dn :=
  match q with
  | d :: rest =>
    if d.m.ptr = a.m.ptr ∧ a.dir &&& protoLayer2 = 0 then
      let s := { s with ioPktFast := s.ioPktFast + 1 }.emit (.handed d)
      ({ m0 := some d }, if rest.isEmpty then s else s.emit (.chained rest))
    else ({}, dummynetSend s q)
  | [] => ({}, s)

/-- The part of `dummynet_io` after the queue was found. -/
def ioEnqueue (s : Dn) (a : IoArgs) (fp : FskPtr) (sp : SchkPtr) (w : QAddr) :
    Option (IoResult × Dn) := do
  let (drop, s) ← s.callback w.si fun k t => k.desc.enqueue t w.q a.m s.env.draws
  if drop then pure (dropIt (s.emit (.freed a.m)) (some fp) none)
  else if (s.inst w.si).active then pure ({}, s)
  else
    let (q, s) ← serveSched (initialAllowance s w.si sp) [] w.si s.currTime
    pure (handBack s a q)

/-- `dummynet_io`. -/
def dummynetIo (s : Dn) (a : IoArgs) : Option (IoResult × Dn) :=
  let s := { s with ioPkt := s.ioPkt + 1 }
  -- `tag_mbuf`
  let (ok, s) := s.malloc
  if !ok then some (dropIt s none (some a.m))
  else
    let s := { s with tags := Function.update s.tags a.m.ptr ⟨a.dir, s.currTime⟩ }
    match s.findFs a.fsNr with
    | none => some (dropIt s none (some a.m))
    | some fp =>
      match (s.fsk fp).sched with
      | none => some (dropIt s (some fp) (some a.m))
      | some sp => do
        let (w, s) ← locateQueue s fp sp a.id
        match w with
        | none => pure (dropIt s (some fp) (some a.m))
        | some w => ioEnqueue s a fp sp w

/-! ### The timer -/

/-- The start of `dummynet_task`: the new `curr_time`. -/
def taskTime (s : Dn) : Option Dn :=
  let hz : ℤ := s.parms.hz
  let tick : ℤ := s.parms.tick
  if hz = 0 ∨ tick = 0 then none
  else
    let sum := s.tickDeltaSum + (s.env.tickLast * hz - 1000000).tdiv hz
    let now := s.currTime + 1
    let (now, sum) :=
      if 0 ≤ sum - tick then
        (now + (BitVec.ofInt 32 (sum.tdiv tick)).signExtend 64, sum.tmod tick)
      else if sum + tick ≤ 0 then (now - 1, sum + tick)
      else (now, sum)
    some { s with cfg := { s.cfg with currTime := now }, tickDeltaSum := sum }

/-- The loop of `dummynet_task` over the events that are due. -/
def taskLoop : ℕ → Dn → List DlPkt → Option (List DlPkt × Dn)
  | 0, _, _ => none
  | n + 1, s, q =>
    if s.evheap.elements = 0 ∨ keyLT s.currTime s.evheap.topKey then some (q, s)
    else do
      let o := s.evheap.topObject
      let s ← s.evExtract none
      let (q, s) ← match o with
        | .si p => serveSched s q p s.currTime
        | .dline p => some (transmitEvent s q p s.currTime)
      taskLoop n s q

end Dummynet
