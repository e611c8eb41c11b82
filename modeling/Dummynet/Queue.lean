import Mathlib

/-!
# Packet queues

The queues that all schedulers of dummynet share: packets, flow statistics, the flowset with its
parameters, `dn_enqueue` with its reasons to drop a packet (loss rate, RED, full queue), and
`dn_dequeue`.

C integers are words of their size; a packet queue, a linked list in C, is a list. The results of
`random()` are arguments. The pointers to the scheduler instance and to the queues are addresses,
and a queue always has a flowset: `q_new` sets it and nothing clears it before the queue is freed.

## Main definitions

* `Mbuf`, `DnFlow`, `DnFs`, `DnFsk`, `DnQueue`, `DnCfg`: packets, statistics, flowsets, queues and
  the global counters.
* `redDrops`, `dnEnqueue`, `dnDequeue`: `red_drops`, `dn_enqueue` and `dn_dequeue`.
* `ipdnBoundVar`: `ipdn_bound_var`, which brings a parameter into its range.

## Main results

* `dnEnqueue_cases`: the packet is appended to the queue, or the queue is as before.
* `dnDequeue_cons`, `dnDequeue_nil`: the head of the queue comes out.
-/

namespace Dummynet

/-- `par` of a flowset has four entries. -/
instance neZeroFour : NeZero 4 := ⟨by decide⟩

/-- Address of a `struct dn_queue`. -/
abbrev QPtr := ℕ

/-- Address of a `struct dn_sch_inst`. -/
abbrev SiPtr := ℕ

/-- A packet: its address and `m_pkthdr.len`, an `int` that is not negative. -/
structure Mbuf where
  ptr : ℕ
  len : ℕ
  len_lt : len < 2 ^ 31
deriving DecidableEq

/-! The lengths of the packets in the example runs. -/

theorem Mbuf.lt_100 : 100 < 2 ^ 31 := by decide

theorem Mbuf.lt_1000 : 1000 < 2 ^ 31 := by decide

theorem Mbuf.lt_1500 : 1500 < 2 ^ 31 := by decide

theorem Mbuf.lt_9000 : 9000 < 2 ^ 31 := by decide

/-- The length of a packet as `uint64_t`. -/
def Mbuf.len64 (m : Mbuf) : BitVec 64 := BitVec.ofNat 64 m.len

@[simp] theorem Mbuf.toNat_len64 (m : Mbuf) : m.len64.toNat = m.len := by
  have := m.len_lt
  rw [Mbuf.len64, BitVec.toNat_ofNat, Nat.mod_eq_of_lt (by omega)]

/-- The statistics in `struct dn_flow`. -/
structure DnFlow where
  totPkts : BitVec 64 := 0
  totBytes : BitVec 64 := 0
  length : BitVec 32 := 0
  lenBytes : BitVec 32 := 0
  drops : BitVec 32 := 0
deriving DecidableEq

/-- `DN_QSIZE_BYTES`: the queue size is in bytes. -/
def dnQsizeBytes : BitVec 32 := 0x0008

/-- `DN_IS_RED`. -/
def dnIsRed : BitVec 32 := 0x0020

/-- `DN_IS_GENTLE_RED`. -/
def dnIsGentleRed : BitVec 32 := 0x0040

/-- The part of `struct dn_fs` that the data path reads: flags, queue size, loss rate and the
parameters of the scheduler. -/
structure DnFs where
  flags : BitVec 32 := 0
  qsize : BitVec 32 := 50
  plr : ℤ := 0
  par : Fin 4 → ℤ := fun _ => -1

/-- `struct dn_fsk`: the flowset and the values that RED computes from it. -/
structure DnFsk where
  fs : DnFs := {}
  wQ : BitVec 32 := 0
  maxTh : BitVec 32 := 0
  minTh : BitVec 32 := 0
  c1 : BitVec 32 := 0
  c2 : BitVec 32 := 0
  c3 : BitVec 32 := 0
  c4 : BitVec 32 := 0
  wQLookup : ℕ → BitVec 32 := fun _ => 0
  lookupDepth : BitVec 32 := 0
  lookupStep : BitVec 32 := 0
  maxPktSize : BitVec 32 := 0

/-- The fields of `struct dn_queue` that RED owns. -/
structure RedState where
  avg : BitVec 32 := 0
  count : BitVec 32 := 0
  random : BitVec 32 := 0
deriving DecidableEq

/-- `struct dn_queue`: statistics, packets, scheduler instance, flowset, RED state and the start
of the idle time. -/
structure DnQueue where
  ni : DnFlow := {}
  mq : List Mbuf := []
  si : Option SiPtr := none
  fs : DnFsk := {}
  red : RedState := {}
  qTime : BitVec 64 := 0

/-- `q->fs->fs.par[i]`. -/
def DnQueue.par (q : DnQueue) (i : Fin 4) : ℤ := q.fs.fs.par i

/-- The field `length` counts the packets. -/
def DnQueue.Counted (q : DnQueue) : Prop := q.ni.length = BitVec.ofNat 32 q.mq.length

/-- The fields of `dn_cfg` and the drop counter that the queues use. -/
structure DnCfg where
  currTime : BitVec 64 := 0
  queueCount : ℤ := 0
  idleQueue : ℤ := 0
  idleSi : ℤ := 0
  ioPktDrop : BitVec 64 := 0
deriving DecidableEq

/-- What the calls of `random()` in one `dn_enqueue` return. -/
structure Draws where
  plr : ℤ := 0
  red : BitVec 32 := 0

/-- `ipdn_bound_var`: the value that a parameter gets, and 0 for the message it may print. -/
def ipdnBoundVar (v dflt lo hi : ℤ) : ℤ :=
  let dflt := if dflt < lo then lo else dflt
  let dflt := if hi < dflt then hi else dflt
  if v < lo then dflt else if hi < v then hi else v

theorem ipdnBoundVar_mem {v dflt lo hi : ℤ} (h : lo ≤ hi) :
    lo ≤ ipdnBoundVar v dflt lo hi ∧ ipdnBoundVar v dflt lo hi ≤ hi := by
  simp only [ipdnBoundVar]
  split_ifs <;> omega

/-! ### RED -/

/-- `SCALE_MUL` on 64-bit signed numbers. -/
def scaleMul (x y : BitVec 64) : BitVec 64 := (x * y).sshiftRight 16

/-- The new average queue size of `red_drops`. -/
def redAverage (cfg : DnCfg) (q : DnQueue) : BitVec 32 :=
  let fs := q.fs
  let qSize := if fs.fs.flags &&& dnQsizeBytes ≠ 0 then q.ni.lenBytes else q.ni.length
  if qSize ≠ 0 then
    let diff := (qSize <<< 16) - q.red.avg
    let v := scaleMul (diff.signExtend 64) (fs.wQ.signExtend 64)
    q.red.avg + v.setWidth 32
  else if q.red.avg ≠ 0 then
    let t := ((cfg.currTime - q.qTime).sdiv (fs.lookupStep.signExtend 64)).setWidth 32
    if t.ult fs.lookupDepth then (q.red.avg * fs.wQLookup t.toNat) >>> 16 else 0
  else q.red.avg

/-- `red_drops`: updates the average and says whether to drop a packet of length `len`. -/
def redDrops (cfg : DnCfg) (q : DnQueue) (len : BitVec 32) (random : BitVec 32) :
    Bool × RedState :=
  let fs := q.fs
  let avg := redAverage cfg q
  let st := { q.red with avg := avg }
  if avg.slt fs.minTh then (false, { st with count := -1 })
  else if !avg.slt fs.maxTh && fs.fs.flags &&& dnIsGentleRed = 0 then
    (true, { st with count := -1 })
  else
    let pB : BitVec 64 :=
      if !avg.slt fs.maxTh then
        scaleMul (fs.c3.setWidth 64) (avg.signExtend 64) - fs.c4.setWidth 64
      else if fs.minTh.slt avg then
        scaleMul (fs.c1.setWidth 64) (avg.signExtend 64) - fs.c2.setWidth 64
      else 0
    let pB := if fs.fs.flags &&& dnQsizeBytes ≠ 0 then
      (pB * len.signExtend 64).sdiv (fs.maxPktSize.signExtend 64) else pB
    let count : BitVec 32 := st.count + 1
    if count = 0 then (false, { st with count := count, random := random &&& 0xffff })
    else if (st.random.signExtend 64).slt (scaleMul pB (count.signExtend 64 <<< 16)) then
      (true, { st with count := 0, random := random &&& 0xffff })
    else (false, { st with count := count })

/-! ### Enqueue and dequeue -/

/-- The packet is counted and freed. -/
def dropPkt (cfg : DnCfg) (ni : DnFlow) (q : DnQueue) : DnCfg × DnFlow × DnQueue :=
  ({ cfg with ioPktDrop := cfg.ioPktDrop + 1 }, { ni with drops := ni.drops + 1 },
    { q with ni := { q.ni with drops := q.ni.drops + 1 } })

/-- The packet goes to the end of the queue. -/
def acceptPkt (cfg : DnCfg) (ni : DnFlow) (q : DnQueue) (m : Mbuf) :
    DnCfg × DnFlow × DnQueue :=
  let len := BitVec.ofNat 32 m.len
  let cfg := if q.ni.length = 0 then
    { cfg with
      idleQueue := cfg.idleQueue - 1
      idleSi := if ni.length = 0 then cfg.idleSi - 1 else cfg.idleSi }
    else cfg
  (cfg, { ni with length := ni.length + 1, lenBytes := ni.lenBytes + len },
    { q with
      mq := q.mq ++ [m]
      ni := { q.ni with length := q.ni.length + 1, lenBytes := q.ni.lenBytes + len } })

/-- The statistics that every packet updates before the reasons to drop it are checked. -/
def countPkt (ni : DnFlow) (m : Mbuf) : DnFlow :=
  { ni with totBytes := ni.totBytes + m.len64, totPkts := ni.totPkts + 1 }

/-- The reasons to drop a packet in the order of `dn_enqueue`: the argument `drop`, the loss rate,
RED, a full queue. RED runs, and changes its state, only if the ones before do not apply. -/
def dropReason (cfg : DnCfg) (q : DnQueue) (m : Mbuf) (drop : Bool) (r : Draws) :
    Bool × RedState :=
  let f := q.fs.fs
  if drop then (true, q.red)
  else if f.plr ≠ 0 ∧ r.plr < f.plr then (true, q.red)
  else
    let (redDrop, red) := if f.flags &&& dnIsRed ≠ 0 then
      redDrops cfg q (BitVec.ofNat 32 m.len) r.red else (false, q.red)
    if redDrop then (true, red)
    else if f.flags &&& dnQsizeBytes ≠ 0 then (f.qsize.ult q.ni.lenBytes, red)
    else (f.qsize.ule q.ni.length, red)

/-- `dn_enqueue`: the packet `m` is appended to `q`, or dropped. The first result is `true` on
drop. -/
def dnEnqueue (cfg : DnCfg) (ni : DnFlow) (q : DnQueue) (m : Mbuf) (drop : Bool) (r : Draws) :
    Bool × DnCfg × DnFlow × DnQueue :=
  if q.si = none then (true, cfg, ni, q)
  else
    let q := { q with ni := countPkt q.ni m }
    let ni := countPkt ni m
    let (dropIt, red) := dropReason cfg q m drop r
    let q := { q with red := red }
    if dropIt then (true, dropPkt cfg ni q) else (false, acceptPkt cfg ni q m)

/-- `dn_dequeue`: takes the head of the queue, if there is one. -/
def dnDequeue (cfg : DnCfg) (ni : DnFlow) (q : DnQueue) :
    Option Mbuf × DnCfg × DnFlow × DnQueue :=
  match q.mq with
  | [] => (none, cfg, ni, q)
  | m :: rest =>
    let len := BitVec.ofNat 32 m.len
    let q := { q with
      mq := rest
      ni := { q.ni with length := q.ni.length - 1, lenBytes := q.ni.lenBytes - len } }
    let (cfg, q) := if q.ni.length = 0 then
      ({ cfg with idleQueue := cfg.idleQueue + 1 }, { q with qTime := cfg.currTime })
      else (cfg, q)
    if q.si = none then (some m, cfg, ni, q)
    else
      let ni := { ni with length := ni.length - 1, lenBytes := ni.lenBytes - len }
      let cfg := if ni.length = 0 then { cfg with idleSi := cfg.idleSi + 1 } else cfg
      (some m, cfg, ni, q)

theorem counted_append {q q' : DnQueue} {m : Mbuf} (h : q.Counted) (hmq : q'.mq = q.mq ++ [m])
    (hl : q'.ni.length = q.ni.length + 1) : q'.Counted := by
  rw [DnQueue.Counted] at h ⊢
  rw [hl, h, hmq, List.length_append, List.length_singleton, BitVec.ofNat_add]
  rfl

/-- **Enqueue.** The flowset and the instance of a queue do not change, and either the packet was
dropped and the packets are as before, or it is the new last packet. -/
theorem dnEnqueue_cases (cfg : DnCfg) (ni : DnFlow) (q : DnQueue) (m : Mbuf) (drop : Bool)
    (r : Draws) :
    ∃ b cfg' ni' q', dnEnqueue cfg ni q m drop r = (b, cfg', ni', q') ∧ q'.fs = q.fs ∧
      q'.si = q.si ∧ (q'.mq = if b then q.mq else q.mq ++ [m]) ∧ (q.Counted → q'.Counted) := by
  unfold dnEnqueue
  split_ifs with hsi
  · exact ⟨_, _, _, _, rfl, rfl, rfl, rfl, id⟩
  · simp only [dropPkt, acceptPkt]
    split_ifs
    · exact ⟨_, _, _, _, rfl, rfl, rfl, rfl, id⟩
    all_goals exact ⟨_, _, _, _, rfl, rfl, rfl, rfl, fun h => counted_append h rfl rfl⟩

/-- A queue with an instance, without RED and with a free slot accepts the packet. -/
theorem dnEnqueue_accepts (cfg : DnCfg) (ni : DnFlow) (m : Mbuf) (r : Draws) {q : DnQueue}
    (hsi : q.si ≠ none) (hflags : q.fs.fs.flags = 0) (hplr : q.fs.fs.plr = 0)
    (hroom : q.ni.length.ult q.fs.fs.qsize = true) : (dnEnqueue cfg ni q m false r).1 = false := by
  have hfull : q.fs.fs.qsize.ule q.ni.length = false := by
    rw [BitVec.ult, decide_eq_true_eq] at hroom
    rw [BitVec.ule, decide_eq_false_iff_not]
    omega
  simp [dnEnqueue, hsi, dropReason, hflags, hplr, countPkt, hfull]

theorem dnDequeue_nil {cfg : DnCfg} {ni : DnFlow} {q : DnQueue} (hq : q.mq = []) :
    dnDequeue cfg ni q = (none, cfg, ni, q) := by
  unfold dnDequeue
  rw [hq]

theorem counted_tail {q q' : DnQueue} {m : Mbuf} {rest : List Mbuf} (h : q.Counted)
    (hq : q.mq = m :: rest) (hmq : q'.mq = rest) (hl : q'.ni.length = q.ni.length - 1) :
    q'.Counted := by
  rw [DnQueue.Counted] at h ⊢
  rw [hl, h, hq, hmq, List.length_cons, BitVec.ofNat_add]
  exact add_sub_cancel_right _ _

/-- **Dequeue.** The head comes out and the rest stays, with the same flowset and instance. -/
theorem dnDequeue_cons (cfg : DnCfg) (ni : DnFlow) {q : DnQueue} {m : Mbuf} {rest : List Mbuf}
    (hq : q.mq = m :: rest) :
    ∃ cfg' ni' q', dnDequeue cfg ni q = (some m, cfg', ni', q') ∧ q'.fs = q.fs ∧
      q'.si = q.si ∧ q'.mq = rest ∧ (q.Counted → q'.Counted) := by
  unfold dnDequeue
  rw [hq]
  simp only
  split_ifs <;> exact ⟨_, _, _, rfl, rfl, rfl, rfl, fun h => counted_tail h hq rfl rfl⟩

end Dummynet
