import Dummynet.Ipfw.State

/-!
# Dynamic rules

The table of dynamic rules of `ip_fw_dynamic.c`: a hash table of entries, which are made by rules with
`keep-state` or `limit`. An entry of a `limit` rule has a parent, which counts the entries of the same
masked flow.

## Main definitions

* `DynRule`, `DynTable`: an entry, and the table.
* `lookupDynRuleLocked`: the lookup, which removes the expired entries that it comes across.
* `removeDynRule`: the removal of the entries of a rule, or of all expired entries.
* `installState`: a new entry for a packet.
-/

namespace Ipfw

abbrev DynPtr := ℕ

/-- `ipfw_dyn_rule`, without its counters. -/
structure DynRule where
  rule : RulePtr
  parent : DynPtr
  id : FlowId
  expire : BitVec 32
  bucket : ℕ
  state : BitVec 32
  ackFwd : BitVec 32
  ackRev : BitVec 32
  dynType : Opcode
  count : BitVec 16

/-- The table of dynamic rules, with the sysctl variables. The entries of a bucket are in `list`, and
`alloc` tells whether there is a table at all. New entries are at `brk`. -/
structure DynTable where
  ent : DynPtr → DynRule
  list : ℕ → List DynPtr
  alloc : Bool
  curr : BitVec 32
  buckets : BitVec 32
  count : BitVec 32
  max : BitVec 32
  ackLifetime : BitVec 32
  synLifetime : BitVec 32
  finLifetime : BitVec 32
  rstLifetime : BitVec 32
  udpLifetime : BitVec 32
  shortLifetime : BitVec 32
  keepalivePeriod : BitVec 32
  lastRemove : BitVec 32
  brk : DynPtr

/-- `ipfw_dyn_init`. -/
def DynTable.init : DynTable where
  ent := fun _ => ⟨0, 0, default, 0, 0, 0, 0, 0, .nop, 0⟩
  list := fun _ => []
  alloc := false
  curr := 256
  buckets := 256
  count := 0
  max := 4096
  ackLifetime := 300
  synLifetime := 20
  finLifetime := 1
  rstLifetime := 1
  udpLifetime := 10
  shortLifetime := 5
  keepalivePeriod := 5
  lastRemove := 0
  brk := 0

/-- `IS_IP6_FLOW_ID`. -/
def FlowId.isIp6 (id : FlowId) : Bool := id.addrType == 6#8

/-- `hash_packet`, for a table with `curr` buckets. -/
def hashPacket (curr : BitVec 32) (id : FlowId) : ℕ :=
  let i := if id.isIp6 then
      id.dstIp6.w2 ^^^ id.dstIp6.w3 ^^^ id.srcIp6.w2 ^^^ id.srcIp6.w3 ^^^
        id.dstPort.setWidth 32 ^^^ id.srcPort.setWidth 32
    else id.dstIp ^^^ id.srcIp ^^^ id.dstPort.setWidth 32 ^^^ id.srcPort.setWidth 32
  (i &&& (curr - 1)).toNat

/-- `TIME_LEQ`. -/
def timeLeq (a b : BitVec 32) : Bool := (a - b).toInt ≤ 0

/-- Changes an entry. -/
def DynTable.modify (T : DynTable) (q : DynPtr) (g : DynRule → DynRule) : DynTable :=
  { T with ent := Function.update T.ent q (g (T.ent q)) }

/-- `UNLINK_DYN_RULE`, for the entry `q` of the bucket `i`. -/
def DynTable.unlink (T : DynTable) (i : ℕ) (q : DynPtr) : DynTable :=
  let T := if (T.ent q).dynType = .limit then
      T.modify (T.ent q).parent fun e => { e with count := e.count - 1 }
    else T
  { T with
    list := Function.update T.list i ((T.list i).erase q)
    count := T.count - 1 }

/-! ### The lookup -/

/-- How the flow of a packet matches the one of an entry. -/
def FlowId.matches (pkt id : FlowId) : Option Dir :=
  if pkt.isIp6 then
    if pkt.srcIp6 = id.srcIp6 ∧ pkt.dstIp6 = id.dstIp6 ∧ pkt.srcPort = id.srcPort ∧
        pkt.dstPort = id.dstPort then some .forward
    else if pkt.srcIp6 = id.dstIp6 ∧ pkt.dstIp6 = id.srcIp6 ∧ pkt.srcPort = id.dstPort ∧
        pkt.dstPort = id.srcPort then some .reverse
    else none
  else
    if pkt.srcIp = id.srcIp ∧ pkt.dstIp = id.dstIp ∧ pkt.srcPort = id.srcPort ∧
        pkt.dstPort = id.dstPort then some .forward
    else if pkt.srcIp = id.dstIp ∧ pkt.dstIp = id.srcIp ∧ pkt.srcPort = id.dstPort ∧
        pkt.dstPort = id.srcPort then some .reverse
    else none

/-- The loop of `lookup_dyn_rule_locked` over the entries of the bucket `i`. -/
def lookupLoop (pkt : FlowId) (now : BitVec 32) (i : ℕ) :
    DynTable → List DynPtr → Option (DynPtr × Dir) × DynTable
  | T, [] => (none, T)
  | T, q :: qs =>
    let e := T.ent q
    if e.dynType = .limitParent ∧ e.count ≠ 0 then lookupLoop pkt now i T qs
    else if timeLeq e.expire now then lookupLoop pkt now i (T.unlink i q) qs
    else if pkt.proto = e.id.proto ∧ e.dynType ≠ .limitParent then
      match pkt.matches e.id with
      | some dir => (some (q, dir), T)
      | none => lookupLoop pkt now i T qs
    else lookupLoop pkt now i T qs

/-- `TH_SYN`. -/
def thSyn : BitVec 32 := 2#32

/-- `BOTH_SYN`. -/
def bothSyn : BitVec 32 := 0x0202#32

/-- `BOTH_FIN`. -/
def bothFin : BitVec 32 := 0x0101#32

/-- `TH_FIN`. -/
def thFin : BitVec 32 := 1#32

/-- The acknowledgement number of an established connection, unless the packet is out of sequence.
The pointer to the TCP header may be missing. -/
def seenAck (dir : Dir) (ack : Option (BitVec 32)) (e : DynRule) : Option DynRule :=
  match ack with
  | none => some e
  | some ack =>
    if dir = .forward then
      if e.ackFwd = 0 ∨ 0 ≤ (ack - e.ackFwd).toInt then some { e with ackFwd := ack } else none
    else
      if e.ackRev = 0 ∨ 0 ≤ (ack - e.ackRev).toInt then some { e with ackRev := ack } else none

/-- The state of the entry `q` after a TCP packet. -/
def tcpState (pkt : FlowId) (dir : Dir) (ack : Option (BitVec 32)) (now : BitVec 32)
    (T : DynTable) (q : DynPtr) : DynTable :=
  let flags : BitVec 32 := (pkt.flags &&& 7#8).setWidth 32
  let state := (T.ent q).state ||| (if dir = .forward then flags else flags <<< 8)
  let T := T.modify q fun e => { e with state := state }
  if state = thSyn then T.modify q fun e => { e with expire := now + T.synLifetime }
  else if state = bothSyn ∨ state = bothSyn ||| thFin ∨ state = bothSyn ||| thFin <<< 8 then
    T.modify q fun e =>
      match seenAck dir ack e with
      | some e => { e with expire := now + T.ackLifetime }
      | none => e
  else if state = bothSyn ||| bothFin then
    let fin := if T.keepalivePeriod ≤ T.finLifetime then T.keepalivePeriod - 1 else T.finLifetime
    { T with finLifetime := fin }.modify q fun e => { e with expire := now + fin }
  else
    let rst := if T.keepalivePeriod ≤ T.rstLifetime then T.keepalivePeriod - 1 else T.rstLifetime
    { T with rstLifetime := rst }.modify q fun e => { e with expire := now + rst }

/-- The lifetime of the entry `q` after a packet. -/
def dynHit (pkt : FlowId) (dir : Dir) (ack : Option (BitVec 32)) (now : BitVec 32)
    (T : DynTable) (q : DynPtr) : DynTable :=
  if pkt.proto = ipprotoTcp then tcpState pkt dir ack now T q
  else if pkt.proto = ipprotoUdp then T.modify q fun e => { e with expire := now + T.udpLifetime }
  else T.modify q fun e => { e with expire := now + T.shortLifetime }

/-- `lookup_dyn_rule_locked`. An entry that is found becomes the first one of its bucket. -/
def lookupDynRuleLocked (pkt : FlowId) (ack : Option (BitVec 32)) (now : BitVec 32)
    (T : DynTable) : Option (DynPtr × Dir) × DynTable :=
  if !T.alloc then (none, T)
  else
    let i := hashPacket T.curr pkt
    match lookupLoop pkt now i T (T.list i) with
    | (none, T) => (none, T)
    | (some (q, dir), T) =>
      let T := { T with list := Function.update T.list i (q :: (T.list i).erase q) }
      (some (q, dir), dynHit pkt dir ack now T q)

/-- `ipfw_lookup_dyn_rule`, of which the rule of the entry is used. -/
def lookupDynRule (pkt : FlowId) (ack : Option (BitVec 32)) (now : BitVec 32) (T : DynTable) :
    Option RulePtr × Dir × DynTable :=
  match lookupDynRuleLocked pkt ack now T with
  | (none, T) => (none, .none, T)
  | (some (q, dir), T) => (some (T.ent q).rule, dir, T)

/-! ### The removal -/

/-- The loop of `remove_dyn_rule` over the entries of the bucket `i`. It tells whether a parent has
been seen. The entry `keep` stays, and without `force` only expired entries go. -/
def removeLoop (rule : Option RulePtr) (keep : Option DynPtr) (force : Bool) (now : BitVec 32)
    (second : Bool) (i : ℕ) : DynTable → List DynPtr → Bool × DynTable
  | T, [] => (false, T)
  | T, q :: qs =>
    let e := T.ent q
    if keep = some q ∨ ¬ (rule = none ∨ rule = some e.rule) then
      removeLoop rule keep force now second i T qs
    else if e.dynType = .limitParent then
      let r := if second ∧ e.count = 0 then removeLoop rule keep force now second i (T.unlink i q) qs
        else removeLoop rule keep force now second i T qs
      (true, r.2)
    else if !force ∧ !timeLeq e.expire now then removeLoop rule keep force now second i T qs
    else removeLoop rule keep force now second i (T.unlink i q) qs

/-- One pass of `remove_dyn_rule` over the first `n` buckets. -/
def removePass (rule : Option RulePtr) (keep : Option DynPtr) (force : Bool) (now : BitVec 32)
    (second : Bool) : ℕ → DynTable → Bool × DynTable
  | 0, T => (false, T)
  | n + 1, T =>
    let r := removePass rule keep force now second n T
    let r' := removeLoop rule keep force now second n r.2 (r.2.list n)
    (r.1 || r'.1, r'.2)

/-- `remove_dyn_rule`. Parents go in a second pass. -/
def removeDynRule (rule : Option RulePtr) (keep : Option DynPtr) (force : Bool) (now : BitVec 32)
    (T : DynTable) : DynTable :=
  if T.alloc = false ∨ T.count = 0 then T
  else if !force ∧ T.lastRemove = now then T
  else
    let r := removePass rule keep force now false T.curr.toNat { T with lastRemove := now }
    if r.1 then (removePass rule keep force now true T.curr.toNat r.2).2 else r.2

/-- `ipfw_remove_dyn_children`. -/
def removeDynChildren (rule : RulePtr) (now : BitVec 32) (T : DynTable) : DynTable :=
  removeDynRule (some rule) none true now T

/-! ### New entries -/

/-- The results of `malloc` and `uma_zalloc`. The first one depends on the size of the table. -/
structure DynMem where
  malloc : BitVec 32 → Bool
  zallocParent : Bool
  zalloc : Bool

/-- The loop of `realloc_dynamic_table`, which tries smaller tables. The first argument bounds the
number of times that the size can be halved. -/
def reallocLoop (malloc : BitVec 32 → Bool) : ℕ → BitVec 32 → Bool × BitVec 32
  | 0, curr => (malloc curr, curr)
  | n + 1, curr =>
    if malloc curr ∨ curr ≤ 2 then (malloc curr, curr) else reallocLoop malloc n (curr / 2)

/-- `realloc_dynamic_table`. -/
def reallocDynamicTable (malloc : BitVec 32 → Bool) (T : DynTable) : DynTable :=
  let buckets := if 65536 < T.buckets then 1024 else T.buckets
  if buckets &&& (buckets - 1) ≠ 0 then { T with buckets := T.curr }
  else
    let r := reallocLoop malloc 32 buckets
    { T with buckets := buckets, curr := r.2, alloc := r.1, list := fun _ => [] }

/-- The rule of a new entry, or its parent. -/
inductive DynOwner
  | rule (f : RulePtr)
  | parent (p : DynPtr)

/-- The entry that `add_dyn_rule` makes. -/
def newEntry (T : DynTable) (id : FlowId) (dynType : Opcode) (owner : DynOwner)
    (now : BitVec 32) : DynRule where
  rule := match owner with
    | .rule f => f
    | .parent p => (T.ent p).rule
  parent := match owner with
    | .rule _ => 0
    | .parent p => p
  id := id
  expire := now + T.synLifetime
  bucket := hashPacket T.curr id
  state := 0
  ackFwd := 0
  ackRev := 0
  dynType := dynType
  count := 0

/-- The last part of `add_dyn_rule`, which counts and links the new entry. -/
def DynTable.link (T : DynTable) (id : FlowId) (dynType : Opcode) (owner : DynOwner)
    (now : BitVec 32) : DynTable :=
  let r := newEntry T id dynType owner now
  let T := match owner with
    | .rule _ => T
    | .parent p => T.modify p fun e => { e with count := e.count + 1 }
  { T with
    ent := Function.update T.ent T.brk r
    list := Function.update T.list r.bucket (T.brk :: T.list r.bucket)
    count := T.count + 1
    brk := T.brk + 1 }

/-- `add_dyn_rule`, which fails without memory. -/
def addDynRule (malloc : BitVec 32 → Bool) (zalloc : Bool) (id : FlowId) (dynType : Opcode)
    (owner : DynOwner) (now : BitVec 32) (T : DynTable) : Option DynPtr × DynTable :=
  let T := if T.alloc = false ∨ T.count = 0 ∧ T.buckets ≠ T.curr then reallocDynamicTable malloc T
    else T
  if !T.alloc then (none, T)
  else if !zalloc then (none, T)
  else (some T.brk, T.link id dynType owner now)

/-- The entry `e` is a parent of the rule for the masked flow `pkt`. -/
def isParent (pkt : FlowId) (rule : RulePtr) (e : DynRule) : Bool :=
  e.dynType = .limitParent && rule = e.rule && pkt.proto = e.id.proto &&
    pkt.srcPort = e.id.srcPort && pkt.dstPort = e.id.dstPort &&
    (if pkt.isIp6 then pkt.srcIp6 = e.id.srcIp6 && pkt.dstIp6 = e.id.dstIp6
      else pkt.srcIp = e.id.srcIp && pkt.dstIp = e.id.dstIp)

/-- `lookup_dyn_parent`. -/
def lookupDynParent (M : DynMem) (pkt : FlowId) (rule : RulePtr) (now : BitVec 32)
    (T : DynTable) : Option DynPtr × DynTable :=
  match if T.alloc then (T.list (hashPacket T.curr pkt)).find? fun q => isParent pkt rule (T.ent q)
    else none with
  | some q => (some q, T.modify q fun e => { e with expire := now + T.shortLifetime })
  | none => addDynRule M.malloc M.zallocParent pkt .limitParent (.rule rule) now T

/-- The masked flow of a packet. The fields that are not set keep what is on the stack. -/
def maskedFlow (mask : BitVec 8) (pkt junk : FlowId) : FlowId where
  dstIp := if !pkt.isIp6 && mask.getLsbD 2 then pkt.dstIp else 0
  srcIp := if !pkt.isIp6 && mask.getLsbD 0 then pkt.srcIp else 0
  dstPort := if mask.getLsbD 3 then pkt.dstPort else 0
  srcPort := if mask.getLsbD 1 then pkt.srcPort else 0
  fib := pkt.fib
  proto := pkt.proto
  flags := junk.flags
  addrType := pkt.addrType
  dstIp6 := if pkt.isIp6 && mask.getLsbD 2 then pkt.dstIp6 else junk.dstIp6
  srcIp6 := if pkt.isIp6 && mask.getLsbD 0 then pkt.srcIp6 else junk.srcIp6
  flowId6 := junk.flowId6
  extra := junk.extra

/-- The limit of an `O_LIMIT`, whose operand is `cmd`. -/
def connLimit (cmd tablearg : BitVec 32) : BitVec 32 :=
  if hi16 cmd = ipFwTablearg then tablearg else (hi16 cmd).setWidth 32

/-- What `ipfw_install_state` does for `O_LIMIT`: whether it fails. -/
def installLimit (M : DynMem) (rule : RulePtr) (cmd tablearg : BitVec 32) (pkt junk : FlowId)
    (now : BitVec 32) (T : DynTable) : Bool × DynTable :=
  let limit := connLimit cmd tablearg
  match lookupDynParent M (maskedFlow (cmd.extractLsb' 8 8) pkt junk) rule now T with
  | (none, T) => (true, T)
  | (some parent, T) =>
    let T := if limit ≤ (T.ent parent).count.setWidth 32 then
        removeDynRule (some rule) (some parent) false now T
      else T
    if limit ≤ (T.ent parent).count.setWidth 32 then (true, T)
    else (false, (addDynRule M.malloc M.zalloc pkt .limit (.parent parent) now T).2)

/-- The part of `ipfw_install_state` that makes an entry, which fails if there are too many. -/
def installEntry (M : DynMem) (rule : RulePtr) (op : Opcode) (cmd tablearg : BitVec 32)
    (pkt junk : FlowId) (now : BitVec 32) (T : DynTable) : Bool × DynTable :=
  let T := if T.max ≤ T.count then removeDynRule none none false now T else T
  if T.max ≤ T.count then (true, T)
  else if op = .keepState then
    (false, (addDynRule M.malloc M.zalloc pkt .keepState (.rule rule) now T).2)
  else if op = .limit then installLimit M rule cmd tablearg pkt junk now T
  else (true, T)

/-- `ipfw_install_state`: whether it fails. -/
def installState (M : DynMem) (rule : RulePtr) (op : Opcode) (cmd tablearg : BitVec 32)
    (pkt junk : FlowId) (now : BitVec 32) (T : DynTable) : Bool × DynTable :=
  match lookupDynRuleLocked pkt none now T with
  | (some _, T) => (false, T)
  | (none, T) =>
    let r := installEntry M rule op cmd tablearg pkt junk now T
    if r.1 then r else (false, (lookupDynRuleLocked pkt none now r.2).2)

end Ipfw
