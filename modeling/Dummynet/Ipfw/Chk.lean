import Dummynet.Ipfw.Tests

/-!
# The rule interpreter

The loops of `ipfw_chk`: the outer loop over the rules, the inner loop over the instructions of a
rule, and the switch on the opcode.

## Main definitions

* `exec`: the switch on the opcode.
* `epilogue`: the end of the inner loop, where the flags of the instruction are looked at.
* `step`: one round of the inner or the outer loop.
* `run`: several of them.
-/

namespace Ipfw

variable {Δ : Type}

/-- How the switch is left: to the end of the inner loop, or by `continue`. -/
inductive Ctl
  | brk | cont | panic
  deriving DecidableEq, Repr

/-- Breaks from the switch. -/
def Chk.brk (s : Chk Δ) (m : Bool) : Ctl × Chk Δ := (.brk, { s with matched := m })

/-- An opcode that only tests the packet. -/
def tests (s : Chk Δ) (x : Ev Δ Bool) : Ev Δ (Ctl × Chk Δ) := do
  let m ← x
  return s.brk m

/-- Leaves both loops with a verdict. -/
def Chk.finish (s : Chk Δ) (v : Verdict) : Chk Δ := { s with retval := v, l := 0, done := true }

/-- `set_match`. -/
def Chk.setMatch (C : Chain) (s : Chk Δ) : Chk Δ :=
  { s with ref := some {
      chainId := C.id
      slot := s.fPos + 1
      ruleId := 1 + (C.rule (C.at s.fPos)).id
      rulenum := (C.rule (C.at s.fPos)).rulenum } }

/-- Updates the counters of the rule `r`. -/
def Chk.count (E : Env Δ) (k : Hdr) (s : Chk Δ) (r : RulePtr) : Chk Δ :=
  { s with stats := Function.update s.stats r {
      pcnt := (s.stats r).pcnt + 1
      bcnt := (s.stats r).bcnt + k.pktlen.setWidth 64
      timestamp := E.timeUptime } }

/-- The flow id of the packet. -/
def Chk.flowId (k : Hdr) (s : Chk Δ) : FlowId := { k.fId with fib := s.fib }

/-! ### Logging -/

/-- Word `i` of the instruction at `p` of the current rule, in the memory `w`. -/
def wordAt (w : RulePtr → ℕ → BitVec 32) (f : RulePtr) (p i : ℕ) : Ev Δ (BitVec 32) :=
  Reads.read (fun _ => .word f p i) fun _ => w f (p + i)

/-- The header of the instruction at `p`. -/
def insnAt (w : RulePtr → ℕ → BitVec 32) (f : RulePtr) (p : ℕ) : Ev Δ Insn := do
  let h ← wordAt w f p 0
  return .ofWord h

/-- The instruction after the one at `p`, if that has the opcode `op`. -/
def skipOver (w : RulePtr → ℕ → BitVec 32) (f : RulePtr) (op : Opcode) (p : ℕ) : Ev Δ ℕ := do
  let c ← insnAt w f p
  return if c.opcode = some op then p + c.fLen else p

/-- The queue that `ipfw_log` prints for an `O_ALTQ` at `p`. -/
def logAltq (w : RulePtr → ℕ → BitVec 32) (f : RulePtr) (p : ℕ) : Ev Δ (Option (BitVec 32)) := do
  let c ← insnAt w f p
  if c.opcode = some .altq then
    let qid ← wordAt w f p 1
    return some qid
  else return none

/-- The address and the port that `ipfw_log` prints for an `O_FORWARD_IP` at `p`. -/
def logForward (w : RulePtr → ℕ → BitVec 32) (f : RulePtr) (p : ℕ) :
    Ev Δ (Option (BitVec 32 × BitVec 16)) := do
  let c ← insnAt w f p
  if c.opcode = some .forwardIp then
    let addr ← wordAt w f p 2
    let port ← wordAt w f p 1
    return some (addr, hi16 port)
  else return none

/-- The part of `ipfw_log` that looks for the action, from the instruction at `p` on, in order to
print it. -/
def logAction (w : RulePtr → ℕ → BitVec 32) (f : RulePtr) (p : ℕ) :
    Ev Δ (Option (BitVec 32) × Option (BitVec 32 × BitVec 16)) := do
  let altq ← logAltq w f p
  let p ← skipOver w f .altq p
  let p ← skipOver w f .prob p
  let p ← skipOver w f .tag p
  let forward ← logForward w f p
  return (altq, forward)

/-- `ipfw_log` of the rule `f`, which takes the instruction at `ACTION_PTR` for the `O_LOG`. -/
def ipfwLog (E : Env Δ) (C : Chain) (s : Chk Δ) : Ev Δ (Chk Δ) :=
  if !E.fwVerbose then return s
  else do
    let p := (C.rule s.f).actOfs.toNat
    let maxLog ← wordAt s.words s.f p 1
    let logLeft ← wordAt s.words s.f p 2
    if maxLog ≠ 0#32 ∧ logLeft = 0#32 then return s
    else
      let words := Function.update s.words s.f
        (Function.update (s.words s.f) (p + 2) (logLeft - 1))
      let c ← insnAt words s.f p
      let _action ← logAction words s.f (p + c.fLen)
      return { s with words := words }

/-! ### The opcodes that do more than a test -/

/-- `O_ALTQ`. -/
def execAltq (E : Env Δ) (s : Chk Δ) : Ev Δ (Ctl × Chk Δ) :=
  if (E.pfFindMtag.any fun qid => qid ≠ 0#32) || !E.pfGetMtag then return s.brk true
  else do
    let qid ← word 1
    return { s with altq := some qid }.brk true

/-- `O_TAG`. With `F_NOT` it is `untag`. -/
def execTag (E : Env Δ) (c : Insn) (s : Chk Δ) : Ctl × Chk Δ :=
  let tag := s.arg c
  match mTagLocate s.tags mtagIpfw tag with
  | some mtag => if c.fNot then { s with tags := mTagDelete s.tags mtag }.brk false else s.brk false
  | none =>
    if c.fNot then s.brk false
    else if E.malloc s.tick then { s with tags := mTagAlloc mtagIpfw tag :: s.tags }.brk true
    else s.brk true

/-- `O_TAGGED`. -/
def taggedTest (c : Insn) (s : Chk Δ) : Ev Δ Bool :=
  if c.fLen = 1 then return (mTagLocate s.tags mtagIpfw (s.arg c)).isSome
  else taggedLoop c s.tags

/-- The operand of `O_LIMIT`. -/
def limitWord (c : Insn) : Ev Δ (BitVec 32) :=
  if c.opcode = some .limit then word 1 else return 0#32

/-- `O_LIMIT` and `O_KEEP_STATE`. -/
def execInstall (E : Env Δ) (k : Hdr) (c : Insn) (op : Opcode) (s : Chk Δ) :
    Ev Δ (Ctl × Chk Δ) := do
  let limit ← limitWord c
  let r := E.installState s.f op limit (s.flowId k) s.tablearg s.dyn
  let s := { s with dyn := r.2 }
  return (if r.1 then s.finish .deny else s).brk true

/-- The acknowledgement number that the lookup of a dynamic rule may read. -/
def lookupAck (k : Hdr) : Ev Δ (Option (BitVec 32)) :=
  if k.proto = ipprotoTcp then
    match k.ulp with
    | some u => do
      let ack ← quad k (u + 8)
      return some (htonl ack)
    | none => return none
  else return none

/-- The jump to the action part of the rule `r`, to which a dynamic rule belongs. -/
def Chk.jump (C : Chain) (s : Chk Δ) (r : RulePtr) : Chk Δ :=
  { s with
    f := r
    fPos := ipfwFindRule C (C.rule r).rulenum.toNat (C.rule r).id
    cmd := (C.rule r).actOfs.toNat
    l := (C.rule r).cmdLen.toNat - (C.rule r).actOfs.toNat
    cmdlen := 0 }

/-- The lookup of a dynamic rule, which is made once for a packet: the rule of the entry. -/
def lookupDyn (E : Env Δ) (k : Hdr) (s : Chk Δ) : Ev Δ (Option RulePtr × Chk Δ) :=
  if s.dynDir = .unknown then do
    let ack ← lookupAck k
    let r := E.lookupDynRule (s.flowId k) ack s.dyn
    return (r.1, { s with q := r.1, dynDir := r.2.1, dyn := r.2.2 })
  else return (none, s)

/-- `O_PROBE_STATE` and `O_CHECK_STATE`. -/
def execState (E : Env Δ) (k : Hdr) (C : Chain) (c : Insn) (s : Chk Δ) : Ev Δ (Ctl × Chk Δ) := do
  let found ← lookupDyn E k s
  return match found.1 with
    | some r => (found.2.jump C r).brk true
    | none => (if c.opcode = some .checkState then { found.2 with l := 0 } else found.2).brk true

/-- `IPFW_ONEPASS`. -/
def ipfwOnepass : BitVec 32 := 0x40000000#32

/-- `IPFW_IS_PIPE`. -/
def ipfwIsPipe : BitVec 32 := 0x08000000#32

/-- `O_PIPE` and `O_QUEUE`. -/
def execPipe (E : Env Δ) (C : Chain) (c : Insn) (s : Chk Δ) : Ctl × Chk Δ :=
  let info := s.arg c ||| (if c.opcode = some .pipe then ipfwIsPipe else 0#32)
    ||| (if E.fwOnePass then ipfwOnepass else 0#32)
  ({ s.setMatch C with info := info }.finish .dummynet).brk false

/-- `O_DIVERT` and `O_TEE`. -/
def execDivert (k : Hdr) (C : Chain) (c : Insn) (s : Chk Δ) : Ctl × Chk Δ :=
  if k.eh.isSome then s.brk false
  else
    let v := if c.opcode = some .divert then .divert else .tee
    ({ s.setMatch C with info := s.arg c }.finish v).brk false

/-- `O_COUNT`. -/
def execCount (E : Env Δ) (k : Hdr) (s : Chk Δ) : Ctl × Chk Δ :=
  { s.count E k s.f with l := 0 }.brk false

/-- Skips disabled rules from the position `i` on, up to the last rule. The first argument bounds
their number. -/
def skipDisabled (E : Env Δ) (C : Chain) : ℕ → ℕ → ℕ
  | 0, i => i
  | n + 1, i =>
    if i + 1 < C.nRules ∧ E.setDisable.getLsbD (C.rule (C.at i)).set.toNat then
      skipDisabled E C n (i + 1)
    else i

/-- `O_SKIPTO`, which enters the rule that it jumps to. -/
def execSkipto (E : Env Δ) (k : Hdr) (C : Chain) (c : Insn) (s : Chk Δ) : Ctl × Chk Δ :=
  let s := s.count E k s.f
  let s :=
    if c.arg1 ≠ ipFwTablearg ∧ (s.cache s.f).1 = C.id then { s with fPos := (s.cache s.f).2 }
    else
      let num := (C.rule s.f).rulenum.toNat
      let i := if (s.arg c).toInt ≤ num then num + 1 else (s.arg c).toNat
      let fPos := ipfwFindRule C i 0
      if c.arg1 ≠ ipFwTablearg then
        { s with fPos := fPos, cache := Function.update s.cache s.f (C.id, fPos) }
      else { s with fPos := fPos }
  let fPos := skipDisabled E C C.nRules s.fPos
  (.cont, { s with
    fPos := fPos
    f := C.at fPos
    l := (C.rule (C.at fPos)).cmdLen.toNat
    cmd := 0
    matched := true
    cmdlen := 0
    skipOr := false })

/-- `O_UNREACH6`, to which `O_REJECT` falls through. -/
def execUnreach6 (k : Hdr) (c : Insn) (s : Chk Δ) : Ctl × Chk Δ :=
  let send := decide (0 < k.hlen) && k.isIpv6 && (k.offset &&& 0xfff8#16 == 0#16)
    && (k.proto != ipprotoIcmpv6 || isIcmp6Query k.icmp6Type)
    && !k.mcast && k.fId.dstIp6.w0.extractLsb' 0 8 != 0xff#8
  ((if send then { s with rejected := some c.arg1 } else s).finish .deny).brk false

/-- Whether `O_REJECT` may send a reject notice: the packet is not ICMP, or it is an ICMP query. -/
def mayReject (k : Hdr) : Ev Δ Bool :=
  if 0 < k.hlen ∧ k.isIpv4 ∧ k.offset = 0#16 then
    if k.proto ≠ ipprotoIcmp then return true else isIcmpQuery k
  else return false

/-- `O_REJECT`. -/
def execReject (k : Hdr) (c : Insn) (s : Chk Δ) : Ev Δ (Ctl × Chk Δ) := do
  let query ← mayReject k
  let send := query && !k.mcast && (htonl k.dstIp).extractLsb' 28 4 != 0xe#4
  return execUnreach6 k c (if send then { s with rejected := some c.arg1 } else s)

/-- `O_FORWARD_IP`. -/
def execForwardIp (k : Hdr) (s : Chk Δ) : Ev Δ (Ctl × Chk Δ) :=
  if k.eh.isSome then return s.brk false
  else if s.q.isNone ∨ s.dynDir = .forward then do
    let addr ← word 2
    if addr = 0#32 then
      let _family ← word 1
      let _zero ← word 3
      let _zero ← word 4
      return ({ s with nextHop := some (.hopstore (htonl s.tablearg)) }.finish .pass).brk false
    else return ({ s with nextHop := some (.rule s.f s.cmd) }.finish .pass).brk false
  else return (s.finish .pass).brk false

/-- `O_NETGRAPH` and `O_NGTEE`. -/
def execNetgraph (E : Env Δ) (C : Chain) (c : Insn) (s : Chk Δ) : Ctl × Chk Δ :=
  let info := s.arg c ||| (if E.fwOnePass then ipfwOnepass else 0#32)
  let v := if c.opcode = some .netgraph then .netgraph else .ngtee
  ({ s.setMatch C with info := info }.finish v).brk false

/-- `O_SETFIB`. `M_SETFIB` does nothing. -/
def execSetfib (E : Env Δ) (k : Hdr) (c : Insn) (s : Chk Δ) : Ctl × Chk Δ :=
  { s.count E k s.f with fib := c.arg1.setWidth 8, l := 0 }.brk false

/-- `O_NAT` with the instance at `t`, which is stored in the instruction. -/
def execNatFound (E : Env Δ) (c : Insn) (s : Chk Δ) (t : BitVec 64) : Ev Δ (Ctl × Chk Δ) :=
  if c.arg1 ≠ ipFwTablearg then do
    Reads.touch fun _ => .word s.f s.cmd 2
    Reads.touch fun _ => .word s.f s.cmd 3
    let cmd := Function.update (Function.update (s.words s.f) (s.cmd + 2)
      (t.extractLsb' 0 32)) (s.cmd + 3) (t.extractLsb' 32 32)
    return ({ s with words := Function.update s.words s.f cmd }.finish (E.ipfwNat t)).brk false
  else return (s.finish (E.ipfwNat t)).brk false

/-- `O_NAT` when the module is loaded. The pointer to the instance is in the last two words of the
instruction. -/
def execNatLoaded (E : Env Δ) (c : Insn) (s : Chk Δ) : Ev Δ (Ctl × Chk Δ) := do
  let lo ← word 2
  let hi ← word 3
  if (hi ++ lo : BitVec 64) ≠ 0#64 then return (s.finish (E.ipfwNat (hi ++ lo))).brk false
  else
    match E.lookupNat (s.arg c) with
    | none => return (s.finish .deny).brk false
    | some t => execNatFound E c s t

/-- `O_NAT`. -/
def execNat (E : Env Δ) (C : Chain) (c : Insn) (s : Chk Δ) : Ev Δ (Ctl × Chk Δ) :=
  if !E.natLoaded then return (s.finish .deny).brk false else execNatLoaded E c (s.setMatch C)

/-- `O_REASS`. A packet that is not fragmented goes on to the next rule. -/
def execReass (E : Env Δ) (k : Hdr) (C : Chain) (s : Chk Δ) : Ev Δ (Ctl × Chk Δ) := do
  let s := { s.count E k s.f with l := 0 }
  let off ← half k 6
  if ntohs off &&& 0x3fff#16 = 0#16 then return s.brk false
  else if E.ipReass then return ((s.setMatch C).finish .reass).brk false
  else return (s.finish .deny).brk false

/-! ### The switch -/

/-- The switch on the opcode of the instruction `c`. In the state, `cmdlen` is its length and
`matched` is false. -/
def exec (E : Env Δ) (k : Hdr) (C : Chain) (c : Insn) (s : Chk Δ) : Ev Δ (Ctl × Chk Δ) :=
  match c.opcode with
  | some .nop => tests s (return true)
  | some .forwardMac => tests s (return false)
  | some .gid | some .uid | some .jail =>
    tests s (if k.offset ≠ 0#16 ∨ k.isIpv6 then return false
      else if k.proto = ipprotoTcp ∨ k.proto = ipprotoUdp then credCheck E c else return false)
  | some .recv => tests s (ifaceMatch k.rcvif)
  | some .xmit => tests s (ifaceMatch k.oif)
  | some .via => tests s (ifaceMatch (k.oif.or k.rcvif))
  | some .macaddr2 =>
    tests s (match k.eh with | some h => macaddr2Test h | none => return false)
  | some .macType =>
    tests s (match k.eh with
      | some h => portsLoop h.etherType (c.fLen - 1) 1
      | none => return false)
  | some .frag => tests s (return k.offset != 0#16)
  | some .in_ => tests s (return k.oif.isNone)
  | some .layer2 => tests s (return k.eh.isSome)
  | some .diverted =>
    tests s (return s.info &&& 0x30000000#32 == 0x20000000#32 &&
      (c.arg1 &&& (if s.info &&& 0x80000000#32 ≠ 0#32 then 1#16 else 2#16)) != 0#16)
  | some .proto => tests s (return k.proto.setWidth 16 == c.arg1)
  | some .ipSrc => tests s (ipv4Test k do return (← word 1) == k.srcIp)
  | some .ipDst => tests s (ipv4Test k do return (← word 1) == k.dstIp)
  | some .ipSrcLookup | some .ipDstLookup =>
    if k.isIpv4 then do
      let r ← lookupTest E k c s.tablearg
      return { s with tablearg := r.2 }.brk r.1
    else return s.brk false
  | some .ipSrcMask => tests s (ipv4Test k (maskLoop k.srcIp (c.fLen - 1) 1))
  | some .ipDstMask => tests s (ipv4Test k (maskLoop k.dstIp (c.fLen - 1) 1))
  | some .ipSrcMe =>
    tests s (pure (if k.isIpv4 then E.inaddrToIfp k.srcIp
      else k.isIpv6 && E.searchIp6AddrNet k.fId.srcIp6))
  | some .ip6SrcMe => tests s (return k.isIpv6 && E.searchIp6AddrNet k.fId.srcIp6)
  | some .ipSrcSet => tests s (ipv4Test k (setTest c k.fId.srcIp))
  | some .ipDstSet => tests s (ipv4Test k (setTest c k.fId.dstIp))
  | some .ipDstMe =>
    tests s (pure (if k.isIpv4 then E.inaddrToIfp k.dstIp
      else k.isIpv6 && E.searchIp6AddrNet k.fId.dstIp6))
  | some .ip6DstMe => tests s (return k.isIpv6 && E.searchIp6AddrNet k.fId.dstIp6)
  | some .ipSrcport | some .ipDstport =>
    tests s (if (k.proto = ipprotoUdp ∨ k.proto = ipprotoTcp) ∧ k.offset = 0#16 then
      portsLoop (if c.opcode = some .ipSrcport then k.srcPort else k.dstPort) (c.fLen - 1) 1
      else return false)
  | some .icmptype => tests s (protoTest k ipprotoIcmp (icmptypeMatch k))
  | some .icmp6type =>
    tests s (ipv6Test k (protoTest k ipprotoIcmpv6 do icmp6typeMatch (← byte k k.ulpOfs)))
  | some .ipopt => tests s (ipv4Test k (ipoptsMatch k c))
  | some .ipver =>
    tests s (ipv4Test k do return c.arg1 == ((← byte k 0).extractLsb' 4 4).setWidth 16)
  | some .iplen => tests s (ipv4Test k (rangesTest c k.iplen))
  | some .ipttl => tests s (ipv4Test k do rangesTest c ((← byte k 8).setWidth 16))
  | some .ipid => tests s (ipv4Test k do rangesTest c (ntohs (← half k 4)))
  | some .ipprecedence =>
    tests s (ipv4Test k do return c.arg1 == ((← byte k 1) &&& 0xe0#8).setWidth 16)
  | some .iptos => tests s (ipv4Test k do return flagsMatch c (← byte k 1))
  | some .tcpdatalen => tests s (protoTest k ipprotoTcp do rangesTest c (← tcpDatalen k))
  | some .tcpflags =>
    tests s (protoTest k ipprotoTcp do return flagsMatch c (← byte k (k.ulpOfs + 13)))
  | some .tcpopts => tests s (protoTest k ipprotoTcp (tcpoptsMatch k c))
  | some .tcpseq =>
    tests s (protoTest k ipprotoTcp do return (← word 1) == (← quad k (k.ulpOfs + 4)))
  | some .tcpack =>
    tests s (protoTest k ipprotoTcp do return (← word 1) == (← quad k (k.ulpOfs + 8)))
  | some .tcpwin =>
    tests s (protoTest k ipprotoTcp do return c.arg1 == (← half k (k.ulpOfs + 14)))
  | some .estab =>
    tests s (protoTest k ipprotoTcp do return (← byte k (k.ulpOfs + 13)) &&& 0x16#8 != 0x02#8)
  | some .altq => execAltq E s
  | some .log => do
    let s ← ipfwLog E C s
    return s.brk true
  | some .prob => tests s do return decide (E.random s.tick < (← word 1))
  | some .verrevpath =>
    tests s (return k.oif.isSome || k.rcvif.isNone ||
      (if k.isIpv6 then E.verifyPath6 k.fId.srcIp6 k.rcvif
      else E.verifyPath k.srcIp k.rcvif s.fib))
  | some .versrcreach =>
    tests s (return decide (0 < k.hlen) && (k.oif.isSome ||
      (if k.isIpv6 then E.verifyPath6 k.fId.srcIp6 none
      else E.verifyPath k.srcIp none s.fib)))
  | some .antispoof =>
    tests s (pure (
      if k.oif.isNone && decide (0 < k.hlen) && ((k.isIpv4 && E.inLocaladdr k.srcIp) ||
          (k.isIpv6 && E.in6Localaddr k.fId.srcIp6)) then
        if k.isIpv6 then E.verifyPath6 k.fId.srcIp6 k.rcvif
        else E.verifyPath k.srcIp k.rcvif s.fib
      else true))
  | some .ipsec => tests s (return E.ipsec)
  | some .ip6Src => tests s (ipv6Test k do return decide (k.fId.srcIp6 = (← in6 1)))
  | some .ip6Dst => tests s (ipv6Test k do return decide (k.fId.dstIp6 = (← in6 1)))
  | some .ip6SrcMask =>
    tests s (ipv6Test k (mask6Loop k.fId.srcIp6 (mask6Rounds (c.fLen - 1)) 1))
  | some .ip6DstMask =>
    tests s (ipv6Test k (mask6Loop k.fId.dstIp6 (mask6Rounds (c.fLen - 1)) 1))
  | some .flow6id => tests s (ipv6Test k (flow6idMatch k.fId.flowId6 c))
  | some .extHdr => tests s (return k.isIpv6 && (k.extHd &&& c.arg1) != 0#16)
  | some .ip6 => tests s (return k.isIpv6)
  | some .ip4 => tests s (return k.isIpv4)
  | some .tag => return execTag E c s
  | some .fib => tests s (return s.fib.setWidth 16 == c.arg1)
  | some .tagged => tests s (taggedTest c s)
  | some .limit => execInstall E k c .limit s
  | some .keepState => execInstall E k c .keepState s
  | some .probeState | some .checkState => execState E k C c s
  | some .accept => return (s.finish .pass).brk false
  | some .pipe | some .queue => return execPipe E C c s
  | some .divert | some .tee => return execDivert k C c s
  | some .count => return execCount E k s
  | some .skipto => return execSkipto E k C c s
  | some .reject => execReject k c s
  | some .unreach6 => return execUnreach6 k c s
  | some .deny => return (s.finish .deny).brk false
  | some .forwardIp => execForwardIp k s
  | some .netgraph | some .ngtee => return execNetgraph E C c s
  | some .setfib => return execSetfib E k c s
  | some .nat => execNat E C c s
  | some .reass => execReass E k C s
  | some .limitParent | some .sockarg | some .callreturn | some .forwardIp6 | none =>
    return (.panic, s)

/-! ### The loops -/

/-- The end of the inner loop: the next rule, or the end of the outer loop. -/
def Chk.leave (s : Chk Δ) : Chk Δ :=
  if s.done then { s with pc := .exit } else { s with fPos := s.fPos + 1, pc := .outer }

/-- The next round of the inner loop. -/
def Chk.advance (s : Chk Δ) : Chk Δ :=
  { s with l := s.l - s.cmdlen, cmd := s.cmd + s.cmdlen, tick := s.tick + 1 }

/-- The end of the body of the inner loop, where `match` and the flags of the instruction `c` decide
how to go on. -/
def Chk.close (c : Insn) (s : Chk Δ) : Chk Δ :=
  let m := if c.fNot then !s.matched else s.matched
  let s := { s with matched := m }
  if m then (if c.fOr then { s with skipOr := true } else s).advance
  else if c.fOr then s.advance else s.leave

/-- The epilogue, which looks at the instruction at `cmd`. -/
def epilogue (s : Chk Δ) : Ev Δ (Chk Δ) := do
  let c ← insnAt s.words s.f s.cmd
  return s.close c

/-- The body of the inner loop. -/
def body (E : Env Δ) (k : Hdr) (C : Chain) (s : Chk Δ) : Ev Δ (Chk Δ) := do
  let c ← insnAt s.words s.f s.cmd
  let s := { s with cmdlen := c.fLen }
  if s.skipOr then return (if c.fOr then s else { s with skipOr := false }).advance
  else
    let r ← exec E k C c { s with matched := false }
    match r.1 with
    | .brk => epilogue r.2
    | .cont => return r.2.advance
    | .panic => return { r.2 with pc := .panic }

/-- The head of the outer loop: the start of the rule at `f_pos`. -/
def enter (E : Env Δ) (C : Chain) (s : Chk Δ) : Chk Δ :=
  if s.fPos < C.nRules then
    let f := C.at s.fPos
    if E.setDisable.getLsbD (C.rule f).set.toNat then { s with f := f, fPos := s.fPos + 1 }
    else { s with
      f := f
      tablearg := 0
      skipOr := false
      l := (C.rule f).cmdLen.toNat
      cmd := 0
      pc := .inner }
  else { s with pc := .exit }

/-- One round of the loops. -/
def step (E : Env Δ) (k : Hdr) (C : Chain) (s : Chk Δ) : Ev Δ (Chk Δ) :=
  match s.pc with
  | .outer => return enter E C s
  | .inner => if 0 < s.l then body E k C s else return s.leave
  | .exit | .panic => return s

/-- The state after `n` rounds. -/
def run (E : Env Δ) (k : Hdr) (C : Chain) : ℕ → Chk Δ → Chk Δ
  | 0, s => s
  | n + 1, s => run E k C n ((step E k C s).val s)

/-- The locations that are accessed in the round from the state `s` on. -/
def accesses (E : Env Δ) (k : Hdr) (C : Chain) (s : Chk Δ) : List Loc := (step E k C s).log s

end Ipfw
