import Dummynet.Ipfw.Insn
import Dummynet.Lib.Reads

/-!
# The state of the rule interpreter

The packet, the parameters and the local variables of `ipfw_chk` while it evaluates rules.

## Main definitions

* `Chain`: the rules, and the order in which they are evaluated.
* `Hdr`: what the parser of the headers has found in a packet.
* `Env`: the code that the interpreter calls, with the sysctl variables.
* `Chk`: the local variables of `ipfw_chk` and what it changes.
-/

namespace Ipfw

abbrev RulePtr := ℕ

/-- What the interpreter reads of a rule besides its instructions. -/
structure Rule where
  actOfs : BitVec 16
  cmdLen : BitVec 16
  rulenum : BitVec 16
  set : BitVec 8
  id : BitVec 32
  deriving DecidableEq, Repr, Inhabited

/-- `struct ip_fw_chain`: the rules, in the order of `map`. -/
structure Chain where
  rule : RulePtr → Rule
  map : List RulePtr
  id : BitVec 32
  deriving Inhabited

/-- `n_rules`. -/
def Chain.nRules (C : Chain) : ℕ := C.map.length

/-- The rule at a position of the map. -/
def Chain.at (C : Chain) (i : ℕ) : RulePtr := C.map.getD i 0

/-- The search of `ipfw_find_rule` between `lo` and `hi`. The first argument bounds `hi - lo`. -/
def ipfwFindLoop (C : Chain) (key : ℕ) (id : BitVec 32) : ℕ → (lo hi : ℕ) → ℕ
  | 0, _, hi => hi
  | n + 1, lo, hi =>
    if lo < hi then
      let i := (lo + hi) / 2
      let r := C.rule (C.at i)
      if r.rulenum.toNat < key then ipfwFindLoop C key id n (i + 1) hi
      else if key < r.rulenum.toNat then ipfwFindLoop C key id n lo i
      else if r.id < id then ipfwFindLoop C key id n (i + 1) hi
      else ipfwFindLoop C key id n lo i
    else hi

/-- `ipfw_find_rule`: the position of the smallest rule from `key`, `id` on. -/
def ipfwFindRule (C : Chain) (key : ℕ) (id : BitVec 32) : ℕ :=
  ipfwFindLoop C key id (C.nRules - 1) 0 (C.nRules - 1)

/-! ### The packet -/

/-- An interface. Its name is a string in an array of `IFNAMSIZ` bytes. -/
structure IfNet where
  xname : List (BitVec 8)
  short : xname.length < 16
  noNul : 0#8 ∉ xname

/-- An Ethernet header: its first three words and its type. -/
structure Ether where
  word : Fin 3 → BitVec 32
  etherType : BitVec 16

/-- `struct in6_addr`, as four words. -/
structure In6Addr where
  w0 : BitVec 32
  w1 : BitVec 32
  w2 : BitVec 32
  w3 : BitVec 32
  deriving DecidableEq, Repr, Inhabited

/-- `APPLY_MASK`. -/
def In6Addr.applyMask (a mask : In6Addr) : In6Addr :=
  ⟨a.w0 &&& mask.w0, a.w1 &&& mask.w1, a.w2 &&& mask.w2, a.w3 &&& mask.w3⟩

/-- `struct ipfw_flow_id`. -/
structure FlowId where
  dstIp : BitVec 32
  srcIp : BitVec 32
  dstPort : BitVec 16
  srcPort : BitVec 16
  fib : BitVec 8
  proto : BitVec 8
  flags : BitVec 8
  addrType : BitVec 8
  dstIp6 : In6Addr
  srcIp6 : In6Addr
  flowId6 : BitVec 32
  extra : BitVec 32
  deriving Inhabited

/-- A packet, and what `ipfw_chk` has found in its headers: its bytes from the start of the IP
header on, and the variables that do not change any more when the first rule is evaluated. `ulp` is
the offset of the upper layer header. -/
structure Hdr where
  byte : ℕ → BitVec 8
  eh : Option Ether
  oif : Option IfNet
  rcvif : Option IfNet
  mcast : Bool
  hlen : ℕ
  offset : BitVec 16
  proto : BitVec 8
  srcPort : BitVec 16
  dstPort : BitVec 16
  srcIp : BitVec 32
  dstIp : BitVec 32
  iplen : BitVec 16
  pktlen : BitVec 32
  ulp : Option ℕ
  isIpv4 : Bool
  isIpv6 : Bool
  icmp6Type : BitVec 8
  extHd : BitVec 16
  fId : FlowId
  deriving Inhabited

/-- A tag of a packet, `struct m_tag`. -/
structure MTag where
  cookie : BitVec 32
  id : BitVec 16
  deriving DecidableEq, Repr

/-- `MTAG_IPFW`. -/
def mtagIpfw : BitVec 32 := 1148380143#32

/-- `m_tag_locate`, which looks at the first tag only. -/
def mTagLocate (tags : List MTag) (n x : BitVec 32) : Option MTag :=
  match tags with
  | [] => none
  | tag :: _ => if tag.cookie ≠ n ∨ tag.id.setWidth 32 ≠ x then none else some tag

/-- `m_tag_delete`, which does nothing. -/
def mTagDelete (tags : List MTag) (_ : MTag) : List MTag := tags

/-- `m_tag_alloc`. -/
def mTagAlloc (cookie type : BitVec 32) : MTag := ⟨cookie, type.setWidth 16⟩

/-! ### The interpreter -/

/-- What `ipfw_chk` returns. -/
inductive Verdict
  | pass | deny | divert | tee | dummynet | netgraph | ngtee | nat | reass
  deriving DecidableEq, Repr, Inhabited

/-- `dyn_dir`. -/
inductive Dir
  | reverse | forward | none | unknown
  deriving DecidableEq, Repr, Inhabited

/-- Where `args->next_hop` points to: the address in the rule, or the one in `hopstore`, which is
the value of a table. -/
inductive NextHop
  | rule (f : RulePtr) (cmd : ℕ)
  | hopstore (addr : BitVec 32)
  deriving DecidableEq, Repr

/-- `args->rule`, without `info`. -/
structure RuleRef where
  chainId : BitVec 32
  slot : ℕ
  ruleId : BitVec 32
  rulenum : BitVec 16
  deriving DecidableEq, Repr

/-- The counters of a rule. -/
structure Stats where
  pcnt : BitVec 64
  bcnt : BitVec 64
  timestamp : BitVec 32
  deriving DecidableEq, Repr, Inhabited

/-- The code that `ipfw_chk` calls, and the variables that it reads. `Δ` are the tables of the
dynamic rules. What random numbers are drawn and whether `malloc` succeeds depends on the number of
instructions that have been looked at before. -/
structure Env (Δ : Type) where
  /-- Whether `linux_lookup` finds a socket, and what is in `ucred_cache` after it. -/
  linuxLookup : Bool
  uid : BitVec 32
  gid : BitVec 32
  xid : BitVec 32
  /-- `ipfw_lookup_table`. -/
  lookupTable : BitVec 16 → BitVec 32 → Option (BitVec 32)
  /-- `INADDR_TO_IFP` and `search_ip6_addr_net`. -/
  inaddrToIfp : BitVec 32 → Bool
  searchIp6AddrNet : In6Addr → Bool
  verifyPath : BitVec 32 → Option IfNet → BitVec 8 → Bool
  verifyPath6 : In6Addr → Option IfNet → Bool
  inLocaladdr : BitVec 32 → Bool
  in6Localaddr : In6Addr → Bool
  ipsec : Bool
  random : ℕ → BitVec 32
  malloc : ℕ → Bool
  /-- The queue of the tag that `pf_find_mtag` finds, and whether `pf_get_mtag` yields one. -/
  pfFindMtag : Option (BitVec 32)
  pfGetMtag : Bool
  /-- `ipfw_lookup_dyn_rule`, of which the rule of the entry is used. -/
  lookupDynRule : FlowId → Option (BitVec 32) → Δ → Option RulePtr × Dir × Δ
  /-- `ipfw_install_state`: whether it fails. -/
  installState : RulePtr → Opcode → BitVec 32 → FlowId → BitVec 32 → Δ → Bool × Δ
  natLoaded : Bool
  lookupNat : BitVec 32 → Option (BitVec 64)
  ipfwNat : BitVec 64 → Verdict
  /-- Whether `ip_reass` yields a packet. -/
  ipReass : Bool
  fwVerbose : Bool
  fwOnePass : Bool
  setDisable : BitVec 32
  timeUptime : BitVec 32
  deriving Inhabited

/-- Where `ipfw_chk` is: at the head of the outer loop, at the head of the inner loop, or done. -/
inductive Pc
  | outer | inner | exit | panic
  deriving DecidableEq, Repr, Inhabited

/-- The local variables of `ipfw_chk` that change while it evaluates rules, and what it writes.
`words` are the instructions of the rules, and `cache` are `x_next` and `next_rule` of a rule, as
`O_SKIPTO` uses them. -/
structure Chk (Δ : Type) where
  pc : Pc
  words : RulePtr → ℕ → BitVec 32
  cache : RulePtr → BitVec 32 × ℕ
  stats : RulePtr → Stats
  fPos : ℕ
  f : RulePtr
  cmd : ℕ
  l : ℤ
  cmdlen : ℕ
  skipOr : Bool
  matched : Bool
  tablearg : BitVec 32
  retval : Verdict
  done : Bool
  dynDir : Dir
  q : Option RulePtr
  dyn : Δ
  tags : List MTag
  altq : Option (BitVec 32)
  fib : BitVec 8
  info : BitVec 32
  ref : Option RuleRef
  nextHop : Option NextHop
  /-- The code of the reject notice that is sent. -/
  rejected : Option (BitVec 16)
  tick : ℕ
  deriving Inhabited

/-- What the interpreter reads or writes: word `i` of the instruction at `cmd` of the rule `f`, or a
byte of the packet. -/
inductive Loc
  | word (f : RulePtr) (cmd i : ℕ)
  | byte (i : ℕ)
  deriving DecidableEq, Repr

/-- A part of the interpreter, with the locations it accesses. -/
abbrev Ev (Δ : Type) := Reads Loc (Chk Δ)

variable {Δ : Type}

/-- Word `i` of the current instruction. -/
def word (i : ℕ) : Ev Δ (BitVec 32) :=
  Reads.read (fun s => .word s.f s.cmd i) fun s => s.words s.f (s.cmd + i)

/-- Byte `i` of the packet. -/
def byte (k : Hdr) (i : ℕ) : Ev Δ (BitVec 8) := Reads.read (fun _ => .byte i) fun _ => k.byte i

/-- Two bytes of the packet, in host order if the machine stores the low byte first. -/
def half (k : Hdr) (i : ℕ) : Ev Δ (BitVec 16) := do
  let a ← byte k i
  let b ← byte k (i + 1)
  return b ++ a

/-- Four bytes of the packet. -/
def quad (k : Hdr) (i : ℕ) : Ev Δ (BitVec 32) := do
  let a ← half k i
  let b ← half k (i + 2)
  return b ++ a

/-- `ntohs`. -/
def ntohs (x : BitVec 16) : BitVec 16 := x.extractLsb' 0 8 ++ x.extractLsb' 8 8

/-- `htonl` and `ntohl`. -/
def htonl (x : BitVec 32) : BitVec 32 :=
  x.extractLsb' 0 8 ++ x.extractLsb' 8 8 ++ x.extractLsb' 16 8 ++ x.extractLsb' 24 8

/-- `p[0]` of a pair of 16-bit values. -/
def lo16 (w : BitVec 32) : BitVec 16 := w.extractLsb' 0 16

/-- `p[1]` of a pair of 16-bit values. -/
def hi16 (w : BitVec 32) : BitVec 16 := w.extractLsb' 16 16

/-- `IP_FW_TABLEARG`. -/
def ipFwTablearg : BitVec 16 := 65535#16

/-- The argument of an instruction, or the value of a table. -/
def Chk.arg (s : Chk Δ) (c : Insn) : BitVec 32 :=
  if c.arg1 = ipFwTablearg then s.tablearg else c.arg1.setWidth 32

/-- `IPPROTO_ICMP`. -/
def ipprotoIcmp : BitVec 8 := 1#8

/-- `IPPROTO_TCP`. -/
def ipprotoTcp : BitVec 8 := 6#8

/-- `IPPROTO_UDP`. -/
def ipprotoUdp : BitVec 8 := 17#8

/-- `IPPROTO_ICMPV6`. -/
def ipprotoIcmpv6 : BitVec 8 := 58#8

/-- The offset that `ulp` points to. -/
def Hdr.ulpOfs (k : Hdr) : ℕ := k.ulp.getD 0

/-- The packet has the header of a protocol, and is not a later fragment. -/
def Hdr.is (k : Hdr) (p : BitVec 8) : Bool := k.proto == p && k.offset == 0#16

end Ipfw
