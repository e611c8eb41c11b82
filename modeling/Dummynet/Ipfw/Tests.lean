import Dummynet.Ipfw.State

/-!
# The opcodes that test a packet

The first set of opcodes of `ipfw_chk` compares fields of the packet with a pattern. Each test is a
computation that records the words of the instruction and the bytes of the packet that it reads.

## Main definitions

* `ifaceMatch`, `flagsMatch`, `ipoptsMatch`, `tcpoptsMatch`: the functions that `ipfw_chk` calls.
* `portsLoop`, `maskLoop`, `mask6Loop`: the loops over ranges and over masked addresses.
* `rangesTest`, `protoTest`, `ipv4Test`, `ipv6Test`: families of tests.
* `setTest`, `lookupTest`: the tests of an address against a set or a table.
-/

namespace Ipfw

variable {Δ : Type}

/-! ### Helper functions -/

/-- `flags_match`. -/
def flagsMatch (c : Insn) (bits : BitVec 8) : Bool :=
  let bits := ~~~ bits
  if c.arg1.extractLsb' 0 8 &&& bits ≠ 0#8 then false
  else
    let wantClear := c.arg1.extractLsb' 8 8
    wantClear &&& bits == wantClear

/-- The test of a bit by its number, with the shift of a 32-bit machine. -/
def testBit (w : BitVec 32) (n : ℕ) : Bool := w.getLsbD (n % 32)

/-- `ICMP_MAXTYPE`. -/
def icmpMaxtype : ℕ := 40

/-- `ICMP6_MAXTYPE`. -/
def icmp6Maxtype : ℕ := 201

/-- `icmptype_match`. -/
def icmptypeMatch (k : Hdr) : Ev Δ Bool := do
  let type ← byte k k.ulpOfs
  if type.toNat ≤ icmpMaxtype then
    let d ← word 1
    return testBit d type.toNat
  else return false

/-- The ICMP types of queries: `ICMP_ECHO`, `ICMP_ROUTERSOLICIT`, `ICMP_TSTAMP`, `ICMP_IREQ` and
`ICMP_MASKREQ`. -/
def icmpQueries : List ℕ := [8, 10, 13, 15, 17]

/-- `is_icmp_query`. -/
def isIcmpQuery (k : Hdr) : Ev Δ Bool := do
  let type ← byte k k.ulpOfs
  return decide (type.toNat ≤ icmpMaxtype) && icmpQueries.contains (type.toNat % 32)

/-- `is_icmp6_query`: the types of `ICMP6_ECHO_REQUEST`, `ICMP6_MEMBERSHIP_QUERY` and
`ICMP6_WRUREQUEST`, which is also that of the other two. -/
def isIcmp6Query (type : BitVec 8) : Bool :=
  decide (type.toNat ≤ icmp6Maxtype) && [128, 130, 139].contains type.toNat

/-- `icmp6type_match`. -/
def icmp6typeMatch (type : BitVec 8) : Ev Δ Bool :=
  if type.toNat ≤ icmp6Maxtype then do
    let d ← word (1 + type.toNat / 32)
    return testBit d (type.toNat % 32)
  else return false

/-- The loop of `flow6id_match` over the `n` values from word `p` on. -/
def flow6idLoop (currFlow : BitVec 32) : ℕ → ℕ → Ev Δ Bool
  | 0, _ => return false
  | n + 1, p => do
    let d ← word p
    if currFlow = d then return true else flow6idLoop currFlow n (p + 1)

/-- `flow6id_match`. -/
def flow6idMatch (currFlow : BitVec 32) (c : Insn) : Ev Δ Bool :=
  flow6idLoop currFlow (c.arg1.toNat + 1) 1

/-- Byte `j` of the name in an `ipfw_insn_if`. -/
def nameByte (j : ℕ) : Ev Δ (BitVec 8) := do
  let w ← word (2 + j / 4)
  return w.extractLsb' (8 * (j % 4)) 8

/-- `fnmatch` of the pattern from byte `j` of the name on with a string. -/
def fnmatch : List (BitVec 8) → ℕ → Ev Δ Bool
  | [], j => do
    let p ← nameByte j
    return p == 0#8 || p == 42#8
  | s :: string, j => do
    let p ← nameByte j
    if p = 0#8 then return false
    else if p = 42#8 then return true
    else if p = 46#8 ∨ p = s then fnmatch string (j + 1)
    else return false

/-- `strncmp` of a string with the name from its byte `j` on. -/
def strncmp : List (BitVec 8) → ℕ → Ev Δ Bool
  | [], j => do
    let p ← nameByte j
    return p == 0#8
  | s :: string, j => do
    let p ← nameByte j
    if p = s then strncmp string (j + 1) else return false

/-- `iface_match`, which outside FreeBSD matches by name only. -/
def ifaceMatch (ifp : Option IfNet) : Ev Δ Bool :=
  match ifp with
  | none => return false
  | some ifp => do
    let c ← nameByte 0
    if c ≠ 0#8 then
      let glob ← word 1
      if glob ≠ 0#32 then fnmatch ifp.xname 0 else strncmp ifp.xname 0
    else return false

/-- `cred_check` for the opcodes `O_UID`, `O_GID` and `O_JAIL`. -/
def credCheck (E : Env Δ) (c : Insn) : Ev Δ Bool :=
  if E.linuxLookup then
    match c.opcode with
    | some .uid => do
      let d ← word 1
      return E.uid == d
    | some .jail => do
      let d ← word 1
      return E.xid == d
    | some .gid => do
      let d ← word 1
      return E.gid == d
    | _ => return false
  else return false

/-! ### Options -/

/-- The bit of an IP option: `IPOPT_LSRR`, `IPOPT_SSRR`, `IPOPT_RR` and `IPOPT_TS`. -/
def ipoptBit (opt : BitVec 8) : BitVec 8 :=
  if opt = 131#8 then 0x01#8 else if opt = 137#8 then 0x02#8
  else if opt = 7#8 then 0x04#8 else if opt = 68#8 then 0x08#8 else 0#8

/-- The loop of `ipopts_match` over the `x` bytes from `cp` on. It fails for an option that is
invalid or truncated. The first argument bounds `x`. -/
def ipoptsLoop (k : Hdr) : ℕ → (x cp : ℕ) → BitVec 8 → Ev Δ (Option (BitVec 8))
  | 0, _, _, bits => return some bits
  | n + 1, x, cp, bits =>
    if 0 < x then do
      let opt ← byte k cp
      if opt = 0#8 then return some bits
      else if opt = 1#8 then ipoptsLoop k n (x - 1) (cp + 1) (bits ||| ipoptBit opt)
      else
        let optlen ← byte k (cp + 1)
        if optlen = 0#8 ∨ x < optlen.toNat then return none
        else ipoptsLoop k n (x - optlen.toNat) (cp + optlen.toNat) (bits ||| ipoptBit opt)
    else return some bits

/-- `ipopts_match`. -/
def ipoptsMatch (k : Hdr) (c : Insn) : Ev Δ Bool := do
  let hl ← byte k 0
  let x := (hl.extractLsb' 0 4).toNat * 4 - 20
  match ← ipoptsLoop k x x 20 0#8 with
  | none => return false
  | some bits => return flagsMatch c bits

/-- The bit of a TCP option: `TCPOPT_MAXSEG`, `TCPOPT_WINDOW`, `TCPOPT_SACK_PERMITTED` or
`TCPOPT_SACK`, and `TCPOPT_TIMESTAMP`. -/
def tcpoptBit (opt : BitVec 8) : BitVec 8 :=
  if opt = 2#8 then 0x01#8 else if opt = 3#8 then 0x02#8
  else if opt = 4#8 ∨ opt = 5#8 then 0x04#8 else if opt = 8#8 then 0x08#8 else 0#8

/-- The loop of `tcpopts_match` over the `x` bytes from `cp` on. The first argument bounds `x`. -/
def tcpoptsLoop (k : Hdr) : ℕ → (x cp : ℕ) → BitVec 8 → Ev Δ (BitVec 8)
  | 0, _, _, bits => return bits
  | n + 1, x, cp, bits =>
    if 0 < x then do
      let opt ← byte k cp
      if opt = 0#8 then return bits
      else if opt = 1#8 then tcpoptsLoop k n (x - 1) (cp + 1) (bits ||| tcpoptBit opt)
      else
        let optlen ← byte k (cp + 1)
        if optlen = 0#8 then return bits
        else tcpoptsLoop k n (x - optlen.toNat) (cp + optlen.toNat) (bits ||| tcpoptBit opt)
    else return bits

/-- `tcpopts_match`. -/
def tcpoptsMatch (k : Hdr) (c : Insn) : Ev Δ Bool := do
  let off ← byte k (k.ulpOfs + 12)
  let x := (off.extractLsb' 4 4).toNat * 4 - 20
  let bits ← tcpoptsLoop k x x (k.ulpOfs + 20) 0#8
  return flagsMatch c bits

/-! ### Loops over operands -/

/-- The loop over the `i` ranges from word `p` on: whether `x` is in one. -/
def portsLoop (x : BitVec 16) : (i p : ℕ) → Ev Δ Bool
  | 0, _ => return false
  | i + 1, p => do
    let w ← word p
    if lo16 w ≤ x ∧ x ≤ hi16 w then return true else portsLoop x i (p + 1)

/-- The loop over the addresses and masks in the `i` words from word `p` on. -/
def maskLoop (a : BitVec 32) : (i p : ℕ) → Ev Δ Bool
  | 0, _ => return false
  | 1, p => do
    let p0 ← word p
    let p1 ← word (p + 1)
    return p0 == a &&& p1
  | i + 2, p => do
    let p0 ← word p
    let p1 ← word (p + 1)
    if p0 = a &&& p1 then return true else maskLoop a i (p + 2)

/-- The IPv6 address from word `p` on. -/
def in6 (p : ℕ) : Ev Δ In6Addr := do
  let a ← word p
  let b ← word (p + 1)
  let c ← word (p + 2)
  let d ← word (p + 3)
  return ⟨a, b, c, d⟩

/-- The loop over IPv6 addresses and masks, from word `d` on. It goes on while `i` is positive, and
`i` falls by 8 in each of the `n` rounds. -/
def mask6Loop (a : In6Addr) : (n d : ℕ) → Ev Δ Bool
  | 0, _ => return false
  | n + 1, d => do
    let mask ← in6 (d + 4)
    let addr ← in6 d
    if addr = a.applyMask mask then return true else mask6Loop a n (d + 8)

/-- The number of rounds of the loop over IPv6 addresses, which starts with `i`. -/
def mask6Rounds (i : ℕ) : ℕ := (i + 7) / 8

/-! ### Families of tests -/

/-- The test of a 16-bit value: of `arg1`, or of ranges in a longer instruction. -/
def rangesTest (c : Insn) (x : BitVec 16) : Ev Δ Bool :=
  if c.fLen = 1 then return c.arg1 == x else portsLoop x (c.fLen - 1) 1

/-- A test of the header of a protocol. -/
def protoTest (k : Hdr) (p : BitVec 8) (x : Ev Δ Bool) : Ev Δ Bool :=
  if k.is p then x else return false

/-- A test of an IPv4 header. -/
def ipv4Test (k : Hdr) (x : Ev Δ Bool) : Ev Δ Bool := if k.isIpv4 then x else return false

/-- A test of an IPv6 header. -/
def ipv6Test (k : Hdr) (x : Ev Δ Bool) : Ev Δ Bool := if k.isIpv6 then x else return false

/-- The test of the Ethernet addresses, `O_MACADDR2`. -/
def macaddr2Test (h : Ether) : Ev Δ Bool := do
  let w0 ← word 1
  let m0 ← word 4
  if w0 = h.word 0 &&& m0 then
    let w1 ← word 2
    let m1 ← word 5
    if w1 = h.word 1 &&& m1 then
      let w2 ← word 3
      let m2 ← word 6
      return w2 == h.word 2 &&& m2
    else return false
  else return false

/-- The test whether an address is in a set, `O_IP_SRC_SET` and `O_IP_DST_SET`. -/
def setTest (c : Insn) (addr : BitVec 32) : Ev Δ Bool := do
  let base ← word 1
  if addr < base then return false
  else
    let addr := addr - base
    if addr < c.arg1.setWidth 32 then
      let d ← word (2 + addr.toNat / 32)
      return testBit d addr.toNat
    else return false

/-- The size of the data of a TCP segment, as `O_TCPDATALEN` computes it. -/
def tcpDatalen (k : Hdr) : Ev Δ (BitVec 16) := do
  let hl ← byte k 0
  let off ← byte k (k.ulpOfs + 12)
  return k.iplen - BitVec.ofNat 16 (((hl.extractLsb' 0 4).toNat + (off.extractLsb' 4 4).toNat) * 4)

/-- The loop of `O_TAGGED` over the tags of the packet. -/
def taggedLoop (c : Insn) : List MTag → Ev Δ Bool
  | [] => return false
  | mtag :: tags =>
    if mtag.cookie ≠ mtagIpfw then taggedLoop c tags
    else do
      if ← portsLoop mtag.id (c.fLen - 1) 1 then return true else taggedLoop c tags

/-- The key of a lookup in a table, which depends on the word `v` of the instruction. Without a key
there is no lookup. -/
def lookupKey (E : Env Δ) (k : Hdr) (v : BitVec 32) : Ev Δ (Option (BitVec 32)) :=
  if v = 0#32 then return some k.dstIp
  else if v = 1#32 then return some k.srcIp
  else if v = 6#32 then do
    let tos ← byte k 1
    return some ((tos.setWidth 32 >>> 2) &&& 0x3f#32)
  else if k.offset ≠ 0#16 then return none
  else if k.proto ≠ ipprotoTcp ∧ k.proto ≠ ipprotoUdp then return none
  else if v = 2#32 then return some (htonl (k.dstPort.setWidth 32))
  else if v = 3#32 then return some (htonl (k.srcPort.setWidth 32))
  else if v = 4#32 then return some (htonl E.uid)
  else if v = 5#32 then return some (htonl E.xid)
  else return none

/-- The key that an instruction asks for. -/
def lookupKeyOf (E : Env Δ) (k : Hdr) (c : Insn) : Ev Δ (Option (BitVec 32)) :=
  if 2 < c.fLen then do
    let v ← word 2
    lookupKey E k v
  else return some (if c.opcode = some .ipDstLookup then k.dstIp else k.srcIp)

/-- What becomes of the value that is found: it is compared with the instruction, or it is the new
value of `tablearg`. -/
def lookupFound (c : Insn) (tablearg v : BitVec 32) : Ev Δ (Bool × BitVec 32) :=
  if c.fLen = 2 then do
    let d ← word 1
    return (d == v, tablearg)
  else return (true, v)

/-- The lookup in a table, `O_IP_SRC_LOOKUP` and `O_IP_DST_LOOKUP`: whether it matches, and the new
value of `tablearg`. -/
def lookupTest (E : Env Δ) (k : Hdr) (c : Insn) (tablearg : BitVec 32) :
    Ev Δ (Bool × BitVec 32) := do
  let key ← lookupKeyOf E k c
  match key.bind (E.lookupTable c.arg1) with
  | none => return (false, tablearg)
  | some v => lookupFound c tablearg v

end Ipfw
