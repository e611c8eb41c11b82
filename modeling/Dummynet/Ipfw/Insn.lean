import Mathlib

/-!
# Rules and their check

A rule is an array of 32-bit words that holds a sequence of instructions. `checkIpfwStruct` is the
check of a rule that user space adds.

## Main definitions

* `Opcode`, `Insn`: the opcodes, and the header word of an instruction.
* `IpFw`: a rule.
* `checkInsn`, `checkIpfwStruct`: the check of one instruction and of a rule.
-/

namespace Ipfw

/-- `enum ipfw_opcodes`. -/
inductive Opcode
  | nop
  | ipSrc | ipSrcMask | ipSrcMe | ipSrcSet
  | ipDst | ipDstMask | ipDstMe | ipDstSet
  | ipSrcport | ipDstport | proto
  | macaddr2 | macType
  | layer2 | in_ | frag
  | recv | xmit | via
  | ipopt | iplen | ipid
  | iptos | ipprecedence | ipttl
  | ipver | uid | gid | estab | tcpflags | tcpwin | tcpseq | tcpack | icmptype | tcpopts
  | verrevpath | versrcreach
  | probeState | keepState | limit | limitParent
  | log | prob
  | checkState | accept | deny | reject | count | skipto | pipe | queue | divert | tee
  | forwardIp | forwardMac | nat | reass
  | ipsec | ipSrcLookup | ipDstLookup | antispoof | jail | altq | diverted | tcpdatalen
  | ip6Src | ip6SrcMe | ip6SrcMask | ip6Dst | ip6DstMe | ip6DstMask | flow6id | icmp6type
  | extHdr | ip6
  | netgraph | ngtee
  | ip4
  | unreach6
  | tag | tagged
  | setfib | fib
  | sockarg
  | callreturn
  | forwardIp6
  deriving DecidableEq, Repr

/-- The opcodes in their order. -/
def Opcode.all : List Opcode :=
  [.nop, .ipSrc, .ipSrcMask, .ipSrcMe, .ipSrcSet, .ipDst, .ipDstMask, .ipDstMe, .ipDstSet,
    .ipSrcport, .ipDstport, .proto, .macaddr2, .macType, .layer2, .in_, .frag, .recv, .xmit, .via,
    .ipopt, .iplen, .ipid, .iptos, .ipprecedence, .ipttl, .ipver, .uid, .gid, .estab, .tcpflags,
    .tcpwin, .tcpseq, .tcpack, .icmptype, .tcpopts, .verrevpath, .versrcreach, .probeState,
    .keepState, .limit, .limitParent, .log, .prob, .checkState, .accept, .deny, .reject, .count,
    .skipto, .pipe, .queue, .divert, .tee, .forwardIp, .forwardMac, .nat, .reass, .ipsec,
    .ipSrcLookup, .ipDstLookup, .antispoof, .jail, .altq, .diverted, .tcpdatalen, .ip6Src,
    .ip6SrcMe, .ip6SrcMask, .ip6Dst, .ip6DstMe, .ip6DstMask, .flow6id, .icmp6type, .extHdr, .ip6,
    .netgraph, .ngtee, .ip4, .unreach6, .tag, .tagged, .setfib, .fib, .sockarg, .callreturn,
    .forwardIp6]

/-- The header of an instruction, `ipfw_insn`. No opcode is the value of a byte that is not in the
enumeration. -/
structure Insn where
  opcode : Option Opcode
  len : BitVec 8
  arg1 : BitVec 16
  deriving DecidableEq, Repr

/-- The header in the first word of an instruction: the opcode in its first byte, the length in the
second and `arg1` in the upper half. -/
def Insn.ofWord (w : BitVec 32) : Insn where
  opcode := Opcode.all[(w.extractLsb' 0 8).toNat]?
  len := w.extractLsb' 8 8
  arg1 := w.extractLsb' 16 16

/-- The header word of an instruction, as user space compiles it. -/
def Opcode.word (op : Opcode) (len arg1 : ℕ) : BitVec 32 :=
  BitVec.ofNat 32 (Opcode.all.idxOf op + len * 2 ^ 8 + arg1 * 2 ^ 16)

/-- `F_LEN`. -/
def Insn.fLen (c : Insn) : ℕ := (c.len &&& 0x3f#8).toNat

/-- `F_NOT`. -/
def Insn.fNot (c : Insn) : Bool := c.len &&& 0x80#8 != 0#8

/-- `F_OR`. -/
def Insn.fOr (c : Insn) : Bool := c.len &&& 0x40#8 != 0#8

/-- `struct ip_fw`, without its list pointers and counters. What follows the rule in memory are the
words from `cmdLen` on. -/
structure IpFw where
  actOfs : BitVec 16
  cmdLen : BitVec 16
  rulenum : BitVec 16
  set : BitVec 8
  id : BitVec 32
  cmd : ℕ → BitVec 32
  deriving Inhabited

namespace IpFw

/-- The header of the instruction at `p`. -/
def insn (r : IpFw) (p : ℕ) : Insn := Insn.ofWord (r.cmd p)

/-- `sizeof(struct ip_fw)`, with one word of instructions. -/
def sizeofIpFw : ℕ := 56

/-- `RULESIZE`. -/
def ruleSize (r : IpFw) : ℕ := sizeofIpFw + r.cmdLen.toNat * 4 - 4

end IpFw

/-! ### The check -/

/-- What the check of a rule depends on: the number of FIBs, whether forwarding is compiled in, and
which modules are loaded. -/
structure Kernel where
  rtNumfibs : ℕ
  ipfirewallForward : Bool
  ipDivert : Bool
  ngIpfwInput : Bool
  natLoaded : Bool
  deriving Inhabited

/-- The errors of the check. -/
inductive CheckErr
  | tooShort | sizeMismatch | actOfs | truncated | badSize | fib | setSize | table
  | notSupported | multipleActions | actionNotLast | unknownOpcode | missingAction
  deriving DecidableEq, Repr

/-- Whether the check takes an opcode for a part of the pattern or for an action. -/
inductive CheckClass
  | pattern | action
  deriving DecidableEq, Repr

/-- Requires a condition. -/
def require (c : Bool) (e : CheckErr) : Except CheckErr Unit := if c then .ok () else .error e

/-- `IPFW_TABLES_MAX`. -/
def tablesMax : ℕ := 128

/-- The switch of the check on the opcode of the instruction `c`: its size, and whether it is an
action. The sizes are in words: 2 for `ipfw_insn_u32`, `ipfw_insn_limit` and `ipfw_insn_altq`, 3 for
`ipfw_insn_log`, 7 for `ipfw_insn_mac`, 6 for `ipfw_insn_if`, 5 for `ipfw_insn_sa`, 4 for
`ipfw_insn_nat` and `struct in6_addr`, and 8 for `ipfw_insn_icmp6`. -/
def checkInsn (K : Kernel) (c : Insn) : Except CheckErr CheckClass :=
  match c.opcode with
  | some .probeState | some .keepState | some .proto | some .ipSrcMe | some .ipDstMe
  | some .layer2 | some .in_ | some .frag | some .diverted | some .ipopt | some .iptos
  | some .ipprecedence | some .ipver | some .tcpwin | some .tcpflags | some .tcpopts | some .estab
  | some .verrevpath | some .versrcreach | some .antispoof | some .ipsec | some .ip6SrcMe
  | some .ip6DstMe | some .extHdr | some .ip6 | some .ip4 | some .tag => do
    require (c.fLen == 1) .badSize
    return .pattern
  | some .fib => do
    require (c.fLen == 1) .badSize
    require (c.arg1.toNat < K.rtNumfibs) .fib
    return .pattern
  | some .setfib => do
    require (c.fLen == 1) .badSize
    require (c.arg1.toNat < K.rtNumfibs) .fib
    return .action
  | some .uid | some .gid | some .jail | some .ipSrc | some .ipDst | some .tcpseq | some .tcpack
  | some .prob | some .icmptype => do
    require (c.fLen == 2) .badSize
    return .pattern
  | some .limit => do
    require (c.fLen == 2) .badSize
    return .pattern
  | some .log => do
    require (c.fLen == 3) .badSize
    return .pattern
  | some .ipSrcMask | some .ipDstMask => do
    require (c.fLen % 2 == 1 && c.fLen ≤ 31) .badSize
    return .pattern
  | some .ipSrcSet | some .ipDstSet => do
    require (c.arg1 != 0 && c.arg1.toNat ≤ 256) .setSize
    require (c.fLen == 2 + (c.arg1.toNat + 31) / 32) .badSize
    return .pattern
  | some .ipSrcLookup | some .ipDstLookup => do
    require (c.arg1.toNat < tablesMax) .table
    require (c.fLen == 1 || c.fLen == 3 || c.fLen == 2) .badSize
    return .pattern
  | some .macaddr2 => do
    require (c.fLen == 7) .badSize
    return .pattern
  | some .nop | some .ipid | some .ipttl | some .iplen | some .tcpdatalen | some .tagged => do
    require (1 ≤ c.fLen && c.fLen ≤ 31) .badSize
    return .pattern
  | some .macType | some .ipSrcport | some .ipDstport => do
    require (2 ≤ c.fLen && c.fLen ≤ 31) .badSize
    return .pattern
  | some .recv | some .xmit | some .via => do
    require (c.fLen == 6) .badSize
    return .pattern
  | some .altq => do
    require (c.fLen == 2) .badSize
    return .pattern
  | some .pipe | some .queue => do
    require (c.fLen == 1) .badSize
    return .action
  | some .forwardIp => do
    require K.ipfirewallForward .notSupported
    require (c.fLen == 5) .badSize
    return .action
  | some .divert | some .tee => do
    require K.ipDivert .notSupported
    require (c.fLen == 1) .badSize
    return .action
  | some .netgraph | some .ngtee => do
    require K.ngIpfwInput .notSupported
    require (c.fLen == 1) .badSize
    return .action
  | some .nat => do
    require K.natLoaded .notSupported
    require (c.fLen == 4) .badSize
    return .action
  | some .forwardMac | some .checkState | some .count | some .accept | some .deny | some .reject
  | some .unreach6 | some .skipto | some .reass => do
    require (c.fLen == 1) .badSize
    return .action
  | some .ip6Src | some .ip6Dst => do
    require (c.fLen == 5) .badSize
    return .pattern
  | some .flow6id => do
    require (c.fLen == 2 + c.arg1.toNat) .badSize
    return .pattern
  | some .ip6SrcMask | some .ip6DstMask => do
    require (c.fLen % 2 == 1 && c.fLen ≤ 127) .badSize
    return .pattern
  | some .icmp6type => do
    require (c.fLen == 8) .badSize
    return .pattern
  | some .limitParent | some .sockarg | some .callreturn | some .forwardIp6 | none =>
    .error .unknownOpcode

/-- An accepted instruction is not empty. -/
theorem fLen_pos_of_checkInsn {K : Kernel} {c : Insn} {x : CheckClass}
    (h : checkInsn K c = .ok x) : 0 < c.fLen := by
  unfold checkInsn at h
  have hreq : ∀ {b : Bool} {e : CheckErr} {y : Except CheckErr CheckClass},
      (do require b e; y) = .ok x → b = true ∧ y = .ok x := by
    intro b e y hy
    cases b
    · cases hy
    · exact ⟨rfl, hy⟩
  split at h
  all_goals first
    | (obtain ⟨h1, h⟩ := hreq h
       first
       | (simp at h1; omega)
       | (obtain ⟨h2, h⟩ := hreq h
          simp at h2
          omega))
    | cases h

/-- The loop of the check, with `l` words left at `p`. An `O_LOG` gets its `log_left` from its
`max_log`. The first argument bounds `l`. -/
def checkLoop (K : Kernel) : ℕ → (cmd : ℕ → BitVec 32) → (l p : ℕ) → (haveAction : Bool) →
    Except CheckErr (ℕ → BitVec 32)
  | 0, cmd, _, _, haveAction => do
    require haveAction .missingAction
    return cmd
  | n + 1, cmd, l, p, haveAction =>
    if l = 0 then do
      require haveAction .missingAction
      return cmd
    else do
      let c := Insn.ofWord (cmd p)
      require (c.fLen ≤ l) .truncated
      match ← checkInsn K c with
      | .pattern =>
        let cmd' := if c.opcode = some .log then Function.update cmd (p + 2) (cmd (p + 1)) else cmd
        checkLoop K n cmd' (l - c.fLen) (p + c.fLen) haveAction
      | .action =>
        require (!haveAction) .multipleActions
        require (l == c.fLen) .actionNotLast
        checkLoop K n cmd (l - c.fLen) (p + c.fLen) true

/-- `check_ipfw_struct`: the rule, with its `log_left` fields set, if it is accepted. -/
def checkIpfwStruct (K : Kernel) (r : IpFw) (size : ℕ) : Except CheckErr IpFw := do
  require (IpFw.sizeofIpFw ≤ size) .tooShort
  require (r.ruleSize == size) .sizeMismatch
  require (r.actOfs.toNat < r.cmdLen.toNat) .actOfs
  let cmd ← checkLoop K r.cmdLen.toNat r.cmd r.cmdLen.toNat 0 false
  return { r with cmd := cmd }

end Ipfw
