import Dummynet.Ipfw.Hook
import Dummynet.Lib.Bytes

/-!
# The byte order of the IP header

`ip_len` and `ip_off` are in host order outside of the hook and in network order inside, on a machine
that stores the low byte first and without `HAVE_NET_IPLEN`. A packet goes from the stack through the
hook, the rounds of `ipfw_chk` and dummynet, any number of times. Its header in network order, `wire`, is
kept beside its bytes.

## Main definitions

* `setNetIplen`, `setHostIplen`.
* `Event`: a packet is given to a part of the kernel, or its header is converted.
* `Packet.Step`: what happens to a packet next.

## Main results

* `Journey.order_kept`: the order is the one that each part relies on, if no IPv6 packet is converted.
-/

namespace Ipfw

/-! ### The conversions -/

/-- `ip_v`. -/
def ipV (b : Bytes) : BitVec 4 := (b 0).extractLsb' 4 4

/-- `SET_NET_IPLEN`, in which `htons` is `ntohs`. -/
def setNetIplen (b : Bytes) : Bytes :=
  let b := b.store16 2 (ntohs (b.load16 2))
  b.store16 6 (ntohs (b.load16 6))

/-- `SET_HOST_IPLEN`. -/
def setHostIplen (b : Bytes) : Bytes :=
  let b := b.store16 2 (ntohs (b.load16 2))
  b.store16 6 (ntohs (b.load16 6))

/-- `IP_MF | IP_OFFMASK`, with the header in network order. -/
def isFragment (b : Bytes) : Bool := ntohs (b.load16 6) &&& 0x3fff#16 != 0#16

/-- The order of `ip_len` and `ip_off`. -/
inductive ByteOrder
  | net | host
  deriving DecidableEq

/-- The header `w`, which is in network order, in the order. -/
def ByteOrder.bytes : ByteOrder → Bytes → Bytes
  | .net, w => w
  | .host, w => setHostIplen w

/-- The parts of the kernel that are given a packet. `stack` is the caller of the hook. -/
inductive Party
  | ipfwChk | dummynetIo | stack | ipOutput | ip6Output | netisr | ipReass | icmpError | icmp6Error
  | divert | netgraph | nat

/-- The order that the part relies on. -/
def Party.order : Party → Option ByteOrder
  | .ipfwChk | .dummynetIo | .netisr => some .net
  | .stack | .ipOutput | .ipReass | .icmpError => some .host
  | .ip6Output | .icmp6Error | .divert | .netgraph | .nat => none

/-- A packet is given to a part of the kernel, or its header is converted by one of the macros. -/
inductive Event
  | given (p : Party) (bytes wire : Bytes)
  | set (bytes : Bytes)

/-- The order is the right one, and the macros do not change an IPv6 packet. -/
def Event.Ok : Event → Prop
  | .given p b w => ipV b = 4 → ∀ o, p.order = some o → b = o.bytes w
  | .set b => ipV b = 6 → setHostIplen b = b

/-- The start of the hook. -/
def hookEnter (b : Bytes) : List Event × Bytes :=
  if ipV b = 4 then ([.set b], setNetIplen b) else ([], b)

/-- The end of the hook. -/
def hookLeave (b : Bytes) : List Event × Bytes :=
  if ipV b = 4 then ([.set b], setHostIplen b) else ([], b)

/-! ### Instructions with a packet -/

/-- `ICMP_REJECT_RST`. -/
def icmpRejectRst : BitVec 16 := 0x100#16

/-- What an instruction does with the packet. -/
inductive PacketOp
  | none | reass | reject (code : BitVec 16) | reject6 | nat
  deriving DecidableEq

variable {Δ : Type}

/-- Whether `O_REJECT` calls `send_reject`. -/
def sendsReject (k : Hdr) (s : Chk Δ) : Bool :=
  (mayReject k).val s && !k.mcast && (htonl k.dstIp).extractLsb' 28 4 != 0xe#4

/-- Whether `O_UNREACH6` calls `send_reject6`. -/
def sendsReject6 (k : Hdr) : Bool :=
  decide (0 < k.hlen) && k.isIpv6 && (k.offset &&& 0xfff8#16 == 0#16)
    && (k.proto != ipprotoIcmpv6 || isIcmp6Query k.icmp6Type)
    && !k.mcast && k.fId.dstIp6.w0.extractLsb' 0 8 != 0xff#8

/-- Whether `O_NAT` finds an instance. -/
def findsNat (E : Env Δ) (c : Insn) (s : Chk Δ) : Bool :=
  E.natLoaded && (s.words s.f (s.cmd + 3) ++ s.words s.f (s.cmd + 2) != (0#64 : BitVec (32 + 32))
    || (E.lookupNat (s.arg c)).isSome)

/-- What the next round of `ipfw_chk` does with the packet. -/
def packetOp (E : Env Δ) (k : Hdr) (s : Chk Δ) : PacketOp :=
  if s.pc = .inner ∧ 0 < s.l ∧ s.skipOr = false then
    let c := Insn.ofWord (s.words s.f s.cmd)
    match c.opcode with
    | some .reass => if isFragment k.byte then .reass else .none
    | some .reject =>
      if sendsReject k s then .reject c.arg1 else if sendsReject6 k then .reject6 else .none
    | some .unreach6 => if sendsReject6 k then .reject6 else .none
    | some .nat => if findsNat E c s then .nat else .none
    | _ => .none
  else .none

/-- `send_reject`, which sends another packet for `ICMP_REJECT_RST`. -/
def sendReject (code : BitVec 16) (b w : Bytes) : List Event :=
  if code ≠ icmpRejectRst then [.set b, .given .icmpError (setHostIplen b) w] else []

/-! ### The way of a packet -/

/-- `dn_dir`: `DIR_OUT` or `DIR_IN`, and `PROTO_IPV6`. -/
structure DnDir where
  out : Bool
  ipv6 : Bool

/-- `dummynet_send`. -/
def dummynetSend (dst : DnDir) (b w : Bytes) : List Event × Bytes :=
  match dst.out, dst.ipv6 with
  | true, false => ([.set b, .given .ipOutput (setHostIplen b) w], setHostIplen b)
  | false, false => ([.given .netisr b w], b)
  | false, true => ([.given .netisr b w], b)
  | true, true => ([.set b, .given .ip6Output (setHostIplen b) w], setHostIplen b)

/-- The modules that the hook gives the packet to. `ipfw_divert` is apart. -/
def handed (O : Outer) (b w : Bytes) : Verdict → List Event
  | .dummynet =>
    if O.dnLoaded && (ipV b == 4#4 || ipV b == 6#4) then [.given .dummynetIo b w] else []
  | .tee => if O.divertLoaded then [.given .divert b w] else []
  | .ngtee | .netgraph => if O.ngLoaded then [.given .netgraph b w] else []
  | _ => []

/-- Where a packet is. In the hook, `out` is the direction. -/
inductive Place (Δ : Type)
  | stack
  | again (out : Bool) (h : Hook Δ)
  | chk (out : Bool) (h : Hook Δ) (E : Env Δ) (k : Hdr) (C : Chain) (s : Chk Δ)
  | dummynet (dst : DnDir)
  | gone

/-- A packet, with its header in network order. -/
structure Packet (Δ : Type) where
  place : Place Δ
  bytes : Bytes
  wire : Bytes

/-- The packet that the stack gives the hook, with an IPv4 header in host order. -/
def hostOrder (w : Bytes) : Bytes := if ipV w = 4 then setHostIplen w else w

/-- `ip_reass` keeps an IPv4 packet in host order. -/
def ReassKeeps (b w b' w' : Bytes) : Prop :=
  ipV b = 4 → b = setHostIplen w → ipV b' = 4 ∧ b' = setHostIplen w'

/-- `ipfw_nat` keeps a packet in network order. -/
def NatKeeps (b w b' w' : Bytes) : Prop := b = w → ipV b' = ipV b ∧ b' = w'

/-- What happens to a packet next. The rules, the tables and the other modules may be different ones in
each call of `ipfw_chk`. -/
inductive Packet.Step : Packet Δ → List Event → Packet Δ → Prop
  | enter {b w w' : Bytes} {out : Bool} {h : Hook Δ} : ipV w' = 4 ∨ ipV w' = 6 →
      Step ⟨.stack, b, w⟩ (hookEnter (hostOrder w')).1
        ⟨.again out h, (hookEnter (hostOrder w')).2, w'⟩
  | onePass {b w : Bytes} {out : Bool} {h : Hook Δ} : h.onePass = true →
      Step ⟨.again out h, b, w⟩ [.set b, .given .stack (setHostIplen b) w]
        ⟨.stack, setHostIplen b, w⟩
  | call {b w : Bytes} {out : Bool} {h : Hook Δ} {E : Env Δ} {k : Hdr} {C : Chain}
      {words : RulePtr → ℕ → BitVec 32} {cache : RulePtr → BitVec 32 × ℕ} {dyn : Δ} :
      h.onePass = false → k.byte = b → (k.isIpv4 = true → ipV b = 4) →
      (k.isIpv6 = true → ipV b = 6) →
      Step ⟨.again out h, b, w⟩ [.given .ipfwChk b w]
        ⟨.chk out h E k C (h.start C words cache dyn), b, w⟩
  /-- `M_SKIP_FIREWALL`, and headers that are not known. -/
  | early {b w : Bytes} {out : Bool} {h : Hook Δ} {E : Env Δ} {k : Hdr} {C : Chain} {v : Verdict} :
      h.onePass = false → k.byte = b → (k.isIpv4 = true → ipV b = 4) → v = .pass ∨ v = .deny →
      Step ⟨.again out h, b, w⟩ [.given .ipfwChk b w]
        ⟨.chk out h E k C { h.extract with pc := .exit, retval := v }, b, w⟩
  | pullupFailed {b w : Bytes} {out : Bool} {h : Hook Δ} : h.onePass = false →
      Step ⟨.again out h, b, w⟩ [.given .ipfwChk b w] ⟨.gone, b, w⟩
  | round {b w : Bytes} {out : Bool} {h : Hook Δ} {E : Env Δ} {k : Hdr} {C : Chain} {s : Chk Δ} :
      s.pc ≠ .exit → packetOp E k s = .none →
      Step ⟨.chk out h E k C s, b, w⟩ [] ⟨.chk out h E k C ((Ipfw.step E k C s).val s), b, w⟩
  | reass {b w b' w' : Bytes} {out : Bool} {h : Hook Δ} {E : Env Δ} {k : Hdr} {C : Chain}
      {s : Chk Δ} : packetOp E k s = .reass → E.ipReass = true →
      ReassKeeps (setHostIplen b) w b' w' →
      Step ⟨.chk out h E k C s, b, w⟩
        [.set b, .given .ipReass (setHostIplen b) w, .set b']
        ⟨.chk out h E k C ((Ipfw.step E k C s).val s), setNetIplen b', w'⟩
  | swallow {b w : Bytes} {out : Bool} {h : Hook Δ} {E : Env Δ} {k : Hdr} {C : Chain} {s : Chk Δ} :
      packetOp E k s = .reass → E.ipReass = false →
      Step ⟨.chk out h E k C s, b, w⟩ [.set b, .given .ipReass (setHostIplen b) w]
        ⟨.gone, setHostIplen b, w⟩
  | reject {b w : Bytes} {out : Bool} {h : Hook Δ} {E : Env Δ} {k : Hdr} {C : Chain} {s : Chk Δ}
      {code : BitVec 16} : packetOp E k s = .reject code →
      Step ⟨.chk out h E k C s, b, w⟩ (sendReject code b w) ⟨.gone, b, w⟩
  | reject6 {b w : Bytes} {out : Bool} {h : Hook Δ} {E : Env Δ} {k : Hdr} {C : Chain} {s : Chk Δ} :
      packetOp E k s = .reject6 →
      Step ⟨.chk out h E k C s, b, w⟩ [.given .icmp6Error b w] ⟨.gone, b, w⟩
  | nat {b w b' w' : Bytes} {out : Bool} {h : Hook Δ} {E : Env Δ} {k : Hdr} {C : Chain}
      {s : Chk Δ} : packetOp E k s = .nat → ((Ipfw.step E k C s).val s).retval = .nat →
      NatKeeps b w b' w' →
      Step ⟨.chk out h E k C s, b, w⟩ [.given .nat b w]
        ⟨.chk out h E k C ((Ipfw.step E k C s).val s), b', w'⟩
  | natFailed {b w : Bytes} {out : Bool} {h : Hook Δ} {E : Env Δ} {k : Hdr} {C : Chain}
      {s : Chk Δ} : packetOp E k s = .nat → ((Ipfw.step E k C s).val s).retval ≠ .nat →
      Step ⟨.chk out h E k C s, b, w⟩ [.given .nat b w] ⟨.gone, b, w⟩
  | again {b w : Bytes} {out : Bool} {h : Hook Δ} {E : Env Δ} {k : Hdr} {C : Chain} {s : Chk Δ}
      {O : Outer} : s.pc = .exit → hookSwitch O { k with byte := b } E.fwOnePass s = .again →
      Step ⟨.chk out h E k C s, b, w⟩ (handed O b w s.retval) ⟨.again out (h.next s), b, w⟩
  | ret {b w : Bytes} {out : Bool} {h : Hook Δ} {E : Env Δ} {k : Hdr} {C : Chain} {s : Chk Δ}
      {O : Outer} : s.pc = .exit → hookSwitch O { k with byte := b } E.fwOnePass s = .ret 0 true →
      Step ⟨.chk out h E k C s, b, w⟩
        (handed O b w s.retval ++ (hookLeave b).1 ++ [.given .stack (hookLeave b).2 w])
        ⟨.stack, (hookLeave b).2, w⟩
  | drop {b w : Bytes} {out : Bool} {h : Hook Δ} {E : Env Δ} {k : Hdr} {C : Chain} {s : Chk Δ}
      {O : Outer} {error : ℕ} : s.pc = .exit →
      hookSwitch O { k with byte := b } E.fwOnePass s = .ret error false →
      (s.retval = .divert → O.divertLoaded = false) →
      Step ⟨.chk out h E k C s, b, w⟩ (handed O b w s.retval) ⟨.gone, b, w⟩
  | queue {b w : Bytes} {out : Bool} {h : Hook Δ} {E : Env Δ} {k : Hdr} {C : Chain} {s : Chk Δ}
      {O : Outer} : s.pc = .exit →
      hookSwitch O { k with byte := b } E.fwOnePass s = .ret 0 false → s.retval = .dummynet →
      Step ⟨.chk out h E k C s, b, w⟩ (handed O b w s.retval)
        ⟨.dummynet ⟨out, ipV b == 6#4⟩, b, w⟩
  | divert {b w : Bytes} {out : Bool} {h : Hook Δ} {E : Env Δ} {k : Hdr} {C : Chain} {s : Chk Δ} :
      s.pc = .exit → s.retval = .divert → isFragment b = false →
      Step ⟨.chk out h E k C s, b, w⟩ [.given .divert b w] ⟨.gone, b, w⟩
  | divertReass {b w b' w' : Bytes} {out : Bool} {h : Hook Δ} {E : Env Δ} {k : Hdr} {C : Chain}
      {s : Chk Δ} : s.pc = .exit → s.retval = .divert → isFragment b = true →
      ReassKeeps (setHostIplen b) w b' w' →
      Step ⟨.chk out h E k C s, b, w⟩
        [.set b, .given .ipReass (setHostIplen b) w, .set b', .given .divert (setNetIplen b') w']
        ⟨.gone, setNetIplen b', w'⟩
  | divertSwallow {b w : Bytes} {out : Bool} {h : Hook Δ} {E : Env Δ} {k : Hdr} {C : Chain}
      {s : Chk Δ} : s.pc = .exit → s.retval = .divert → isFragment b = true →
      Step ⟨.chk out h E k C s, b, w⟩ [.set b, .given .ipReass (setHostIplen b) w]
        ⟨.gone, setHostIplen b, w⟩
  | send {b w : Bytes} {dst : DnDir} :
      Step ⟨.dummynet dst, b, w⟩ (dummynetSend dst b w).1 ⟨.stack, (dummynetSend dst b w).2, w⟩
  | flush {b w : Bytes} {dst : DnDir} : Step ⟨.dummynet dst, b, w⟩ [] ⟨.gone, b, w⟩

/-- A packet that has come from the stack, with what has happened to it, where each step starts in a
state with `P`. -/
inductive Journey (P : Packet Δ → Prop) : Packet Δ → List Event → Prop
  | start (b w : Bytes) : Journey P ⟨.stack, b, w⟩ []
  | next {σ τ : Packet Δ} {es es' : List Event} :
      Journey P σ es → P σ → σ.Step es' τ → Journey P τ (es ++ es')

/-- No IPv6 packet is in a place from where the hook, `O_REASS`, `ipfw_divert` or `dummynet_send` converts
it without a look at its version. -/
def Packet.NotIpv6 (σ : Packet Δ) : Prop :=
  match σ.place with
  | .again _ h => h.onePass = true → ipV σ.bytes ≠ 6
  | .chk _ _ E k _ s => (packetOp E k s = .reass → ipV σ.bytes ≠ 6) ∧
      (s.pc = .exit → s.retval = .divert → isFragment σ.bytes = true → ipV σ.bytes ≠ 6)
  | .dummynet dst => dst.out = true → ipV σ.bytes ≠ 6
  | .stack | .gone => True

variable {E : Env Δ} {k : Hdr} {C : Chain} {s : Chk Δ} {b w b' w' : Bytes} {σ τ : Packet Δ}
  {es : List Event}

/-! ### Two conversions -/

theorem store16_ntohs {i : ℕ} : b.store16 i (ntohs (b.load16 i)) = b.swap16 i := Bytes.store16_reverse

theorem setNetIplen_eq : setNetIplen b = (b.swap16 2).swap16 6 := by
  unfold setNetIplen
  dsimp only
  rw [store16_ntohs, store16_ntohs]

theorem setHostIplen_eq : setHostIplen b = (b.swap16 2).swap16 6 := setNetIplen_eq

/-- What is put in host order is put back in network order. -/
theorem setNetIplen_setHostIplen : setNetIplen (setHostIplen b) = b := by
  rw [setNetIplen_eq, setHostIplen_eq, ← Bytes.swap16_comm (by decide : 2 + 1 < 6),
    Bytes.swap16_swap16, Bytes.swap16_swap16]

theorem ipV_setHostIplen : ipV (setHostIplen b) = ipV b := by
  unfold ipV
  rw [setHostIplen_eq, Bytes.swap16_of_ne (by decide) (by decide),
    Bytes.swap16_of_ne (by decide) (by decide)]

/-- The macros leave the header as it is if each field has twice the same byte. -/
theorem setHostIplen_eq_self_iff : setHostIplen b = b ↔ b 2 = b 3 ∧ b 6 = b 7 := by
  have hlow : ∀ j, setHostIplen b j = b (Equiv.swap 2 3 (Equiv.swap 6 7 j)) := fun j => by
    rw [setHostIplen_eq]
    rfl
  constructor
  · intro h
    have h2 := congrFun h 3
    have h6 := congrFun h 7
    rw [hlow] at h2 h6
    exact ⟨h2, h6⟩
  · rintro ⟨h2, h6⟩
    funext j
    rw [hlow]
    by_cases hj : j = 2 ∨ j = 3 ∨ j = 6 ∨ j = 7
    · rcases hj with rfl | rfl | rfl | rfl
      · exact h2.symm
      · exact h2
      · exact h6.symm
      · exact h6
    · push Not at hj
      rw [Equiv.swap_apply_of_ne_of_ne hj.2.2.1 hj.2.2.2, Equiv.swap_apply_of_ne_of_ne hj.1 hj.2.1]

theorem ipV_hostOrder : ipV (hostOrder w) = ipV w := by
  unfold hostOrder
  split_ifs
  · exact ipV_setHostIplen
  · rfl

/-- In the hook, the header is in network order. -/
theorem hookEnter_hostOrder : (hookEnter (hostOrder w)).2 = w := by
  unfold hookEnter
  rw [ipV_hostOrder]
  unfold hostOrder
  split_ifs
  · exact setNetIplen_setHostIplen
  · rfl

/-! ### The instructions in the interpreter -/

theorem close_retval (c : Insn) : (s.close c).retval = s.retval ∧ (s.close c).done = s.done := by
  rcases close_cases c s with ⟨m, hcl⟩ | ⟨m, o, -, hcl⟩
  · rw [hcl]
    unfold Chk.leave
    split_ifs <;> exact ⟨rfl, rfl⟩
  · rw [hcl]
    exact ⟨rfl, rfl⟩

/-- What a round that gives the packet to `ip_reass` executes. -/
theorem packetOp_reass (h : packetOp E k s = .reass) :
    s.pc = .inner ∧ 0 < s.l ∧ s.skipOr = false ∧
      (Insn.ofWord (s.words s.f s.cmd)).opcode = some .reass ∧ isFragment k.byte = true := by
  by_cases hround : s.pc = .inner ∧ 0 < s.l ∧ s.skipOr = false
  · rw [packetOp, if_pos hround] at h
    dsimp only at h
    split at h
    · next hop =>
      split_ifs at h with hfrag
      exact ⟨hround.1, hround.2.1, hround.2.2, hop, hfrag⟩
    · split_ifs at h
    · split_ifs at h
    · split_ifs at h
    · cases h
  · rw [packetOp, if_neg hround] at h
    cases h

/-- The packet that `ip_reass` has been given is not evaluated any more in this call. -/
theorem step_reass (h : packetOp E k s = .reass) :
    ((step E k C s).val s).done = true ∧
      ((step E k C s).val s).retval = if E.ipReass then .reass else .deny := by
  obtain ⟨hpc, hl, hskip, hop, hfrag⟩ := packetOp_reass h
  set c := Insn.ofWord (s.words s.f s.cmd) with hc
  have hoff : ¬ ntohs (k.byte (6 + 1) ++ k.byte 6) &&& 0x3fff#16 = 0#16 := by
    have hne := hfrag
    unfold isFragment Bytes.load16 at hne
    exact bne_iff_ne.1 hne
  obtain ⟨u, he, hu⟩ : ∃ u, (exec E k C c { s with cmdlen := c.fLen, matched := false }).val s =
      (.brk, u) ∧ u.done = true ∧ u.retval = if E.ipReass then .reass else .deny := by
    simp only [exec, hop, execReass, half, byte, Reads.val_bind, Reads.val_read, Reads.val_ite,
      Reads.val_pure]
    rw [if_neg hoff]
    split_ifs
    · exact ⟨_, rfl, rfl, rfl⟩
    · exact ⟨_, rfl, rfl, rfl⟩
  rw [step_brk hpc hl hskip hc.symm he, epilogue_val, (close_retval _).1, (close_retval _).2]
  exact hu

/-! ### The order on the way -/

/-- The header of an IPv4 or IPv6 packet is in network order. -/
structure InNet (b w : Bytes) : Prop where
  eq : b = w
  ipV : ipV b = 4 ∨ ipV b = 6

/-- In the hook and in dummynet, the header is in network order, and what is known of the version is
right. -/
def Packet.Kept (σ : Packet Δ) : Prop :=
  match σ.place with
  | .again _ _ => InNet σ.bytes σ.wire
  | .chk _ _ _ k _ _ => InNet σ.bytes σ.wire ∧ (k.isIpv4 = true → ipV σ.bytes = 4)
  | .dummynet dst => InNet σ.bytes σ.wire ∧ (dst.ipv6 = true ↔ ipV σ.bytes = 6)
  | .stack | .gone => True

theorem InNet.given (h : InNet b w) {p : Party} (hp : p.order ≠ some .host) :
    (Event.given p b w).Ok := by
  intro _ o ho
  cases o with
  | net => exact h.eq
  | host => exact absurd ho hp

/-- A header that has been put in host order. -/
theorem InNet.given_host (h : InNet b w) {p : Party} (hp : p.order ≠ some .net) :
    (Event.given p (setHostIplen b) w).Ok := by
  intro _ o ho
  cases o with
  | net => exact absurd ho hp
  | host => exact congrArg setHostIplen h.eq

theorem ok_set (h : ipV b ≠ 6) : (Event.set b).Ok := fun h' => absurd h' h

/-- The packet is given away as it is. -/
theorem InNet.only_given (h : InNet b w) {p : Party} (hp : p.order ≠ some .host) :
    ∀ e ∈ [Event.given p b w], e.Ok := by
  intro e he
  obtain rfl := List.mem_singleton.1 he
  exact h.given hp

/-- The packet is put in host order and given away. -/
theorem InNet.converted (h : InNet b w) (h6 : Ipfw.ipV b ≠ 6) {p : Party} (hp : p.order ≠ some .net) :
    ∀ e ∈ [Event.set b, .given p (setHostIplen b) w], e.Ok := by
  intro e he
  rcases List.mem_cons.1 he with rfl | he
  · exact ok_set h6
  · obtain rfl := List.mem_singleton.1 he
    exact h.given_host hp

theorem ok_append {es es' : List Event} (h : ∀ e ∈ es, e.Ok) (h' : ∀ e ∈ es', e.Ok) :
    ∀ e ∈ es ++ es', e.Ok := by
  intro e he
  rcases List.mem_append.1 he with he | he
  · exact h e he
  · exact h' e he

theorem InNet.ipV_eq (h : InNet b w) (h6 : Ipfw.ipV b ≠ 6) : Ipfw.ipV b = 4 := h.ipV.resolve_right h6

/-- A packet that `ip_reass` has yielded. -/
theorem InNet.reass (h : InNet b w) (h6 : Ipfw.ipV b ≠ 6)
    (hk : ReassKeeps (setHostIplen b) w b' w') :
    InNet (setNetIplen b') w' ∧ Ipfw.ipV b' = 4 ∧ Ipfw.ipV (setNetIplen b') = 4 := by
  obtain ⟨hv, hb⟩ := hk (ipV_setHostIplen.trans (h.ipV_eq h6)) (congrArg setHostIplen h.eq)
  have hnet : setNetIplen b' = w' := by rw [hb, setNetIplen_setHostIplen]
  have hw : Ipfw.ipV (setNetIplen b') = 4 := by
    rw [hnet, ← hv, hb, ipV_setHostIplen]
  exact ⟨⟨hnet, .inl hw⟩, hv, hw⟩

theorem InNet.handed (h : InNet b w) {O : Outer} {v : Verdict} : ∀ e ∈ handed O b w v, e.Ok := by
  unfold Ipfw.handed
  split
  · split_ifs
    · exact h.only_given nofun
    · exact nofun
  · split_ifs
    · exact h.only_given nofun
    · exact nofun
  · split_ifs
    · exact h.only_given nofun
    · exact nofun
  · split_ifs
    · exact h.only_given nofun
    · exact nofun
  · exact nofun

/-- The packet at the end of the hook. -/
theorem InNet.leave (h : InNet b w) :
    (∀ e ∈ (hookLeave b).1, e.Ok) ∧ (Event.given .stack (hookLeave b).2 w).Ok := by
  unfold hookLeave
  split_ifs with hv
  · refine ⟨fun e he => ?_, h.given_host nofun⟩
    obtain rfl := List.mem_singleton.1 he
    exact ok_set (by rw [hv]; decide)
  · exact ⟨nofun, fun hv' => absurd hv' hv⟩

/-- The packet at the start of the hook. -/
theorem enter_ok : ∀ e ∈ (hookEnter (hostOrder w)).1, e.Ok := by
  intro e he
  unfold hookEnter at he
  split_ifs at he with hv
  · obtain rfl := List.mem_singleton.1 he
    exact ok_set (by rw [hv]; decide)
  · cases he

/-- `send_reject` is called for IPv4 packets. -/
theorem packetOp_reject {code : BitVec 16} (h : packetOp E k s = .reject code) :
    k.isIpv4 = true := by
  by_cases hround : s.pc = .inner ∧ 0 < s.l ∧ s.skipOr = false
  · rw [packetOp, if_pos hround] at h
    dsimp only at h
    split at h
    · split_ifs at h
    · split_ifs at h with hsend
      unfold sendsReject mayReject at hsend
      rw [Reads.val_ite] at hsend
      split_ifs at hsend with hv
      · exact hv.2.1
      · exact hv.2.1
      · rw [Reads.val_pure] at hsend
        cases hsend
    · split_ifs at h
    · split_ifs at h
    · cases h
  · rw [packetOp, if_neg hround] at h
    cases h

/-- A packet that leaves dummynet. -/
theorem InNet.send (h : InNet b w) {dst : DnDir} (hdst : dst.ipv6 = true ↔ Ipfw.ipV b = 6)
    (h6 : dst.out = true → Ipfw.ipV b ≠ 6) : ∀ e ∈ (dummynetSend dst b w).1, e.Ok := by
  obtain ⟨out, ipv6⟩ := dst
  cases out with
  | false => cases ipv6 <;> exact h.only_given nofun
  | true =>
    cases ipv6 with
    | false => exact h.converted (h6 rfl) nofun
    | true => exact absurd (hdst.1 rfl) (h6 rfl)

/-- **One step** keeps the order. -/
theorem Packet.Step.kept (h : σ.Step es τ) (hσ : σ.Kept) (hp : σ.NotIpv6) :
    τ.Kept ∧ ∀ e ∈ es, e.Ok := by
  cases h with
  | @enter b w w' out h hv =>
    refine ⟨?_, enter_ok⟩
    change InNet (hookEnter (hostOrder w')).2 w'
    rw [hookEnter_hostOrder]
    exact ⟨rfl, hv⟩
  | onePass hone => exact ⟨trivial, InNet.converted hσ (hp hone) nofun⟩
  | call _ _ h4 _ => exact ⟨⟨hσ, h4⟩, InNet.only_given hσ nofun⟩
  | early _ _ h4 _ => exact ⟨⟨hσ, h4⟩, InNet.only_given hσ nofun⟩
  | pullupFailed _ => exact ⟨trivial, InNet.only_given hσ nofun⟩
  | round _ _ => exact ⟨hσ, nofun⟩
  | @reass _ _ b' _ _ _ _ _ _ _ hop _ hk =>
    obtain ⟨hnet, hv, hv'⟩ := hσ.1.reass (hp.1 hop) hk
    refine ⟨⟨hnet, fun _ => hv'⟩, ?_⟩
    have hback : ∀ e ∈ [Event.set b'], e.Ok := fun e he => by
      obtain rfl := List.mem_singleton.1 he
      exact ok_set (by rw [hv]; decide)
    exact ok_append (hσ.1.converted (p := .ipReass) (hp.1 hop) nofun) hback
  | swallow hop _ => exact ⟨trivial, hσ.1.converted (hp.1 hop) nofun⟩
  | reject hop =>
    refine ⟨trivial, ?_⟩
    unfold sendReject
    split_ifs
    · exact hσ.1.converted (by rw [hσ.2 (packetOp_reject hop)]; decide) nofun
    · exact nofun
  | reject6 _ => exact ⟨trivial, hσ.1.only_given nofun⟩
  | nat _ _ hk =>
    obtain ⟨hv, hb⟩ := hk hσ.1.eq
    refine ⟨⟨⟨hb, ?_⟩, ?_⟩, hσ.1.only_given nofun⟩
    · rw [hv]
      exact hσ.1.ipV
    · rw [hv]
      exact hσ.2
  | natFailed _ _ => exact ⟨trivial, hσ.1.only_given nofun⟩
  | again _ _ => exact ⟨hσ.1, hσ.1.handed⟩
  | ret _ _ =>
    refine ⟨trivial, ok_append (ok_append hσ.1.handed hσ.1.leave.1) fun e he => ?_⟩
    obtain rfl := List.mem_singleton.1 he
    exact hσ.1.leave.2
  | drop _ _ _ => exact ⟨trivial, hσ.1.handed⟩
  | queue _ _ _ => exact ⟨⟨hσ.1, beq_iff_eq⟩, hσ.1.handed⟩
  | divert _ _ _ => exact ⟨trivial, hσ.1.only_given nofun⟩
  | @divertReass _ _ b' w' _ _ _ _ _ _ hexit hret hfrag hk =>
    obtain ⟨hnet, hv, -⟩ := hσ.1.reass (hp.2 hexit hret hfrag) hk
    refine ⟨trivial, ?_⟩
    have hback : ∀ e ∈ [Event.set b', .given .divert (setNetIplen b') w'], e.Ok := fun e he => by
      rcases List.mem_cons.1 he with rfl | he
      · exact ok_set (by rw [hv]; decide)
      · exact hnet.only_given (p := .divert) nofun e he
    exact ok_append (hσ.1.converted (p := .ipReass) (hp.2 hexit hret hfrag) nofun) hback
  | divertSwallow hexit hret hfrag =>
    exact ⟨trivial, hσ.1.converted (hp.2 hexit hret hfrag) nofun⟩
  | send => exact ⟨trivial, hσ.1.send hσ.2 hp⟩
  | flush => exact ⟨trivial, nofun⟩

theorem Journey.kept (h : Journey Packet.NotIpv6 σ es) : σ.Kept ∧ ∀ e ∈ es, e.Ok := by
  induction h with
  | start b w => exact ⟨trivial, nofun⟩
  | next _ hp hstep ih =>
    obtain ⟨hτ, hes⟩ := hstep.kept ih.1 hp
    exact ⟨hτ, ok_append ih.2 hes⟩

/-- **The byte order** on the way of a packet, and in each round of `ipfw_chk`. -/
theorem Journey.order_kept (h : Journey Packet.NotIpv6 σ es) :
    (∀ e ∈ es, e.Ok) ∧ ∀ out h' E k C s, σ.place = .chk out h' E k C s → σ.bytes = σ.wire := by
  obtain ⟨hσ, hes⟩ := h.kept
  refine ⟨hes, fun out h' E k C s hplace => ?_⟩
  obtain ⟨place, b, w⟩ := σ
  dsimp only at hplace
  subst hplace
  exact hσ.1.eq

/-- The header of an IPv4 datagram and of an IPv6 one, with the protocol UDP. -/
def ip4Bytes : Bytes := fun i => [0x45, 0, 0, 0x54, 0, 0, 0x40, 0, 64, 17].getD i 0#8

def ip6Bytes : Bytes := fun i => [0x60, 0, 0, 0, 0, 8, 17, 64].getD i 0#8

/-- A packet that comes back from dummynet, with one-pass. -/
def onePassHook : Hook Unit :=
  ⟨{ (default : Chk Unit) with tags := [mTagAlloc mtagIpfwRule 0] }, none, ipfwOnepass⟩

/-- The way of the packet through the hook. -/
theorem onePass_journey {P : Packet Unit → Prop} (hv : ipV w = 4 ∨ ipV w = 6)
    (hstack : P ⟨.stack, w, w⟩) (hagain : P ⟨.again true onePassHook, w, w⟩) :
    Journey P ⟨.stack, setHostIplen w, w⟩
      ((hookEnter (hostOrder w)).1 ++ [.set w, .given .stack (setHostIplen w) w]) := by
  have henter := Journey.next (.start w w) hstack (@Packet.Step.enter Unit w w w true onePassHook hv)
  rw [hookEnter_hostOrder] at henter
  exact .next henter hagain (.onePass (by decide))

/-- An IPv4 packet is in host order again. -/
theorem order_kept_of_ip4 : (Event.given .stack (setHostIplen ip4Bytes) ip4Bytes).Ok :=
  (Journey.order_kept (onePass_journey (.inl (by decide)) trivial fun _ => by decide)).1 _
    (List.mem_append_right _ (List.mem_cons_of_mem _ List.mem_cons_self))

/-- The hook exchanges the protocol and the hop limit of an IPv6 packet, with one-pass. -/
theorem not_order_kept_of_ip6 : ¬ ∀ (σ : Packet Unit) (es : List Event),
    Journey (fun _ => True) σ es → ∀ e ∈ es, e.Ok := by
  intro h
  have hset := h _ _ (onePass_journey (w := ip6Bytes) (.inr (by decide)) trivial trivial)
    (.set ip6Bytes) (List.mem_append_right _ List.mem_cons_self) (by decide)
  exact absurd (setHostIplen_eq_self_iff.1 hset).2 (by decide)

end Ipfw
