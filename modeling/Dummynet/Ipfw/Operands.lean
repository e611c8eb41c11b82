import Dummynet.Ipfw.Chk
import Dummynet.Ipfw.Accepted

/-!
# The operands of the instructions

An accepted instruction reads operands within its own length. The exceptions are the tests of masked
IPv6 addresses, which read eight words for each address, while the check accepts every odd length,
and `O_LOG`, which looks at other instructions.

## Main definitions

* `Own`: the words of the current instruction, and all bytes of the packet.

## Main results

* `within_exec`: what the switch reads.
* `within_mask6Loop_iff`: when the loop over masked IPv6 addresses stays within the instruction.
-/

namespace Ipfw

variable {Δ : Type} {E : Env Δ} {k : Hdr} {C : Chain} {s t : Chk Δ} {c : Insn} {n : ℕ}

/-- The first `n` words of the instruction at `cmd`, and the packet. -/
def Own (s : Chk Δ) (n : ℕ) : Loc → Prop
  | .word f p i => f = s.f ∧ p = s.cmd ∧ i < n
  | .byte _ => True

/-! ### Helper functions -/

@[simp]
theorem within_word {i : ℕ} : Reads.Within (Own s n) s (word i) ↔ i < n := by
  simp [word, Own]

@[simp]
theorem within_byte {i : ℕ} : Reads.Within (Own s n) s (byte k i) := by
  simp [byte, Own]

@[simp]
theorem within_half {i : ℕ} : Reads.Within (Own s n) s (half k i) := by
  simp [half]

@[simp]
theorem within_quad {i : ℕ} : Reads.Within (Own s n) s (quad k i) := by
  simp [quad]

theorem within_portsLoop {x : BitVec 16} {i p : ℕ} (h : p + i ≤ n) :
    Reads.Within (Own s n) s (portsLoop x i p) := by
  induction i generalizing p with
  | zero => simp [portsLoop]
  | succ i ih =>
    simp only [portsLoop, Reads.within_bind, within_word, Reads.within_ite]
    exact ⟨by omega, fun _ => Reads.within_pure _, fun _ => ih (by omega)⟩

theorem within_maskLoop {a : BitVec 32} {i p : ℕ} (h : p + 2 * i ≤ n) :
    Reads.Within (Own s n) s (maskLoop a (2 * i) p) := by
  induction i generalizing p with
  | zero => simp [maskLoop]
  | succ i ih =>
    rw [show 2 * (i + 1) = 2 * i + 2 from rfl, maskLoop]
    simp only [Reads.within_bind, within_word, Reads.within_ite]
    exact ⟨by omega, by omega, fun _ => Reads.within_pure _, fun _ => ih (by omega)⟩

theorem within_flow6idLoop {x : BitVec 32} {i p : ℕ} (h : p + i ≤ n) :
    Reads.Within (Own s n) s (flow6idLoop x i p) := by
  induction i generalizing p with
  | zero => simp [flow6idLoop]
  | succ i ih =>
    simp only [flow6idLoop, Reads.within_bind, within_word, Reads.within_ite]
    exact ⟨by omega, fun _ => Reads.within_pure _, fun _ => ih (by omega)⟩

theorem within_in6_iff {P : Loc → Prop} (hP : ∀ i, P (.word s.f s.cmd i) ↔ i < n) {p : ℕ} :
    Reads.Within P s (in6 p) ↔ p + 3 < n := by
  simp only [in6, word, Reads.within_bind, Reads.within_read, hP, Reads.within_pure, and_true]
  omega

theorem within_in6 {p : ℕ} : Reads.Within (Own s n) s (in6 p) ↔ p + 3 < n :=
  within_in6_iff fun i => by simp [Own]

theorem within_nameByte {j : ℕ} (h : 2 + j / 4 < n) :
    Reads.Within (Own s n) s (nameByte j) := by
  simpa [nameByte] using h

/-- `fnmatch` reads at most one byte of the pattern for each byte of the string and its end. -/
theorem within_fnmatch {x : List (BitVec 8)} {j : ℕ} (h : 2 + (j + x.length) / 4 < n) :
    Reads.Within (Own s n) s (fnmatch x j) := by
  induction x generalizing j with
  | nil =>
    simp only [fnmatch, Reads.within_bind, Reads.within_pure, and_true]
    exact within_nameByte h
  | cons b x ih =>
    rw [List.length_cons] at h
    simp only [fnmatch, Reads.within_bind, Reads.within_ite]
    refine ⟨within_nameByte (by omega), fun _ => Reads.within_pure _, fun _ =>
      ⟨fun _ => Reads.within_pure _, fun _ => ⟨fun _ => ih ?_, fun _ => Reads.within_pure _⟩⟩⟩
    rw [Nat.add_assoc, Nat.add_comm 1]
    exact h

theorem within_strncmp {x : List (BitVec 8)} {j : ℕ} (h : 2 + (j + x.length) / 4 < n) :
    Reads.Within (Own s n) s (strncmp x j) := by
  induction x generalizing j with
  | nil =>
    simp only [strncmp, Reads.within_bind, Reads.within_pure, and_true]
    exact within_nameByte h
  | cons b x ih =>
    rw [List.length_cons] at h
    simp only [strncmp, Reads.within_bind, Reads.within_ite]
    refine ⟨within_nameByte (by omega), fun _ => ih ?_, fun _ => Reads.within_pure _⟩
    rw [Nat.add_assoc, Nat.add_comm 1]
    exact h

/-- Matching an interface reads the six words of its instruction. -/
theorem within_ifaceMatch {ifp : Option IfNet} : Reads.Within (Own s 6) s (ifaceMatch ifp) := by
  cases ifp with
  | none => exact Reads.within_pure _
  | some ifp =>
    have := ifp.short
    simp only [ifaceMatch, Reads.within_bind, Reads.within_ite, within_word]
    exact ⟨within_nameByte (by omega), fun _ => ⟨by omega, fun _ => within_fnmatch (by omega),
      fun _ => within_strncmp (by omega)⟩, fun _ => Reads.within_pure _⟩

/-- The bitmap of the ICMPv6 types has a bit for every type up to `ICMP6_MAXTYPE`. -/
theorem within_icmp6typeMatch {type : BitVec 8} :
    Reads.Within (Own s 8) s (icmp6typeMatch type) := by
  rw [icmp6typeMatch, Reads.within_ite]
  refine ⟨fun h => ?_, fun _ => Reads.within_pure _⟩
  have : type.toNat ≤ 201 := h
  simp only [Reads.within_bind, within_word, Reads.within_pure, and_true]
  omega

theorem within_credCheck : Reads.Within (Own s 2) s (credCheck E c) := by
  unfold credCheck
  split
  · split <;> simp
  · simp

theorem within_ipoptsLoop {m x cp : ℕ} {bits : BitVec 8} :
    Reads.Within (Own s n) s (ipoptsLoop k m x cp bits) := by
  induction m generalizing x cp bits with
  | zero => simp [ipoptsLoop]
  | succ m ih => simp [ipoptsLoop, Reads.within_ite, ih]

theorem within_ipoptsMatch : Reads.Within (Own s n) s (ipoptsMatch k c) := by
  simp only [ipoptsMatch, Reads.within_bind, within_byte, true_and]
  refine ⟨within_ipoptsLoop, ?_⟩
  split <;> simp

theorem within_tcpoptsLoop {m x cp : ℕ} {bits : BitVec 8} :
    Reads.Within (Own s n) s (tcpoptsLoop k m x cp bits) := by
  induction m generalizing x cp bits with
  | zero => simp [tcpoptsLoop]
  | succ m ih => simp [tcpoptsLoop, Reads.within_ite, ih]

theorem within_tcpoptsMatch : Reads.Within (Own s n) s (tcpoptsMatch k c) := by
  simp [tcpoptsMatch, within_tcpoptsLoop]

theorem within_macaddr2Test {h : Ether} : Reads.Within (Own s 7) s (macaddr2Test h) := by
  simp [macaddr2Test, Reads.within_ite]

/-- The bitmap of a set has a bit for every address in it. -/
theorem within_setTest {addr : BitVec 32} (h : n = 2 + (c.arg1.toNat + 31) / 32) :
    Reads.Within (Own s n) s (setTest c addr) := by
  simp only [setTest, Reads.within_bind, within_word, Reads.within_ite, Reads.within_pure,
    implies_true, and_true, true_and]
  have hlt : ∀ x : BitVec 32, x < c.arg1.setWidth 32 → 2 + x.toNat / 32 < n := by
    intro x hx
    have := BitVec.lt_def.1 hx
    rw [BitVec.toNat_setWidth, Nat.mod_eq_of_lt (by have := c.arg1.isLt; omega)] at this
    omega
  exact ⟨by omega, fun _ => hlt _⟩

theorem within_taggedLoop {tags : List MTag} (h : 1 ≤ n) (hn : c.fLen = n) :
    Reads.Within (Own s n) s (taggedLoop c tags) := by
  induction tags with
  | nil => exact Reads.within_pure _
  | cons mtag tags ih =>
    simp only [taggedLoop, Reads.within_ite, Reads.within_bind]
    exact ⟨fun _ => ih, fun _ => ⟨within_portsLoop (by omega), fun _ => Reads.within_pure _,
      fun _ => ih⟩⟩

theorem within_rangesTest {x : BitVec 16} (h : 1 ≤ n) (hn : c.fLen = n) :
    Reads.Within (Own s n) s (rangesTest c x) := by
  simp only [rangesTest, Reads.within_ite]
  exact ⟨fun _ => Reads.within_pure _, fun _ => within_portsLoop (by omega)⟩

theorem within_lookupKey {v : BitVec 32} : Reads.Within (Own s n) s (lookupKey E k v) := by
  simp [lookupKey, Reads.within_ite]

theorem within_lookupTest {x : BitVec 32} (hn : c.fLen = n) :
    Reads.Within (Own s n) s (lookupTest E k c x) := by
  rw [lookupTest, Reads.within_bind]
  constructor
  · simp only [lookupKeyOf, Reads.within_ite, Reads.within_bind, within_word, Reads.within_pure,
      implies_true, and_true]
    exact fun h => ⟨by omega, within_lookupKey⟩
  · split
    · exact Reads.within_pure _
    · simp only [lookupFound, Reads.within_ite, Reads.within_bind, within_word, Reads.within_pure,
        implies_true, and_true]
      omega

/-! ### Masked IPv6 addresses -/

/-- The loop over masked addresses reads eight words in every round up to the first match. -/
theorem within_mask6Loop_iff {P : Loc → Prop} (hP : ∀ i, P (.word s.f s.cmd i) ↔ i < n)
    {a : In6Addr} {i d : ℕ} :
    Reads.Within P s (mask6Loop a i d) ↔
      ∀ j < i, (mask6Loop a j d).val s = false → d + 8 * j + 7 < n := by
  induction i generalizing d with
  | zero => simp [mask6Loop]
  | succ i ih =>
    simp only [mask6Loop, Reads.within_bind, within_in6_iff hP, Reads.within_ite,
      Reads.within_pure, implies_true, true_and, ih]
    constructor
    · rintro ⟨h1, h2, h3⟩ j hj hval
      cases j with
      | zero => omega
      | succ j =>
        rw [mask6Loop] at hval
        simp only [Reads.val_bind, Reads.val_ite, Reads.val_pure] at hval
        split_ifs at hval with heq
        have := h3 heq j (by omega) hval
        omega
    · intro h
      have h0 := h 0 (by omega) rfl
      refine ⟨by omega, by omega, fun heq j hj hval => ?_⟩
      have := h (j + 1) (by omega) ?_
      · omega
      · rw [mask6Loop]
        simp only [Reads.val_bind, if_neg heq, hval]

/-- The loop stays within an instruction of odd length exactly if the length leaves no rest, or if one
of the complete pairs of addresses and masks matches. -/
theorem within_mask6Loop_rounds {P : Loc → Prop} (hP : ∀ i, P (.word s.f s.cmd i) ↔ i < n)
    {a : In6Addr} (hpos : 0 < n) :
    Reads.Within P s (mask6Loop a (mask6Rounds (n - 1)) 1) ↔
      n % 8 = 1 ∨ (mask6Loop a ((n - 1) / 8) 1).val s = true := by
  rw [within_mask6Loop_iff hP, mask6Rounds]
  constructor
  · intro h
    by_contra hno
    rw [not_or, Bool.not_eq_true] at hno
    have := h ((n - 1) / 8) (by omega) hno.2
    omega
  · rintro (h | h) j hj hval
    · omega
    · rcases lt_or_ge j ((n - 1) / 8) with hlt | hge
      · omega
      · obtain rfl : j = (n - 1) / 8 := by omega
        rw [h] at hval
        cases hval

/-! ### The switch -/

@[simp]
theorem within_tests {x : Ev Δ Bool} :
    Reads.Within (Own s n) s (tests t x) ↔ Reads.Within (Own s n) s x := by
  simp [tests]

@[simp]
theorem within_ipv4Test {x : Ev Δ Bool} : Reads.Within (Own s n) s (ipv4Test k x) ↔
    (k.isIpv4 = true → Reads.Within (Own s n) s x) := by
  simp [ipv4Test, Reads.within_ite]

@[simp]
theorem within_ipv6Test {x : Ev Δ Bool} : Reads.Within (Own s n) s (ipv6Test k x) ↔
    (k.isIpv6 = true → Reads.Within (Own s n) s x) := by
  simp [ipv6Test, Reads.within_ite]

@[simp]
theorem within_protoTest {p : BitVec 8} {x : Ev Δ Bool} :
    Reads.Within (Own s n) s (protoTest k p x) ↔
      (k.is p = true → Reads.Within (Own s n) s x) := by
  simp [protoTest, Reads.within_ite]

theorem within_execState : Reads.Within (Own s n) s (execState E k C c t) := by
  have hack : Reads.Within (Own s n) s (lookupAck k : Ev Δ _) := by
    rw [lookupAck, Reads.within_ite]
    refine ⟨fun _ => ?_, fun _ => Reads.within_pure _⟩
    split <;> simp
  simp [execState, lookupDyn, Reads.within_ite, hack]

theorem within_execInstall {op : Opcode} (h : c.opcode = some .limit → 2 ≤ n) :
    Reads.Within (Own s n) s (execInstall E k c op t) := by
  simp only [execInstall, limitWord, Reads.within_bind, Reads.within_ite, within_word,
    Reads.within_pure, implies_true, and_true]
  exact fun hop => h hop

theorem within_execNat (hf : t.f = s.f) (hcmd : t.cmd = s.cmd) :
    Reads.Within (Own s 4) s (execNat E C c t) := by
  rw [execNat, Reads.within_ite]
  refine ⟨fun _ => Reads.within_pure _, fun _ => ?_⟩
  simp only [execNatLoaded, Reads.within_bind, within_word, Reads.within_ite, Reads.within_pure,
    implies_true, true_and]
  refine ⟨by omega, by omega, fun _ => ?_⟩
  split
  · exact Reads.within_pure _
  · simp [execNatFound, Reads.within_ite, Own, Chk.setMatch, hf, hcmd]

/-- The opcodes that read more than their own operands: `O_LOG`, and the tests of masked IPv6
addresses. -/
def Insn.Special (c : Insn) : Prop :=
  c.opcode = some .log ∨ c.opcode = some .ip6SrcMask ∨ c.opcode = some .ip6DstMask

/-- **Operands.** Any other accepted instruction reads only words of its own. -/
theorem within_exec {K : Kernel} {x : CheckClass} (hchk : checkInsn K c = .ok x)
    (hsp : ¬ c.Special) (hf : t.f = s.f) (hcmd : t.cmd = s.cmd) :
    Reads.Within (Own s c.fLen) s (exec E k C c t) := by
  have hpos := fLen_pos_of_checkInsn hchk
  have hcred : ∀ {p q : Prop} [Decidable p] [Decidable q], c.fLen = 2 →
      Reads.Within (Own s c.fLen) s
        (tests t (if p then return false else if q then credCheck E c else return false)) := by
    intro p q _ _ hlen
    rw [hlen, within_tests, Reads.within_ite, Reads.within_ite]
    exact ⟨fun _ => Reads.within_pure _, fun _ => ⟨fun _ => within_credCheck,
      fun _ => Reads.within_pure _⟩⟩
  have hports : ∀ {p : Prop} [Decidable p] {y : BitVec 16}, Reads.Within (Own s c.fLen) s
      (tests t (if p then portsLoop y (c.fLen - 1) 1 else return false)) := by
    intro p _ y
    rw [within_tests, Reads.within_ite]
    exact ⟨fun _ => within_portsLoop (by omega), fun _ => Reads.within_pure _⟩
  have hmask : ∀ {y : BitVec 32}, c.fLen % 2 = 1 →
      Reads.Within (Own s c.fLen) s (tests t (ipv4Test k (maskLoop y (c.fLen - 1) 1))) := by
    intro y hodd
    rw [within_tests, within_ipv4Test, show c.fLen - 1 = 2 * (c.fLen / 2) by omega]
    exact fun _ => within_maskLoop (by omega)
  unfold exec
  unfold checkInsn at hchk
  split
  all_goals
    rename_i heq
    rw [heq] at hchk
    try simp only [require_bind, Bool.and_eq_true, beq_iff_eq, Bool.or_eq_true,
      decide_eq_true_eq] at hchk
    -- most of the opcodes read nothing, or a fixed number of words
    try
      simp [Reads.within_ite, hchk, heq, within_in6, within_ipoptsMatch, within_tcpoptsMatch,
        icmptypeMatch, isIcmpQuery, mayReject, execAltq, execReject, execForwardIp, execReass]
      done
  case h_3 | h_4 | h_5 => exact hcred hchk.1
  case h_6 | h_7 | h_8 => simpa [hchk] using within_ifaceMatch
  case h_9 => rw [within_tests, hchk.1]; split <;> simp [within_macaddr2Test]
  case h_10 =>
    rw [within_tests]
    split
    · exact within_portsLoop (by omega)
    · exact Reads.within_pure _
  case h_18 | h_19 =>
    rw [Reads.within_ite, Reads.within_bind]
    exact ⟨fun _ => ⟨within_lookupTest rfl, Reads.within_pure _⟩, fun _ => Reads.within_pure _⟩
  case h_20 | h_21 => exact hmask hchk.1.1
  case h_24 | h_25 =>
    rw [within_tests, within_ipv4Test]
    exact fun _ => within_setTest hchk.2.1
  case h_28 | h_29 => exact hports
  case h_31 => simp [hchk, within_icmp6typeMatch]
  case h_34 | h_35 | h_36 | h_39 => simp [tcpDatalen, within_rangesTest hpos]
  case h_47 => exact absurd (.inl heq) hsp
  case h_55 => exact absurd (.inr (.inl heq)) hsp
  case h_56 => exact absurd (.inr (.inr heq)) hsp
  case h_57 =>
    rw [within_tests, within_ipv6Test]
    exact fun _ => within_flow6idLoop (by omega)
  case h_63 =>
    rw [within_tests, taggedTest, Reads.within_ite]
    exact ⟨fun _ => Reads.within_pure _, fun _ => within_taggedLoop hpos rfl⟩
  case h_64 => exact within_execInstall fun _ => by omega
  case h_65 => exact within_execInstall fun h => by rw [heq] at h; cases h
  case h_66 | h_67 => exact within_execState
  case h_82 =>
    rw [hchk.2.1]
    exact within_execNat hf hcmd

end Ipfw
