import Dummynet.Ipfw.Firewall
import Mathlib

/-!
# The limit of sessions

The sessions of an `O_LIMIT` rule are counted by their parents, which are found by the masked flow of a
packet. As `ipfw_install_state` does not set all addresses of the masked flow, sessions of one masked
flow may have several parents. They have only one if the packets are IPv4, or IPv6 with a mask that
selects both addresses.

## Main results

* `Firewall.Reach.sessions_limited`: the limit of sessions.
* `not_limited_of_ip6`: two sessions in spite of the limit 1.
-/

namespace Ipfw

/-- The address of a flow, of either family. -/
abbrev Addr := BitVec 32 ⊕ In6Addr

def FlowId.src (id : FlowId) : Addr := if id.isIp6 then .inr id.srcIp6 else .inl id.srcIp

def FlowId.dst (id : FlowId) : Addr := if id.isIp6 then .inr id.dstIp6 else .inl id.dstIp

/-- The protocol of a flow and the fields that a mask selects. -/
@[ext]
structure Masked where
  proto : BitVec 8
  src : Option Addr
  srcPort : Option (BitVec 16)
  dst : Option Addr
  dstPort : Option (BitVec 16)
  deriving DecidableEq

/-- The fields of a flow that `limit_mask` selects. -/
def FlowId.masked (mask : BitVec 8) (id : FlowId) : Masked where
  proto := id.proto
  src := if mask.getLsbD 0 then some id.src else none
  srcPort := if mask.getLsbD 1 then some id.srcPort else none
  dst := if mask.getLsbD 2 then some id.dst else none
  dstPort := if mask.getLsbD 3 then some id.dstPort else none

/-- The entry is a session of the rule, for the masked flow `x`. -/
def DynRule.limitOf (r : RulePtr) (mask : BitVec 8) (x : Masked) (e : DynRule) : Bool :=
  decide (e.dynType = .limit) && decide (e.rule = r) && decide (e.id.masked mask = x)

/-- The number of sessions of the rule for the masked flow `x`. -/
def DynTable.limitSessions (T : DynTable) (r : RulePtr) (mask : BitVec 8) (x : Masked) : ℕ :=
  T.entries.countP fun q => (T.ent q).limitOf r mask x

/-- The mask of an `O_LIMIT`. -/
def limitMask (cmd : BitVec 32) : BitVec 8 := cmd.extractLsb' 8 8

/-- The mask selects both addresses if the flows are IPv6. -/
def Selects (mask : BitVec 8) (ip6 : Bool) : Prop :=
  ip6 = true → mask.getLsbD 0 = true ∧ mask.getLsbD 2 = true

/-- The entries after a packet fit in memory. -/
def InstallFits : InstallCond := fun M f op cmd tablearg pkt junk now T =>
  (lookupDynRuleLocked pkt none now T).1 = none →
    (installEntry M f op cmd tablearg pkt junk now
      (lookupDynRuleLocked pkt none now T).2).2.entries.length < 2 ^ 32

/-- The rule `r` has the instruction `c`, an `O_LIMIT` with the limit `n`. -/
def LimitRule (r : RulePtr) (c : BitVec 32) (n : ℕ) : InstallCond :=
  fun M f op cmd tablearg pkt junk now T =>
    InstallFits M f op cmd tablearg pkt junk now T ∧
      (f = r → op = .limit ∧ cmd = c ∧ (connLimit cmd tablearg).toNat = n)

/-- The condition under which the limit holds: all packets of the rule are of one family, and for IPv6
the mask selects both addresses. Limits fit in the counts of the parents. -/
def LimitCond (r : RulePtr) (c : BitVec 32) (n : ℕ) (ip6 : Bool) : InstallCond :=
  fun M f op cmd tablearg pkt junk now T =>
    LimitRule r c n M f op cmd tablearg pkt junk now T ∧
      (op = .limit → (connLimit cmd tablearg).toNat < 2 ^ 16) ∧
      (f = r → pkt.isIp6 = ip6 ∧ Selects (limitMask c) ip6)

variable {S : Set RulePtr} {T T' : DynTable} {r f : RulePtr} {mask : BitVec 8} {n : ℕ} {ip6 : Bool}
  {p q : DynPtr} {x : Masked} {now : BitVec 32} {id id' pkt junk junk' : FlowId} {dynType op : Opcode}
  {owner : DynOwner} {M : DynMem} {cmd c tablearg : BitVec 32} {σ τ : Firewall}

/-! ### The flow of a parent -/

/-- The fields of a flow that `lookup_dyn_parent` compares. -/
def FlowId.key (id : FlowId) : BitVec 8 × Addr × BitVec 16 × Addr × BitVec 16 :=
  (id.proto, id.src, id.srcPort, id.dst, id.dstPort)

theorem key_eq_iff : id.key = id'.key ↔ id.proto = id'.proto ∧ id.src = id'.src ∧
    id.srcPort = id'.srcPort ∧ id.dst = id'.dst ∧ id.dstPort = id'.dstPort := by
  simp [FlowId.key]

theorem src_eq_iff (h : id.isIp6 = id'.isIp6) : id.src = id'.src ↔
    if id.isIp6 then id.srcIp6 = id'.srcIp6 else id.srcIp = id'.srcIp := by
  unfold FlowId.src
  rw [← h]
  split_ifs
  · rw [Sum.inr.injEq]
  · rw [Sum.inl.injEq]

theorem dst_eq_iff (h : id.isIp6 = id'.isIp6) : id.dst = id'.dst ↔
    if id.isIp6 then id.dstIp6 = id'.dstIp6 else id.dstIp = id'.dstIp := by
  unfold FlowId.dst
  rw [← h]
  split_ifs
  · rw [Sum.inr.injEq]
  · rw [Sum.inl.injEq]

/-- The bucket of a flow is the one of its key. -/
theorem hashPacket_key (h : id.isIp6 = id'.isIp6) (hk : id.key = id'.key) (curr : BitVec 32) :
    hashPacket curr id = hashPacket curr id' := by
  obtain ⟨-, hsrc, hsport, hdst, hdport⟩ := key_eq_iff.1 hk
  rw [src_eq_iff h] at hsrc
  rw [dst_eq_iff h] at hdst
  unfold hashPacket
  rw [← h]
  split_ifs at hsrc hdst ⊢ with h6
  · rw [hsrc, hdst, hsport, hdport]
  · rw [hsrc, hdst, hsport, hdport]

theorem isParent_iff {e : DynRule} (h : pkt.isIp6 = e.id.isIp6) :
    isParent pkt r e = true ↔ e.dynType = .limitParent ∧ e.rule = r ∧ e.id.key = pkt.key := by
  rw [eq_comm (a := e.id.key), key_eq_iff, src_eq_iff h, dst_eq_iff h]
  unfold isParent
  split_ifs with h6
  all_goals
    simp only [Bool.and_eq_true, decide_eq_true_eq]
    constructor
    · rintro ⟨⟩
      simp_all
    · rintro ⟨⟩
      simp_all

theorem maskedFlow_isIp6 : (maskedFlow mask pkt junk).isIp6 = pkt.isIp6 := rfl

/-- The masked flow has the fields that the mask selects, and no others that a lookup compares. -/
theorem maskedFlow_key {pkt' : FlowId} (h : pkt.isIp6 = ip6) (h' : pkt'.isIp6 = ip6)
    (hc : Selects mask ip6) (hm : pkt.masked mask = pkt'.masked mask) :
    (maskedFlow mask pkt junk).key = (maskedFlow mask pkt' junk').key := by
  have heq := h.trans h'.symm
  rw [Masked.ext_iff] at hm
  obtain ⟨hproto, hsrc, hsport, hdst, hdport⟩ := hm
  have hs : mask.getLsbD 0 = true → pkt.src = pkt'.src := fun hb => by
    simpa [FlowId.masked, hb] using hsrc
  have hd : mask.getLsbD 2 = true → pkt.dst = pkt'.dst := fun hb => by
    simpa [FlowId.masked, hb] using hdst
  have heq' : (maskedFlow mask pkt junk).isIp6 = (maskedFlow mask pkt' junk').isIp6 := heq
  rw [src_eq_iff heq] at hs
  rw [dst_eq_iff heq] at hd
  rw [key_eq_iff, src_eq_iff heq', dst_eq_iff heq', maskedFlow_isIp6]
  refine ⟨hproto, ?_, ?_, ?_, ?_⟩
  · by_cases h6 : pkt.isIp6 = true
    · obtain ⟨hb, -⟩ := hc (h.symm.trans h6)
      have hs := hs hb
      rw [if_pos h6] at hs ⊢
      simp [maskedFlow, h6, ← heq, hb, hs]
    · rw [if_neg h6] at hs ⊢
      rcases Bool.eq_false_or_eq_true (mask.getLsbD 0) with hb | hb
      · simp [maskedFlow, h6, ← heq, hb, hs hb]
      · simp only [maskedFlow, hb, Bool.and_false, Bool.false_eq_true, if_false]
  · rcases Bool.eq_false_or_eq_true (mask.getLsbD 1) with hb | hb
    · simpa [FlowId.masked, maskedFlow, hb] using hsport
    · simp only [maskedFlow, hb, Bool.false_eq_true, if_false]
  · by_cases h6 : pkt.isIp6 = true
    · obtain ⟨-, hb⟩ := hc (h.symm.trans h6)
      have hd := hd hb
      rw [if_pos h6] at hd ⊢
      simp [maskedFlow, h6, ← heq, hb, hd]
    · rw [if_neg h6] at hd ⊢
      rcases Bool.eq_false_or_eq_true (mask.getLsbD 2) with hb | hb
      · simp [maskedFlow, h6, ← heq, hb, hd hb]
      · simp only [maskedFlow, hb, Bool.and_false, Bool.false_eq_true, if_false]
  · rcases Bool.eq_false_or_eq_true (mask.getLsbD 3) with hb | hb
    · simpa [FlowId.masked, maskedFlow, hb] using hdport
    · simp only [maskedFlow, hb, Bool.false_eq_true, if_false]

/-! ### The invariant -/

/-- The parents of the rule have different keys, the parent of a session has the key of its masked flow,
and no parent has more sessions than the limit. -/
structure Limited (r : RulePtr) (mask : BitVec 8) (n : ℕ) (ip6 : Bool) (T : DynTable) : Prop where
  family : ∀ p ∈ T.entries, (T.ent p).dynType = .limitParent → (T.ent p).rule = r →
    (T.ent p).id.isIp6 = ip6
  unique : ∀ p ∈ T.entries, ∀ q ∈ T.entries, (T.ent p).dynType = .limitParent →
    (T.ent q).dynType = .limitParent → (T.ent p).rule = r → (T.ent q).rule = r →
    (T.ent p).id.key = (T.ent q).id.key → p = q
  child : ∀ q ∈ T.entries, (T.ent q).dynType = .limit → (T.ent q).rule = r →
    (T.ent q).id.isIp6 = ip6 ∧ Selects mask ip6 ∧
      ∃ junk, (T.ent (T.ent q).parent).id.key = (maskedFlow mask (T.ent q).id junk).key
  room : ∀ p ∈ T.entries, (T.ent p).dynType = .limitParent → (T.ent p).rule = r →
    T.sessions p ≤ n

theorem Limited.of_nil (h : T.entries = []) : Limited r mask n ip6 T := by
  constructor <;> (rw [h]; exact fun _ hq => absurd hq List.not_mem_nil)

/-- All sessions of a masked flow have one parent. -/
theorem Limited.limitSessions_le (h : Limited r mask n ip6 T) (hT : T.Inv S) (x : Masked) :
    T.limitSessions r mask x ≤ n := by
  have hlimit : ∀ q, (T.ent q).limitOf r mask x = true ↔ (T.ent q).dynType = .limit ∧
      (T.ent q).rule = r ∧ (T.ent q).id.masked mask = x := fun q => by
    simp [DynRule.limitOf, and_assoc]
  by_cases hex : ∃ q ∈ T.entries, (T.ent q).limitOf r mask x = true
  · obtain ⟨q, hq, hlim⟩ := hex
    obtain ⟨htype, hrule, hx⟩ := (hlimit q).1 hlim
    obtain ⟨hp, hptype, hprule⟩ := hT.parent q hq htype
    refine le_trans (List.countP_mono_left fun q' hq' hlim' => ?_)
      (h.room _ hp hptype (hprule.trans hrule))
    obtain ⟨htype', hrule', hx'⟩ := (hlimit q').1 hlim'
    obtain ⟨hp', hptype', hprule'⟩ := hT.parent q' hq' htype'
    obtain ⟨h6, hc, junk, hkey⟩ := h.child q hq htype hrule
    obtain ⟨h6', -, junk', hkey'⟩ := h.child q' hq' htype' hrule'
    refine DynRule.sessionOf_iff.2 ⟨htype', h.unique _ hp' _ hp hptype' hptype
      (hprule'.trans hrule') (hprule.trans hrule) ?_⟩
    rw [hkey, hkey']
    exact maskedFlow_key h6' h6 hc (hx'.trans hx.symm)
  · refine le_of_eq_of_le (List.countP_eq_zero.2 fun q hq hlim => hex ⟨q, hq, hlim⟩) (Nat.zero_le n)

theorem Shrinks.sessions_le (h : Shrinks T T') (hT' : T'.Inv S) (p : DynPtr) :
    T'.sessions p ≤ T.sessions p := by
  have hsub : List.Subperm T'.entries T.entries :=
    hT'.nodup_entries.subperm fun q hq => h.entries hq
  have heq : (fun q => (T'.ent q).sessionOf p) = fun q => (T.ent q).sessionOf p := by
    funext q
    rw [DynRule.sessionOf, DynRule.sessionOf, h.dynType, h.parent]
  unfold DynTable.sessions
  rw [heq]
  exact hsub.countP_le _

theorem Limited.shrinks (h : Limited r mask n ip6 T) (hs : Shrinks T T') (hT' : T'.Inv S) :
    Limited r mask n ip6 T' where
  family p hp := by
    rw [hs.dynType, hs.rule, hs.id]
    exact h.family p (hs.entries hp)
  unique p hp q hq := by
    rw [hs.dynType, hs.dynType, hs.rule, hs.rule, hs.id, hs.id]
    exact h.unique p (hs.entries hp) q (hs.entries hq)
  child q hq := by
    rw [hs.dynType, hs.rule, hs.parent, hs.id, hs.id]
    exact h.child q (hs.entries hq)
  room p hp := by
    rw [hs.dynType, hs.rule]
    exact fun htype hrule => (hs.sessions_le hT' p).trans (h.room p (hs.entries hp) htype hrule)

/-- A new entry keeps the limit if a new parent has a new key, and a new session has the parent of its
masked flow, with room for it. -/
theorem Limited.link (h : Limited r mask n ip6 T) (hT : T.Inv S) (ho : owner.Fits S T dynType)
    (hparent : dynType = .limitParent → (newEntry T id dynType owner now).rule = r →
      id.isIp6 = ip6 ∧ ∀ p ∈ T.entries, (T.ent p).dynType = .limitParent → (T.ent p).rule = r →
        (T.ent p).id.key ≠ id.key)
    (hchild : ∀ p, owner = .parent p → (T.ent p).rule = r → id.isIp6 = ip6 ∧
      Selects mask ip6 ∧ (∃ junk, (T.ent p).id.key = (maskedFlow mask id junk).key) ∧ T.sessions p + 1 ≤ n) :
    Limited r mask n ip6 (T.link id dynType owner now) := by
  have hnew := @link_ent_brk T now id dynType owner
  have hold : ∀ q ∈ T.entries, (T.link id dynType owner now).ent q =
      { T.ent q with count := if (newEntry T id dynType owner now).sessionOf q then
          (T.ent q).count + 1 else (T.ent q).count } := fun q hq => link_ent ho (hT.lt q hq).ne
  have hmem : ∀ q, q ∈ (T.link id dynType owner now).entries → q = T.brk ∨ q ∈ T.entries :=
    fun q hq => List.mem_cons.1 (hT.link_entries.mem_iff.1 hq)
  refine ⟨fun p hp htype hrule => ?_, fun p hp q hq htype htype' hrule hrule' hkey => ?_,
    fun q hq htype hrule => ?_, fun p hp htype hrule => ?_⟩
  · rcases hmem p hp with rfl | hp
    · rw [hnew] at htype hrule ⊢
      exact (hparent htype hrule).1
    · rw [hold p hp] at htype hrule ⊢
      exact h.family p hp htype hrule
  · rcases hmem p hp with rfl | hp <;> rcases hmem q hq with rfl | hq
    · rfl
    · rw [hnew] at htype hrule hkey
      rw [hold q hq] at htype' hrule' hkey
      exact absurd hkey.symm ((hparent htype hrule).2 q hq htype' hrule')
    · rw [hold p hp] at htype hrule hkey
      rw [hnew] at htype' hrule' hkey
      exact absurd hkey ((hparent htype' hrule').2 p hp htype hrule)
    · rw [hold p hp] at htype hrule hkey
      rw [hold q hq] at htype' hrule' hkey
      exact h.unique p hp q hq htype htype' hrule hrule' hkey
  · rcases hmem q hq with rfl | hq
    · rw [hnew] at htype hrule ⊢
      cases owner with
      | rule f => exact absurd htype ho.2
      | parent p =>
        obtain ⟨h6, hc, hkey, -⟩ := hchild p rfl hrule
        change id.isIp6 = ip6 ∧ Selects mask ip6 ∧ ∃ junk, ((T.link id dynType (.parent p) now).ent p).id.key = _
        rw [hold p ho.2.1]
        exact ⟨h6, hc, hkey⟩
    · rw [hold q hq] at htype hrule ⊢
      obtain ⟨h6, hc, junk, hkey⟩ := h.child q hq htype hrule
      refine ⟨h6, hc, junk, ?_⟩
      change ((T.link id dynType owner now).ent (T.ent q).parent).id.key = _
      rw [hold _ (hT.parent q hq htype).1]
      exact hkey
  · rw [hT.link_sessions ho]
    rcases hmem p hp with rfl | hp
    · rw [hnew] at htype
      have hsess : (newEntry T id dynType owner now).sessionOf T.brk = false := by
        rw [DynRule.sessionOf, htype]
        rfl
      rw [hT.sessions_brk, hsess]
      exact Nat.zero_le n
    · rw [hold p hp] at htype hrule
      by_cases hsess : (newEntry T id dynType owner now).sessionOf p
      · rw [if_pos hsess]
        obtain ⟨hlimit, hpar⟩ := DynRule.sessionOf_iff.1 hsess
        cases owner with
        | rule f => exact absurd hlimit ho.2
        | parent p' =>
          change p' = p at hpar
          subst hpar
          exact (hchild p' rfl hrule).2.2.2
      · rw [if_neg hsess]
        exact h.room p hp htype hrule

theorem Limited.add {malloc : BitVec 32 → Bool} {zalloc : Bool} (h : Limited r mask n ip6 T)
    (hT : T.Inv S) (ho : owner.Fits S T dynType)
    (hparent : dynType = .limitParent → (newEntry T id dynType owner now).rule = r →
      id.isIp6 = ip6 ∧ ∀ p ∈ T.entries, (T.ent p).dynType = .limitParent → (T.ent p).rule = r →
        (T.ent p).id.key ≠ id.key)
    (hchild : ∀ p, owner = .parent p → (T.ent p).rule = r → id.isIp6 = ip6 ∧
      Selects mask ip6 ∧ (∃ junk, (T.ent p).id.key = (maskedFlow mask id junk).key) ∧
      T.sessions p + 1 ≤ n) :
    Limited r mask n ip6 (addDynRule malloc zalloc id dynType owner now T).2 := by
  obtain ⟨T₀, hT₀, hsame, hadd⟩ := @addDynRule_cases _ _ now id dynType owner malloc zalloc hT
  rcases hsame with rfl | ⟨hnil, hnil₀⟩
  · rcases hadd with hadd | ⟨-, hadd⟩
    · rw [hadd]
      exact h
    · rw [hadd]
      exact h.link hT ho hparent hchild
  · rcases hadd with hadd | ⟨-, hadd⟩
    · rw [hadd]
      exact .of_nil hnil₀
    · rw [hadd]
      cases owner with
      | rule f =>
        have hnone : ∀ p, p ∉ T₀.entries := fun p hp => by
          rw [hnil₀] at hp
          exact List.not_mem_nil hp
        have ho₀ : DynOwner.Fits S T₀ dynType (.rule f) := ho
        refine Limited.link (.of_nil hnil₀) hT₀ ho₀ (fun htype hrule => ?_) nofun
        exact ⟨(hparent htype hrule).1, fun p hp => absurd hp (hnone p)⟩
      | parent p =>
        have hp := ho.2.1
        rw [hnil] at hp
        exact absurd hp List.not_mem_nil

/-! ### What the functions keep -/

/-- The lookup of a parent keeps the limit, as it makes a new parent only for a new key. -/
theorem Limited.lookupDynParent (h : Limited r mask n ip6 T) (hT : T.Inv S) (hf : f ∈ S)
    (h6 : f = r → id.isIp6 = ip6) :
    Limited r mask n ip6 (lookupDynParent M id f now T).2 ∧
      ∀ p, (lookupDynParent M id f now T).1 = some p → f = r →
        ((lookupDynParent M id f now T).2.ent p).id.key = id.key := by
  unfold Ipfw.lookupDynParent
  split
  next q hfind =>
    split_ifs at hfind
    have hq := hT.mem (List.mem_of_find?_eq_some hfind)
    have hpar := List.find?_some hfind
    have halike : Alike T (T.modify q fun e => { e with expire := now + T.shortLifetime }) := by
      refine .modify (fun e => ?_) T q
      exact ⟨rfl, rfl, rfl, rfl, rfl⟩
    refine ⟨h.shrinks halike.shrinks (halike.inv hT), ?_⟩
    rintro p hp rfl
    obtain rfl := Option.some.inj hp
    rw [(halike.ent q).id]
    have hrule : (T.ent q).dynType = .limitParent ∧ (T.ent q).rule = f := by
      simp only [isParent, Bool.and_eq_true, decide_eq_true_eq] at hpar
      exact ⟨hpar.1.1.1.1.1, hpar.1.1.1.1.2.symm⟩
    have hfam : id.isIp6 = (T.ent q).id.isIp6 :=
      (h6 rfl).trans (h.family q hq hrule.1 hrule.2).symm
    exact ((isParent_iff hfam).1 hpar).2.2
  next hfind =>
    -- No parent in the bucket has the key, and a parent with the key would be in the bucket.
    have hnew : f = r → ∀ p ∈ T.entries, (T.ent p).dynType = .limitParent → (T.ent p).rule = f →
        (T.ent p).id.key ≠ id.key := by
      rintro rfl p hp htype hrule hkey
      have hfam : id.isIp6 = (T.ent p).id.isIp6 :=
        (h6 rfl).trans (h.family p hp htype hrule).symm
      have hbucket := hT.mem_bucket hp
      rw [hashPacket_key hfam.symm hkey] at hbucket
      have halloc : T.alloc = true := by
        by_contra halloc
        rw [hT.alloc (Bool.eq_false_iff.2 halloc)] at hbucket
        exact List.not_mem_nil hbucket
      rw [if_pos halloc, List.find?_eq_none] at hfind
      exact hfind p hbucket ((isParent_iff hfam).2 ⟨htype, hrule, hkey⟩)
    have ho : DynOwner.Fits S T .limitParent (.rule f) := ⟨hf, by decide⟩
    refine ⟨h.add hT ho (fun _ hrule => ?_) (by simp), fun p hp hfr => ?_⟩
    · change f = r at hrule
      subst hrule
      exact ⟨h6 rfl, hnew rfl⟩
    · obtain ⟨T₀, -, -, hadd | ⟨-, hadd⟩⟩ :=
        @addDynRule_cases _ _ now id .limitParent (.rule f) M.malloc M.zallocParent hT
      · rw [hadd] at hp
        cases hp
      · rw [hadd] at hp ⊢
        obtain rfl := Option.some.inj hp
        rw [link_ent_brk]
        rfl

theorem Limited.installEntry (h : Limited r (limitMask c) n ip6 T) (hT : T.Inv S) (hf : f ∈ S)
    (hc : f = r → op = .limit ∧ cmd = c ∧ (connLimit cmd tablearg).toNat = n ∧ pkt.isIp6 = ip6 ∧
      Selects (limitMask c) ip6) :
    Limited r (limitMask c) n ip6 (installEntry M f op cmd tablearg pkt junk now T).2 := by
  obtain ⟨T₁, hT₁, hs, heq | ⟨hlen, ⟨hop, heq⟩ | ⟨-, heq⟩⟩⟩ :=
    @installEntry_cases _ _ now f M pkt junk cmd tablearg op hT
  all_goals
    rw [heq]
    have h₁ := h.shrinks hs hT₁
  · exact h₁
  · have ho : DynOwner.Fits S T₁ .keepState (.rule f) := ⟨hf, by decide⟩
    exact h₁.add hT₁ ho nofun nofun
  · have hlook :=
      @Limited.lookupDynParent _ _ _ _ _ _ _ now (maskedFlow (cmd.extractLsb' 8 8) pkt junk) M h₁
        hT₁ hf fun hfr => (hc hfr).2.2.2.1
    obtain ⟨T₂, hT₂, hs₂, heq | ⟨p, hp, hmem, htype, hrule, hroom, heq⟩⟩ :=
      @installLimit_cases _ _ now _ M pkt junk cmd tablearg hT₁ hf hlen
    all_goals
      rw [heq]
      have h₂ := hlook.1.shrinks hs₂ hT₂
    · exact h₂
    · have ho : DynOwner.Fits S T₂ .limit (.parent p) := ⟨rfl, hmem, htype⟩
      refine h₂.add hT₂ ho nofun fun p' hp' hr => ?_
      obtain rfl := DynOwner.parent.inj hp'
      obtain ⟨-, rfl, hn, h6, hsel⟩ := hc (hrule.symm.trans hr)
      refine ⟨h6, hsel, ⟨junk, ?_⟩, ?_⟩
      · rw [hs₂.id, hlook.2 p hp (hrule.symm.trans hr)]
        rfl
      · rw [← hn, ← hT₂.sessions p hmem htype]
        exact hroom

theorem Limited.installState (h : Limited r (limitMask c) n ip6 T) (hT : T.Inv S) (hf : f ∈ S)
    (hb : InstallBounded M f op cmd tablearg pkt junk now T)
    (hc : f = r → op = .limit ∧ cmd = c ∧ (connLimit cmd tablearg).toNat = n ∧ pkt.isIp6 = ip6 ∧
      Selects (limitMask c) ip6) :
    Limited r (limitMask c) n ip6 (installState M f op cmd tablearg pkt junk now T).2 := by
  unfold Ipfw.installState
  unfold InstallBounded at hb
  have hinv := @lookupDynRuleLocked_inv _ _ now pkt none hT
  have hlook := h.shrinks (@lookupDynRuleLocked_shrinks _ now pkt none hT.tidy) hinv
  generalize lookupDynRuleLocked pkt none now T = x at hb hinv hlook ⊢
  obtain ⟨o, T₁⟩ := x
  cases o with
  | some x => exact hlook
  | none =>
    have hinv' := installEntry_inv hinv hf (hb rfl)
    have hentry := @Limited.installEntry _ _ _ _ _ _ now _ junk _ M _ _ _ hlook hinv hf hc
    dsimp only at hinv' hentry ⊢
    split_ifs
    · exact hentry
    · exact hentry.shrinks (lookupDynRuleLocked_shrinks hinv'.tidy) (lookupDynRuleLocked_inv hinv')

/-! ### Runs -/

theorem LimitCond.bounded (hT : T.Inv S) (hf : f ∈ S)
    (h : LimitCond r c n ip6 M f op cmd tablearg pkt junk now T) :
    InstallBounded M f op cmd tablearg pkt junk now T := by
  obtain ⟨⟨hfits, -⟩, hlimit, -⟩ := h
  exact fun hnone => installEntry_bounded (lookupDynRuleLocked_inv hT) hf hlimit (hfits hnone)

theorem Firewall.Next.limited (h : σ.Next (LimitCond r c n ip6) τ) (hσ : σ.dyn.Inv σ.rules)
    (hl : Limited r (limitMask c) n ip6 σ.dyn) :
    τ.dyn.Inv τ.rules ∧ Limited r (limitMask c) n ip6 τ.dyn := by
  have hinv : τ.dyn.Inv τ.rules := (h.mono fun _ _ _ _ _ _ _ _ hf hP => hP.bounded hσ hf).inv hσ
  refine ⟨hinv, ?_⟩
  cases h with
  | op o => exact hl
  | children now hreap => exact hl.shrinks (removeDynRule_shrinks hσ.tidy) hinv
  | install M f op cmd tablearg pkt junk now hf hP =>
    refine hl.installState hσ hf (hP.bounded hσ hf) fun hfr => ?_
    obtain ⟨⟨-, hrule⟩, -, hfam⟩ := hP
    obtain ⟨hop, hcmd, hn⟩ := hrule hfr
    obtain ⟨h6, hsel⟩ := hfam hfr
    exact ⟨hop, hcmd, hn, h6, hsel⟩
  | lookup pkt ack now =>
    rw [lookupDynRule_table] at hinv ⊢
    exact hl.shrinks (lookupDynRuleLocked_shrinks hσ.tidy) hinv
  | remove rule keep force now => exact hl.shrinks (removeDynRule_shrinks hσ.tidy) hinv
  | sysctl v hv =>
    refine hl.shrinks ?_ hinv
    exact ⟨rfl, rfl, rfl, fun _ _ h => h, fun _ => rfl, fun _ => rfl, fun _ => rfl, fun _ => rfl⟩

theorem Firewall.Reach.limited_inv (h : σ.Reach (LimitCond r c n ip6)) :
    σ.dyn.Inv σ.rules ∧ Limited r (limitMask c) n ip6 σ.dyn := by
  induction h with
  | init b => exact ⟨.init, .of_nil (Buckets.all_nil fun _ => rfl)⟩
  | next _ hnext ih => exact hnext.limited ih.1 ih.2

/-- **The limit of sessions** in every reachable state, for packets of one family, which if they are IPv6
need a mask with both addresses. -/
theorem Firewall.Reach.sessions_limited (h : σ.Reach (LimitCond r c n ip6)) (x : Masked) :
    σ.dyn.limitSessions r (limitMask c) x ≤ n :=
  h.limited_inv.2.limitSessions_le h.limited_inv.1 x

/-- An IPv6 flow to one host. -/
def ip6Flow (srcPort : BitVec 16) : FlowId :=
  { (default : FlowId) with addrType := 6, proto := ipprotoTcp, srcPort := srcPort }

/-- What is on the stack. -/
def stackJunk (w : BitVec 32) : FlowId :=
  { (default : FlowId) with srcIp6 := ⟨0, 0, 0, w⟩ }

/-- Two packets of the flows make sessions of rule 1, an `O_LIMIT` with the operand `c`. -/
def twoSessions (c : BitVec 32) (pkt pkt' junk junk' : FlowId) : Firewall :=
  let T := (installState ⟨fun _ => true, true, true⟩ 1 .limit c 0 pkt junk 0 addedRule.dyn).2
  { addedRule with
    dyn := (installState ⟨fun _ => true, true, true⟩ 1 .limit c 0 pkt' junk' 0 T).2 }

/-- Two IPv4 flows, with the limit 2 for the destination address. -/
theorem limited_of_ip4 :
    (twoSessions 0x20400#32 default { (default : FlowId) with srcPort := 7 } default
      default).dyn.limitSessions 1 4#8 ((default : FlowId).masked 4#8) ≤ 2 := by
  have hadd : addedRule.Reach (LimitCond 1 0x20400#32 2 false) := .next (.init false) (.op _)
  have htwo : (twoSessions 0x20400#32 default { (default : FlowId) with srcPort := 7 } default
      default).Reach (LimitCond 1 0x20400#32 2 false) := by
    refine .next (.next hadd
      (.install ⟨fun _ => true, true, true⟩ 1 .limit 0x20400#32 0 default default 0 (.inl (by decide))
        ?_)) (.install ⟨fun _ => true, true, true⟩ 1 .limit 0x20400#32 0 _ default 0
          (.inl (by decide)) ?_)
    · exact ⟨⟨fun _ => by decide +kernel, fun _ => ⟨rfl, rfl, rfl⟩⟩, fun _ => by decide,
        fun _ => ⟨rfl, nofun⟩⟩
    · exact ⟨⟨fun _ => by decide +kernel, fun _ => ⟨rfl, rfl, rfl⟩⟩, fun _ => by decide,
        fun _ => ⟨rfl, nofun⟩⟩
  exact htwo.sessions_limited _

/-- **Two sessions in spite of the limit 1** for the destination address, as the source address of the
masked flow keeps what is on the stack. -/
theorem not_limited_of_ip6 : ¬ ∀ σ : Firewall, σ.Reach (LimitRule 1 0x10400#32 1) →
    ∀ x, σ.dyn.limitSessions 1 (limitMask 0x10400#32) x ≤ 1 := by
  intro h
  have hadd : addedRule.Reach (LimitRule 1 0x10400#32 1) := .next (.init false) (.op _)
  refine absurd (h (twoSessions 0x10400#32 (ip6Flow 1) (ip6Flow 2) (stackJunk 0) (stackJunk 4))
    (.next (.next hadd
      (.install ⟨fun _ => true, true, true⟩ 1 .limit 0x10400#32 0 (ip6Flow 1) (stackJunk 0) 0
        (.inl (by decide)) ?_))
      (.install ⟨fun _ => true, true, true⟩ 1 .limit 0x10400#32 0 (ip6Flow 2) (stackJunk 4) 0
        (.inl (by decide)) ?_)) ((ip6Flow 1).masked 4#8)) (by decide +kernel)
  · exact ⟨fun _ => by decide +kernel, fun _ => ⟨rfl, rfl, rfl⟩⟩
  · exact ⟨fun _ => by decide +kernel, fun _ => ⟨rfl, rfl, rfl⟩⟩

end Ipfw
