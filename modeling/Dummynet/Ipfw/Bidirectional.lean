import Dummynet.Ipfw.Limit

/-!
# Sessions are found from both ends

A session is found by the packets of its flow and by those of the flow in the other direction, as
`hash_packet` is symmetric. At most one session is of a given flow, because a new one is made only
after a lookup has found none.

`lookup_dyn_rule_locked` compares the addresses of the family of the packet, but not the families.
A packet may thus find a session of the other family, of which these addresses are not set.

## Main definitions

* `FlowId.dirOf`: the direction of a packet along a flow.
* `DynTable.Finds`: what a lookup is for.
* `DynTable.Stranger`: a session of another address family is in the way.

## Main results

* `Firewall.Reach.finds_iff`: in every reachable table a lookup finds the session of the packet, if
  no stranger is in the way.
* `not_finds`: an IPv4 packet finds an IPv6 session.
-/

namespace Ipfw

/-! ### The direction of a packet -/

/-- The flow in the other direction. -/
def FlowId.swap (id : FlowId) : FlowId :=
  { id with
    dstIp := id.srcIp
    srcIp := id.dstIp
    dstPort := id.srcPort
    srcPort := id.dstPort
    dstIp6 := id.srcIp6
    srcIp6 := id.dstIp6 }

/-- The flows have the same protocol, address family, addresses and ports. -/
def FlowId.SameFlow (id id' : FlowId) : Prop := id.addrType = id'.addrType ∧ id.key = id'.key

instance (id id' : FlowId) : Decidable (id.SameFlow id') := inferInstanceAs (Decidable (_ ∧ _))

/-- The direction of a packet along the flow `id`, if it is of this flow. -/
def FlowId.dirOf (pkt id : FlowId) : Option Dir :=
  if pkt.SameFlow id then some .forward
  else if pkt.SameFlow id.swap then some .reverse
  else none

/-- The entry is a session that has not expired. -/
def DynTable.Session (T : DynTable) (now : BitVec 32) (q : DynPtr) : Prop :=
  q ∈ T.entries ∧ (T.ent q).dynType ≠ .limitParent ∧ timeLeq (T.ent q).expire now = false

instance (T : DynTable) (now : BitVec 32) (q : DynPtr) : Decidable (T.Session now q) :=
  inferInstanceAs (Decidable (_ ∧ _ ∧ _))

/-- What a lookup is for. It finds the one session of the packet's flow in either direction, unlinks
only entries that have expired, and keeps the others. -/
structure DynTable.Finds (T : DynTable) (pkt : FlowId) (ack : Option (BitVec 32))
    (now : BitVec 32) : Prop where
  found : ∀ q dir, (lookupDynRuleLocked pkt ack now T).1 = some (q, dir) ↔
    T.Session now q ∧ pkt.dirOf (T.ent q).id = some dir
  unique : ∀ p q, T.Session now p → T.Session now q → (pkt.dirOf (T.ent p).id).isSome →
    (pkt.dirOf (T.ent q).id).isSome → p = q
  kept : ∀ q ∈ T.entries, timeLeq (T.ent q).expire now = false →
    q ∈ (lookupDynRuleLocked pkt ack now T).2.entries
  old : ∀ q ∈ (lookupDynRuleLocked pkt ack now T).2.entries, q ∈ T.entries
  nodup : (lookupDynRuleLocked pkt ack now T).2.entries.Nodup
  same : ∀ q, ((lookupDynRuleLocked pkt ack now T).2.ent q).id = (T.ent q).id ∧
    ((lookupDynRuleLocked pkt ack now T).2.ent q).rule = (T.ent q).rule ∧
    ((lookupDynRuleLocked pkt ack now T).2.ent q).dynType = (T.ent q).dynType

/-- A session of another address family is in the bucket of the packet, with its protocol and ports,
and with its addresses in the fields of the packet's family. None of the packet's flow comes before
it. -/
def DynTable.Stranger (T : DynTable) (pkt : FlowId) (now : BitVec 32) : Prop :=
  ∃ l q r, T.list (hashPacket T.curr pkt) = l ++ q :: r ∧ T.Session now q ∧
    pkt.proto = (T.ent q).id.proto ∧ (pkt.matches (T.ent q).id).isSome ∧
    pkt.addrType ≠ (T.ent q).id.addrType ∧
    ∀ p ∈ l, T.Session now p → pkt.dirOf (T.ent p).id = none

variable {T T' : DynTable} {f : RulePtr} {i : ℕ} {p q : DynPtr} {qs : List DynPtr}
  {now : BitVec 32} {id id' id'' pkt junk : FlowId} {dynType op : Opcode} {owner : DynOwner}
  {M : DynMem} {cmd tablearg : BitVec 32} {ack : Option (BitVec 32)} {dir : Dir} {σ τ : Firewall}
  {P : InstallCond}

namespace FlowId

theorem swap_swap : id.swap.swap = id := rfl

theorem SameFlow.symm (h : id.SameFlow id') : id'.SameFlow id := ⟨h.1.symm, h.2.symm⟩

theorem SameFlow.trans (h : id.SameFlow id') (h' : id'.SameFlow id'') : id.SameFlow id'' :=
  ⟨h.1.trans h'.1, h.2.trans h'.2⟩

theorem isIp6_congr (h : id.addrType = id'.addrType) : id.isIp6 = id'.isIp6 := by
  unfold isIp6
  rw [h]

theorem sameFlow_iff (hfam : id.addrType = id'.addrType) (hproto : id.proto = id'.proto) :
    id.SameFlow id' ↔ (if id.isIp6 then id.srcIp6 = id'.srcIp6 ∧ id.dstIp6 = id'.dstIp6
      else id.srcIp = id'.srcIp ∧ id.dstIp = id'.dstIp) ∧
      id.srcPort = id'.srcPort ∧ id.dstPort = id'.dstPort := by
  have h6 := isIp6_congr hfam
  unfold SameFlow
  rw [key_eq_iff, src_eq_iff h6, dst_eq_iff h6]
  split_ifs
  · constructor
    · rintro ⟨-, -, hsrc, hsport, hdst, hdport⟩
      exact ⟨⟨hsrc, hdst⟩, hsport, hdport⟩
    · rintro ⟨⟨hsrc, hdst⟩, hsport, hdport⟩
      exact ⟨hfam, hproto, hsrc, hsport, hdst, hdport⟩
  · constructor
    · rintro ⟨-, -, hsrc, hsport, hdst, hdport⟩
      exact ⟨⟨hsrc, hdst⟩, hsport, hdport⟩
    · rintro ⟨⟨hsrc, hdst⟩, hsport, hdport⟩
      exact ⟨hfam, hproto, hsrc, hsport, hdst, hdport⟩

theorem SameFlow.swap (h : id.SameFlow id') : id.swap.SameFlow id'.swap := by
  obtain ⟨hfam, hkey⟩ := h
  have hproto := (key_eq_iff.1 hkey).1
  obtain ⟨haddr, hsport, hdport⟩ := (sameFlow_iff hfam hproto).1 ⟨hfam, hkey⟩
  have hfam' : id.swap.addrType = id'.swap.addrType := hfam
  have hproto' : id.swap.proto = id'.swap.proto := hproto
  refine (sameFlow_iff hfam' hproto').2 ⟨?_, hdport, hsport⟩
  change if id.isIp6 then id.dstIp6 = id'.dstIp6 ∧ id.srcIp6 = id'.srcIp6
    else id.dstIp = id'.dstIp ∧ id.srcIp = id'.srcIp
  split_ifs at haddr ⊢
  · exact haddr.symm
  · exact haddr.symm

theorem dirOf_isSome_iff : (pkt.dirOf id).isSome ↔ pkt.SameFlow id ∨ pkt.SameFlow id.swap := by
  unfold dirOf
  split_ifs with hfwd hrev
  · exact iff_of_true rfl (.inl hfwd)
  · exact iff_of_true rfl (.inr hrev)
  · exact iff_of_false Bool.false_ne_true (not_or.2 ⟨hfwd, hrev⟩)

theorem addrType_of_dirOf (h : (pkt.dirOf id).isSome) : pkt.addrType = id.addrType := by
  rcases dirOf_isSome_iff.1 h with h | h
  · exact h.1
  · exact h.1

theorem proto_of_dirOf (h : (pkt.dirOf id).isSome) : pkt.proto = id.proto := by
  rcases dirOf_isSome_iff.1 h with h | h
  · exact (key_eq_iff.1 h.2).1
  · exact (key_eq_iff.1 h.2).1

/-- Two flows that a packet runs along are the same in one of the directions. -/
theorem dirOf_trans (h : (pkt.dirOf id).isSome) (h' : (pkt.dirOf id').isSome) :
    (id.dirOf id').isSome := by
  rw [dirOf_isSome_iff] at *
  rcases h with h | h <;> rcases h' with h' | h'
  · exact .inl (h.symm.trans h')
  · exact .inr (h.symm.trans h')
  · exact .inr (h.swap.symm.trans h'.swap)
  · exact .inl (h.swap.symm.trans h'.swap)

theorem dirOf_symm (h : (pkt.dirOf id).isSome) : (id.dirOf pkt).isSome := by
  refine dirOf_trans h ?_
  exact dirOf_isSome_iff.2 (.inl ⟨rfl, rfl⟩)

/-- **The hash is symmetric.** -/
theorem hashPacket_swap (curr : BitVec 32) : hashPacket curr id.swap = hashPacket curr id := by
  have h6 : id.swap.isIp6 = id.isIp6 := rfl
  unfold hashPacket
  rw [h6]
  split_ifs
  · dsimp only [swap]
    congr 2
    ac_rfl
  · dsimp only [swap]
    congr 2
    ac_rfl

theorem hashPacket_dirOf (h : (pkt.dirOf id).isSome) (curr : BitVec 32) :
    hashPacket curr pkt = hashPacket curr id := by
  rcases dirOf_isSome_iff.1 h with ⟨hfam, hkey⟩ | ⟨hfam, hkey⟩
  · exact hashPacket_key (isIp6_congr hfam) hkey curr
  · exact (hashPacket_key (isIp6_congr hfam) hkey curr).trans (hashPacket_swap curr)

/-- In one family the comparison of the lookup is the right one. -/
theorem matches_eq_dirOf (hfam : pkt.addrType = id.addrType) (hproto : pkt.proto = id.proto) :
    pkt.matches id = pkt.dirOf id := by
  have hswap : pkt.addrType = id.swap.addrType := hfam
  have hproto' : pkt.proto = id.swap.proto := hproto
  unfold dirOf
  simp only [sameFlow_iff hfam hproto, sameFlow_iff hswap hproto']
  unfold FlowId.matches
  by_cases h6 : pkt.isIp6 = true
  · simp only [if_pos h6, and_assoc]
    rfl
  · simp only [if_neg h6, and_assoc]
    rfl

end FlowId

/-! ### What the lookup finds -/

/-- How the lookup finds the entry `e`. -/
def DynRule.hit (e : DynRule) (pkt : FlowId) (now : BitVec 32) : Option Dir :=
  if timeLeq e.expire now = false ∧ pkt.proto = e.id.proto ∧ e.dynType ≠ .limitParent then
    pkt.matches e.id
  else none

theorem unlink_hit (r : DynPtr) : ((T.unlink i q).ent r).hit pkt now = (T.ent r).hit pkt now := by
  rw [unlink_ent]
  rfl

/-- The loop finds the first entry that matches. -/
theorem lookupLoop_eq : (lookupLoop pkt now i T qs).1 =
    qs.findSome? fun q => ((T.ent q).hit pkt now).map fun dir => (q, dir) := by
  induction qs generalizing T with
  | nil => rfl
  | cons q qs ih =>
    have hskip : (T.ent q).hit pkt now = none → (lookupLoop pkt now i T qs).1 =
        (q :: qs).findSome? fun q => ((T.ent q).hit pkt now).map fun dir => (q, dir) := by
      intro hnone
      rw [ih, List.findSome?_cons_of_isNone]
      rw [hnone]
      rfl
    unfold lookupLoop
    dsimp only
    split_ifs with hbusy hexp hmatch
    · exact hskip (if_neg fun h => h.2.2 hbusy.1)
    · rw [ih]
      simp only [unlink_hit]
      rw [← ih]
      exact hskip (if_neg fun h => by rw [hexp] at h; cases h.1)
    · have hhit : (T.ent q).hit pkt now = pkt.matches (T.ent q).id :=
        if_pos ⟨Bool.eq_false_iff.2 hexp, hmatch⟩
      cases hm : pkt.matches (T.ent q).id with
      | some dir =>
        rw [hm] at hhit
        rw [List.findSome?_cons, hhit]
        rfl
      | none => exact hskip (hhit.trans hm)
    · exact hskip (if_neg fun h => hmatch h.2)

/-- A loop that finds nothing has unlinked all expired sessions. -/
theorem lookupLoop_expired (hn : qs.Nodup) (hT : (T.list i).Nodup) (hqs : ∀ r ∈ qs, r ∈ T.list i)
    (hnone : (lookupLoop pkt now i T qs).1 = none) (hq : q ∈ qs)
    (htype : (T.ent q).dynType ≠ .limitParent) (hexp : timeLeq (T.ent q).expire now = true) :
    q ∉ (lookupLoop pkt now i T qs).2.list i := by
  induction qs generalizing T with
  | nil => exact absurd hq List.not_mem_nil
  | cons q' qs ih =>
    have htail : ∀ r ∈ qs, r ∈ T.list i := fun r hr => hqs r (List.mem_cons_of_mem _ hr)
    have hskip := ih hn.of_cons hT htail
    unfold lookupLoop at hnone ⊢
    dsimp only at hnone ⊢
    rcases List.mem_cons.1 hq with rfl | hq
    · -- The entry is unlinked here, and the rest of the loop links nothing.
      rw [if_neg fun h => htype h.1, if_pos hexp]
      exact fun hmem => not_mem_unlink hT
        ((lookupLoop_unlinks hn.of_cons (mem_unlink_of_nodup hn hqs)).shrinks.mem i q hmem)
    · split_ifs at hnone ⊢ with hbusy hexp' hmatch
      · exact hskip hnone hq htype hexp
      · have hT' : ((T.unlink i q').list i).Nodup := by
          rw [unlink_list, Function.update_self]
          exact hT.erase q'
        refine ih hn.of_cons hT' (mem_unlink_of_nodup hn hqs) hnone hq ?_ ?_
        · rw [unlink_ent]
          exact htype
        · rw [unlink_ent]
          exact hexp
      · cases hm : pkt.matches (T.ent q').id with
        | some dir =>
          rw [hm] at hnone
          cases hnone
        | none =>
          rw [hm] at hnone
          exact hskip hnone hq htype hexp
      · exact hskip hnone hq htype hexp

/-- The lookup finds the first entry of the bucket that matches. -/
theorem lookupDynRuleLocked_eq (h : T.Tidy) : (lookupDynRuleLocked pkt ack now T).1 =
    (T.list (hashPacket T.curr pkt)).findSome? fun q =>
      ((T.ent q).hit pkt now).map fun dir => (q, dir) := by
  rw [← lookupLoop_eq (T := T) (i := hashPacket T.curr pkt)]
  unfold lookupDynRuleLocked
  split_ifs with halloc
  · rw [h.alloc (by simpa using halloc)]
    rfl
  · dsimp only
    generalize lookupLoop pkt now _ T _ = x
    obtain ⟨_ | ⟨q, dir⟩, T₁⟩ := x
    · rfl
    · rfl

/-- What has been found. -/
theorem hit_eq_some_iff {e : DynRule} : e.hit pkt now = some dir ↔
    timeLeq e.expire now = false ∧ pkt.proto = e.id.proto ∧ e.dynType ≠ .limitParent ∧
      pkt.matches e.id = some dir := by
  unfold DynRule.hit
  rw [ite_eq_iff]
  constructor
  · rintro (⟨⟨hexp, hproto, htype⟩, hm⟩ | ⟨-, hm⟩)
    · exact ⟨hexp, hproto, htype, hm⟩
    · cases hm
  · rintro ⟨hexp, hproto, htype, hm⟩
    exact .inl ⟨⟨hexp, hproto, htype⟩, hm⟩

/-- The lookup finds the sessions of the packet's flow, unless there are others before them. -/
theorem hit_of_dirOf (hq : T.Session now q) (hdir : pkt.dirOf (T.ent q).id = some dir) :
    (T.ent q).hit pkt now = some dir := by
  have hsome : (pkt.dirOf (T.ent q).id).isSome := by
    rw [hdir]
    rfl
  have hproto := FlowId.proto_of_dirOf hsome
  rw [← FlowId.matches_eq_dirOf (FlowId.addrType_of_dirOf hsome) hproto] at hdir
  exact hit_eq_some_iff.2 ⟨hq.2.2, hproto, hq.2.1, hdir⟩

/-! ### At most one session of a flow -/

/-- No session is of the packet's flow, not even an expired one. -/
def DynTable.Fresh (T : DynTable) (pkt : FlowId) : Prop :=
  ∀ q ∈ T.entries, (T.ent q).dynType ≠ .limitParent → pkt.dirOf (T.ent q).id = none

/-- No two sessions are of one flow, in the same direction or in opposite ones. -/
structure DynTable.Sole (T : DynTable) : Prop extends T.Tidy where
  sole : ∀ p ∈ T.entries, ∀ q ∈ T.entries, (T.ent p).dynType ≠ .limitParent →
    (T.ent q).dynType ≠ .limitParent → ((T.ent p).id.dirOf (T.ent q).id).isSome → p = q

theorem DynTable.Fresh.of_nil (h : T.entries = []) : T.Fresh pkt := by
  intro q hq
  rw [h] at hq
  exact absurd hq List.not_mem_nil

theorem DynTable.Sole.of_nil (h : T.Tidy) (hnil : T.entries = []) : T.Sole := by
  refine ⟨h, fun p hp => ?_⟩
  rw [hnil] at hp
  exact absurd hp List.not_mem_nil

theorem DynTable.Fresh.shrinks (h : T.Fresh pkt) (hs : Shrinks T T') : T'.Fresh pkt := by
  intro q hq htype
  rw [hs.dynType] at htype
  rw [hs.id]
  exact h q (hs.entries hq) htype

theorem DynTable.Sole.shrinks (h : T.Sole) (hs : Shrinks T T') (ht : T'.Tidy) : T'.Sole := by
  refine ⟨ht, fun p hp q hq htype htype' => ?_⟩
  rw [hs.dynType] at htype htype'
  rw [hs.id, hs.id]
  exact h.sole p (hs.entries hp) q (hs.entries hq) htype htype'

/-- The flow of a packet has at most one session. -/
theorem DynTable.Sole.unique (h : T.Sole) (hp : T.Session now p) (hq : T.Session now q)
    (hdir : (pkt.dirOf (T.ent p).id).isSome) (hdir' : (pkt.dirOf (T.ent q).id).isSome) : p = q :=
  h.sole p hp.1 q hq.1 hp.2.1 hq.2.1 (FlowId.dirOf_trans hdir hdir')

/-- After a lookup that finds nothing there is no session of the packet's flow. -/
theorem fresh_of_lookup (h : T.Tidy) (hnone : (lookupDynRuleLocked pkt ack now T).1 = none) :
    (lookupDynRuleLocked pkt ack now T).2.Fresh pkt := by
  have hshrinks := @lookupDynRuleLocked_shrinks _ now pkt ack h
  have htidy := @lookupDynRuleLocked_tidy _ now pkt ack h
  intro q hq htype
  by_contra hdir
  rw [hshrinks.dynType] at htype
  rw [hshrinks.id, ← ne_eq, Option.ne_none_iff_isSome] at hdir
  have hbucket := htidy.mem_bucket hq
  rw [hshrinks.curr, hshrinks.id, ← FlowId.hashPacket_dirOf hdir] at hbucket
  have hold := hshrinks.mem _ q hbucket
  obtain ⟨dir, hdir⟩ := Option.isSome_iff_exists.1 hdir
  rcases Bool.eq_false_or_eq_true (timeLeq (T.ent q).expire now) with hexp | hexp
  · -- An expired session of the flow is unlinked.
    unfold lookupDynRuleLocked at hnone hbucket
    split_ifs at hnone hbucket with halloc
    · rw [h.alloc (by simpa using halloc)] at hold
      exact List.not_mem_nil hold
    · have hgone := @lookupLoop_expired T _ q (T.list (hashPacket T.curr pkt)) now pkt (h.nodup _)
        (h.nodup _) fun r hr => hr
      dsimp only at hnone hbucket
      generalize lookupLoop pkt now _ T _ = x at hnone hbucket hgone
      obtain ⟨_ | ⟨q', dir'⟩, T₁⟩ := x
      · exact hgone rfl hold htype hexp hbucket
      · cases hnone
  · have hhit := hit_of_dirOf ⟨h.mem hold, htype, hexp⟩ hdir
    rw [lookupDynRuleLocked_eq h, List.findSome?_eq_none_iff] at hnone
    have hnone := hnone q hold
    rw [hhit] at hnone
    cases hnone

/-- A new entry is a parent, or a session of a flow that has none. -/
theorem DynTable.Sole.link (h : T.Sole) (halloc : T.alloc = true)
    (hnew : dynType = .limitParent ∨ T.Fresh id) : (T.link id dynType owner now).Sole := by
  have htidy : (T.link id dynType owner now).Tidy := h.toTidy.link halloc
  have hmem : ∀ q, q ∈ (T.link id dynType owner now).entries → q = T.brk ∨ q ∈ T.entries :=
    fun q hq => List.mem_cons.1 (h.toTidy.link_entries.mem_iff.1 hq)
  have hold : ∀ q ∈ T.entries, ((T.link id dynType owner now).ent q).id = (T.ent q).id ∧
      ((T.link id dynType owner now).ent q).dynType = (T.ent q).dynType :=
    fun q hq => link_id (h.lt q hq).ne
  have hbrk : ((T.link id dynType owner now).ent T.brk).id = id ∧
      ((T.link id dynType owner now).ent T.brk).dynType = dynType := by
    rw [link_ent_brk]
    exact ⟨rfl, rfl⟩
  refine ⟨htidy, fun p hp q hq htype htype' hdir => ?_⟩
  rcases hmem p hp with rfl | hp <;> rcases hmem q hq with rfl | hq
  · rfl
  · rw [hbrk.2] at htype
    rw [(hold q hq).2] at htype'
    rw [hbrk.1, (hold q hq).1, hnew.resolve_left htype q hq htype'] at hdir
    cases hdir
  · rw [hbrk.2] at htype'
    rw [(hold p hp).2] at htype
    rw [hbrk.1, (hold p hp).1] at hdir
    have hdir := FlowId.dirOf_symm hdir
    rw [hnew.resolve_left htype' p hp htype] at hdir
    cases hdir
  · rw [(hold p hp).2] at htype
    rw [(hold q hq).2] at htype'
    rw [(hold p hp).1, (hold q hq).1] at hdir
    exact h.sole p hp q hq htype htype' hdir

theorem DynTable.Fresh.link (h : T.Fresh pkt) (hT : T.Tidy) :
    (T.link id .limitParent owner now).Fresh pkt := by
  intro q hq htype
  rcases List.mem_cons.1 (hT.link_entries.mem_iff.1 hq) with rfl | hq
  · rw [link_ent_brk] at htype
    exact absurd rfl htype
  · have hold := @link_id T now id .limitParent owner q (hT.lt q hq).ne
    rw [hold.2] at htype
    rw [hold.1]
    exact h q hq htype

/-- `add_dyn_rule` may allocate the table anew, and then it fails or links a new entry. -/
theorem addDynRule_table {malloc : BitVec 32 → Bool} {zalloc : Bool} (h : T.Sole) :
    ∃ T₀, T₀.Sole ∧ (∀ pkt, T.Fresh pkt → T₀.Fresh pkt) ∧
      ((addDynRule malloc zalloc id dynType owner now T).2 = T₀ ∨ T₀.alloc = true ∧
        (addDynRule malloc zalloc id dynType owner now T).2 = T₀.link id dynType owner now) := by
  unfold addDynRule
  dsimp only
  generalize hT₀ : (if T.alloc = false ∨ T.count = 0 ∧ T.buckets ≠ T.curr then
    reallocDynamicTable malloc T else T) = T₀
  refine ⟨T₀, ?_⟩
  have hcases : T₀.Sole ∧ ∀ pkt, T.Fresh pkt → T₀.Fresh pkt := by
    rw [← hT₀]
    split_ifs
    · obtain ⟨htidy, -, halike | hnil⟩ := @reallocDynamicTable_tidy _ malloc h.toTidy
      · exact ⟨h.shrinks halike.shrinks htidy, fun pkt hf => hf.shrinks halike.shrinks⟩
      · exact ⟨.of_nil htidy hnil, fun pkt _ => .of_nil hnil⟩
    · exact ⟨h, fun pkt hf => hf⟩
  refine ⟨hcases.1, hcases.2, ?_⟩
  split_ifs with halloc hmem
  · exact .inl rfl
  · exact .inl rfl
  · exact .inr ⟨by simpa using halloc, rfl⟩

namespace DynTable.Sole

/-- A new session of a flow that has none. -/
theorem add {malloc : BitVec 32 → Bool} {zalloc : Bool} (h : T.Sole) (hf : T.Fresh id) :
    (addDynRule malloc zalloc id dynType owner now T).2.Sole := by
  obtain ⟨T₀, hT₀, hfresh, heq | ⟨halloc, heq⟩⟩ :=
    @addDynRule_table _ now id dynType owner malloc zalloc h
  · rw [heq]
    exact hT₀
  · rw [heq]
    exact hT₀.link halloc (.inr (hfresh id hf))

/-- The lookup of a parent makes no session. -/
theorem lookupDynParent (h : T.Sole) (hf : T.Fresh pkt) :
    (lookupDynParent M id f now T).2.Sole ∧ (lookupDynParent M id f now T).2.Fresh pkt := by
  unfold Ipfw.lookupDynParent
  split
  next q _ =>
    have halike : Alike T (T.modify q fun e => { e with expire := now + T.shortLifetime }) := by
      refine .modify (fun e => ?_) T q
      exact ⟨rfl, rfl, rfl, rfl, rfl⟩
    exact ⟨h.shrinks halike.shrinks (halike.tidy h.toTidy), hf.shrinks halike.shrinks⟩
  next =>
    obtain ⟨T₀, hT₀, hfresh, heq | ⟨halloc, heq⟩⟩ :=
      @addDynRule_table _ now id .limitParent (.rule f) M.malloc M.zallocParent h
    · rw [heq]
      exact ⟨hT₀, hfresh pkt hf⟩
    · rw [heq]
      exact ⟨hT₀.link halloc (.inl rfl), (hfresh pkt hf).link hT₀.toTidy⟩

theorem removeDynRule {rule : Option RulePtr} {keep : Option DynPtr} {force : Bool} (h : T.Sole) :
    (removeDynRule rule keep force now T).Sole :=
  h.shrinks (removeDynRule_shrinks h.toTidy) (removeDynRule_tidy h.toTidy)

theorem installLimit (h : T.Sole) (hf : T.Fresh pkt) :
    (installLimit M f cmd tablearg pkt junk now T).2.Sole := by
  unfold Ipfw.installLimit
  dsimp only
  have hlook := @lookupDynParent _ f now (maskedFlow (cmd.extractLsb' 8 8) pkt junk) pkt M h hf
  generalize Ipfw.lookupDynParent M (maskedFlow (cmd.extractLsb' 8 8) pkt junk) f now T = x
    at hlook ⊢
  obtain ⟨_ | p, T₁⟩ := x
  · exact hlook.1
  · dsimp only at hlook ⊢
    generalize hT₂ : (if connLimit cmd tablearg ≤ (T₁.ent p).count.setWidth 32 then
      Ipfw.removeDynRule (some f) (some p) false now T₁ else T₁) = T₂
    have hkeep : T₂.Sole ∧ T₂.Fresh pkt := by
      rw [← hT₂]
      split_ifs
      · exact ⟨hlook.1.removeDynRule, hlook.2.shrinks (removeDynRule_shrinks hlook.1.toTidy)⟩
      · exact hlook
    split_ifs
    · exact hkeep.1
    · exact hkeep.1.add hkeep.2

theorem installEntry (h : T.Sole) (hf : T.Fresh pkt) :
    (installEntry M f op cmd tablearg pkt junk now T).2.Sole := by
  unfold Ipfw.installEntry
  dsimp only
  generalize hT₁ : (if T.max ≤ T.count then Ipfw.removeDynRule none none false now T else T) = T₁
  have hkeep : T₁.Sole ∧ T₁.Fresh pkt := by
    rw [← hT₁]
    split_ifs
    · exact ⟨h.removeDynRule, hf.shrinks (removeDynRule_shrinks h.toTidy)⟩
    · exact ⟨h, hf⟩
  split_ifs
  · exact hkeep.1
  · exact hkeep.1.add hkeep.2
  · exact hkeep.1.installLimit hkeep.2
  · exact hkeep.1

theorem lookup (h : T.Sole) : (lookupDynRuleLocked pkt ack now T).2.Sole :=
  h.shrinks (lookupDynRuleLocked_shrinks h.toTidy) (lookupDynRuleLocked_tidy h.toTidy)

/-- **`ipfw_install_state`** makes a session only of a flow that has none. -/
theorem installState (h : T.Sole) : (installState M f op cmd tablearg pkt junk now T).2.Sole := by
  unfold Ipfw.installState
  have hlook := @lookup _ now pkt none h
  have hfresh := @fresh_of_lookup _ now pkt none h.toTidy
  generalize lookupDynRuleLocked pkt none now T = x at hlook hfresh ⊢
  obtain ⟨_ | x, T₁⟩ := x
  · have hentry := @installEntry _ f now pkt junk op M cmd tablearg hlook (hfresh rfl)
    dsimp only at hentry ⊢
    split_ifs
    · exact hentry
    · exact hentry.lookup
  · exact hlook

end DynTable.Sole

theorem Firewall.Next.sole (h : σ.Next P τ) (hσ : σ.dyn.Sole) : τ.dyn.Sole := by
  cases h with
  | op o => exact hσ
  | children now hreap => exact hσ.removeDynRule
  | install M f op cmd tablearg pkt junk now hf hP => exact hσ.installState
  | lookup pkt ack now =>
    rw [lookupDynRule_table]
    exact hσ.lookup
  | remove rule keep force now => exact hσ.removeDynRule
  | sysctl v hv =>
    refine hσ.shrinks ?_ { hσ.toTidy with buckets := hv }
    exact ⟨rfl, rfl, rfl, fun _ _ h => h, fun _ => rfl, fun _ => rfl, fun _ => rfl, fun _ => rfl⟩

theorem Firewall.Reach.sole (h : σ.Reach P) : σ.dyn.Sole := by
  induction h with
  | init b =>
    have hinv : DynTable.init.Inv ∅ := .init
    exact .of_nil hinv.tidy (Buckets.all_nil fun _ => rfl)
  | next _ hnext ih => exact hnext.sole ih

/-! ### The lookup in reachable tables -/

/-- What the lookup finds is of the packet's flow, unless it is a stranger. -/
theorem dirOf_of_found (h : T.Tidy) (hs : ¬ T.Stranger pkt now)
    (hfound : (lookupDynRuleLocked pkt ack now T).1 = some (q, dir)) :
    T.Session now q ∧ pkt.dirOf (T.ent q).id = some dir := by
  rw [lookupDynRuleLocked_eq h, List.findSome?_eq_some_iff] at hfound
  obtain ⟨l, q', r, hlist, hhit, hbefore⟩ := hfound
  rw [Option.map_eq_some_iff] at hhit
  obtain ⟨dir', hhit, heq⟩ := hhit
  obtain ⟨rfl, rfl⟩ := Prod.mk.inj heq
  obtain ⟨hexp, hproto, htype, hm⟩ := hit_eq_some_iff.1 hhit
  have hmem : q' ∈ T.list (hashPacket T.curr pkt) := by
    rw [hlist]
    exact List.mem_append_right _ List.mem_cons_self
  have hsess : T.Session now q' := ⟨h.mem hmem, htype, hexp⟩
  refine ⟨hsess, ?_⟩
  by_cases hfam : pkt.addrType = (T.ent q').id.addrType
  · rwa [← FlowId.matches_eq_dirOf hfam hproto]
  · refine absurd ⟨l, q', r, hlist, hsess, hproto, ?_, hfam, fun p hp hps => ?_⟩ hs
    · rw [hm]
      rfl
    · -- An entry before it has not been found, so that it is not of the packet's flow.
      cases hdir : pkt.dirOf (T.ent p).id with
      | none => rfl
      | some d =>
        have hnone := hbefore p hp
        rw [hit_of_dirOf hps hdir] at hnone
        cases hnone

/-- A stranger keeps the lookup from finding the session of the packet. -/
theorem not_found_of_stranger (h : T.Tidy) (hs : T.Stranger pkt now) :
    ∃ q dir, (lookupDynRuleLocked pkt ack now T).1 = some (q, dir) ∧
      ¬ (T.Session now q ∧ pkt.dirOf (T.ent q).id = some dir) := by
  obtain ⟨l, q, r, hlist, hsess, hproto, hm, hfam, hbefore⟩ := hs
  obtain ⟨d, hm⟩ := Option.isSome_iff_exists.1 hm
  have hhit : (T.ent q).hit pkt now = some d :=
    hit_eq_some_iff.2 ⟨hsess.2.2, hproto, hsess.2.1, hm⟩
  rw [lookupDynRuleLocked_eq h, hlist, List.findSome?_append]
  cases hl : l.findSome? fun q => ((T.ent q).hit pkt now).map fun dir => (q, dir) with
  | none =>
    refine ⟨q, d, ?_, fun hq => ?_⟩
    · rw [List.findSome?_cons, hhit]
      rfl
    · refine hfam (FlowId.addrType_of_dirOf ?_)
      rw [hq.2]
      rfl
  | some x =>
    obtain ⟨p, dir⟩ := x
    refine ⟨p, dir, rfl, fun hp => ?_⟩
    obtain ⟨p', hp', hfound⟩ := List.exists_of_findSome?_eq_some hl
    rw [Option.map_eq_some_iff] at hfound
    obtain ⟨dir', -, heq⟩ := hfound
    obtain ⟨rfl, rfl⟩ := Prod.mk.inj heq
    rw [hbefore p' hp' hp.1] at hp
    cases hp.2

/-- **Bidirectional lookup and uniqueness.** In every reachable table, at any time, the lookup of a
packet finds the one session of its flow in either direction and unlinks only expired entries, if and
only if no session of another address family is in the way. -/
theorem Firewall.Reach.finds_iff (h : σ.Reach fun _ _ _ _ _ _ _ _ _ => True) (pkt : FlowId)
    (ack : Option (BitVec 32)) (now : BitVec 32) :
    σ.dyn.Finds pkt ack now ↔ ¬ σ.dyn.Stranger pkt now := by
  have hsole := h.sole
  have htidy := hsole.toTidy
  constructor
  · intro hfinds hs
    obtain ⟨q, dir, hfound, hnot⟩ := @not_found_of_stranger _ now pkt ack htidy hs
    exact hnot ((hfinds.found q dir).1 hfound)
  · intro hs
    obtain ⟨T₁, hun, halike⟩ := @lookupDynRuleLocked_spec _ now pkt ack htidy
    have hshrinks := @lookupDynRuleLocked_shrinks _ now pkt ack htidy
    refine ⟨fun q dir => ⟨fun hfound => dirOf_of_found htidy hs hfound, fun hq => ?_⟩,
      fun p q hp hq hdir hdir' => hsole.unique hp hq hdir hdir', fun q hq hexp => ?_,
      fun q hq => hshrinks.entries hq, (lookupDynRuleLocked_tidy htidy).nodup_entries,
      fun q => ⟨hshrinks.id q, hshrinks.rule q, hshrinks.dynType q⟩⟩
    · -- The lookup finds something, and by uniqueness this is the session of the flow.
      obtain ⟨hsess, hdir⟩ := hq
      have hsome : (pkt.dirOf (σ.dyn.ent q).id).isSome := by
        rw [hdir]
        rfl
      have hbucket := htidy.mem_bucket hsess.1
      rw [← FlowId.hashPacket_dirOf hsome] at hbucket
      cases hfound : (lookupDynRuleLocked pkt ack now σ.dyn).1 with
      | none =>
        rw [lookupDynRuleLocked_eq htidy, List.findSome?_eq_none_iff] at hfound
        have hnone := hfound q hbucket
        rw [hit_of_dirOf hsess hdir] at hnone
        cases hnone
      | some x =>
        obtain ⟨q', dir'⟩ := x
        obtain ⟨hsess', hdir'⟩ := dirOf_of_found htidy hs hfound
        have hsome' : (pkt.dirOf (σ.dyn.ent q').id).isSome := by
          rw [hdir']
          rfl
        obtain rfl := hsole.unique hsess' hsess hsome' hsome
        rw [hdir'] at hdir
        rw [Option.some.inj hdir]
    · refine halike.entries.mem_iff.2 (hun.entries (fun hmem => ?_) hq)
      rw [Set.mem_ofPred_eq, hexp] at hmem
      cases hmem

/-- The first packet of a TCP connection between two addresses, with the ports 1000 and 80. -/
def tcp6Flow : FlowId :=
  { (default : FlowId) with
    addrType := 6
    proto := ipprotoTcp
    flags := 2
    srcPort := 1000
    dstPort := 80
    srcIp6 := ⟨0x20010db8, 1, 0, 1⟩
    dstIp6 := ⟨0x20010db8, 2, 0, 1⟩ }

/-- An IPv4 packet with the same ports, from 0.0.0.0 to 0.0.0.0. -/
def tcp4Flow : FlowId :=
  { (default : FlowId) with
    addrType := 4
    proto := ipprotoTcp
    srcPort := 1000
    dstPort := 80 }

/-- The packet makes a session of rule 1, a `keep-state`. -/
def keptSession (pkt : FlowId) : Firewall :=
  { addedRule with
    dyn := (installState ⟨fun _ => true, true, true⟩ 1 .keepState 0 0 pkt default 0
      addedRule.dyn).2 }

theorem keptSession_reach (pkt : FlowId) :
    (keptSession pkt).Reach fun _ _ _ _ _ _ _ _ _ => True := by
  have hadd : addedRule.Reach fun _ _ _ _ _ _ _ _ _ => True := .next (.init false) (.op _)
  exact .next hadd (.install _ 1 .keepState 0 0 pkt default 0 (.inl (by decide)) trivial)

/-- The IPv6 packets find their session, also in the other direction. -/
theorem finds_tcp6 : (keptSession tcp6Flow).dyn.Finds tcp6Flow.swap none 1 := by
  refine (Firewall.Reach.finds_iff (keptSession_reach tcp6Flow) _ _ _).2 ?_
  rintro ⟨l, q, r, hlist, -, -, -, hfam, -⟩
  have hq : q ∈ (keptSession tcp6Flow).dyn.list
      (hashPacket (keptSession tcp6Flow).dyn.curr tcp6Flow.swap) := by
    rw [hlist]
    exact List.mem_append_right _ List.mem_cons_self
  have hall : ∀ q ∈ (keptSession tcp6Flow).dyn.list
      (hashPacket (keptSession tcp6Flow).dyn.curr tcp6Flow.swap),
      ((keptSession tcp6Flow).dyn.ent q).id.addrType = 6 := by decide +kernel
  exact hfam (hall q hq).symm

/-- **An IPv4 packet finds the session of an IPv6 connection**, of which the IPv4 addresses are not
set. -/
theorem not_finds : ¬ ∀ σ : Firewall, σ.Reach (fun _ _ _ _ _ _ _ _ _ => True) →
    ∀ pkt ack now, σ.dyn.Finds pkt ack now := by
  intro h
  have hfinds := h _ (keptSession_reach tcp6Flow) tcp4Flow none 1
  have hfound := (hfinds.found 0 .forward).1 (by decide +kernel)
  exact absurd hfound.2 (by decide +kernel)

end Ipfw
