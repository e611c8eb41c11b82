import Dummynet.Ipfw.TcpSession
import Dummynet.Ipfw.Limit
import Dummynet.Lib.Runs
import Dummynet.Lib.Serial

/-!
# Keepalives

`ipfw_tick`, which asks both ends of the TCP sessions that are about to expire. The packet to each
end seems to come from the other one. Its sequence number is one before the last that this end has
acknowledged, so that the end has to answer, and the answer renews the entry.

## Main definitions

* `TcpPkt`, `ipfwSendPkt`, `ipfwTick`: the packets, and who gets them.
* `DynOp`, `dynStep`: what can happen to the table, and what is sent.
* `Silent`: what happens while no packet of a session comes.

## Main results

* `mem_ipfwTick`: the packets of a tick.
* `asked_of_run`: a session that expires in silence has been asked.
-/

namespace Ipfw

/-- A packet of `ipfw_send_pkt`. The numbers are those of the host. -/
structure TcpPkt where
  addrType : BitVec 8
  fib : BitVec 8
  src : Addr
  dst : Addr
  srcPort : BitVec 16
  dstPort : BitVec 16
  seq : BitVec 32
  ack : BitVec 32
  flags : BitVec 8
  deriving DecidableEq

/-- `TH_ACK`. -/
def thAck : BitVec 32 := 16#32

/-- `ipfw_send_pkt`, whose `MGETHDR` fails without `mget`. -/
def ipfwSendPkt (mget : Bool) (id : FlowId) (seq ack flags : BitVec 32) : Option TcpPkt :=
  if !mget then none
  else if id.addrType ≠ 4 ∧ id.addrType ≠ 6 then none
  else
    let dir : Bool := flags &&& (thSyn ||| thRst) = thSyn
    let pkt : TcpPkt :=
      { addrType := id.addrType
        fib := id.fib
        src := if dir then id.src else id.dst
        dst := if dir then id.dst else id.src
        srcPort := if dir then id.srcPort else id.dstPort
        dstPort := if dir then id.dstPort else id.srcPort
        seq := 0
        ack := 0
        flags := 0 }
    if flags &&& thRst ≠ 0 then
      if flags &&& thAck ≠ 0 then some { pkt with seq := ack, flags := thRst.setWidth 8 }
      else
        let seq := if flags &&& thSyn ≠ 0 then seq + 1 else seq
        some { pkt with ack := seq, flags := (thRst ||| thAck).setWidth 8 }
    else some { pkt with seq := seq, ack := ack, flags := thAck.setWidth 8 }

/-- `dyn_keepalive` and `dyn_keepalive_interval`. -/
structure KeepaliveVars where
  keepalive : Bool
  interval : BitVec 32

/-- The entry is one that `ipfw_tick` does not skip. -/
def keepaliveDue (K : KeepaliveVars) (now : BitVec 32) (e : DynRule) : Bool :=
  if e.dynType = .limitParent then false
  else if e.id.proto ≠ ipprotoTcp then false
  else if e.state &&& bothSyn ≠ bothSyn then false
  -- too early
  else if timeLeq (now + K.interval) e.expire then false
  -- too late, rule expired
  else if timeLeq e.expire now then false
  else true

/-- The two packets for an entry, of which `mget` tells whether there is memory for them. -/
def keepalives (mget : Dir → Bool) (e : DynRule) : List TcpPkt :=
  (ipfwSendPkt (mget .forward) e.id (e.ackRev - 1) e.ackFwd thSyn).toList ++
    (ipfwSendPkt (mget .reverse) e.id (e.ackFwd - 1) e.ackRev 0).toList

/-- The part of `ipfw_tick` for an entry, which appends to the chain of its family. -/
def tickEntry (K : KeepaliveVars) (mget : DynPtr → Dir → Bool) (now : BitVec 32) (T : DynTable)
    (m : List TcpPkt × List TcpPkt) (q : DynPtr) : List TcpPkt × List TcpPkt :=
  let e := T.ent q
  if !keepaliveDue K now e then m
  else if e.id.addrType = 4 then (m.1 ++ keepalives (mget q) e, m.2)
  else if e.id.addrType = 6 then (m.1, m.2 ++ keepalives (mget q) e)
  else m

/-- `ipfw_tick`: the packets that are sent. -/
def ipfwTick (K : KeepaliveVars) (mget : DynPtr → Dir → Bool) (now : BitVec 32) (T : DynTable) :
    List TcpPkt :=
  if K.keepalive = false ∨ T.alloc = false ∨ T.count = 0 then []
  else
    let m := (List.range T.curr.toNat).foldl
      (fun m i => (T.list i).foldl (tickEntry K mget now T) m) ([], [])
    m.1 ++ m.2

variable {K : KeepaliveVars} {T T' T'' : DynTable} {S : Set RulePtr} {i : ℕ} {q r : DynPtr}
  {now : BitVec 32} {mget : DynPtr → Dir → Bool} {m : List TcpPkt × List TcpPkt} {p : TcpPkt}
  {qs : List DynPtr} {ps : Segments} {pkt junk : FlowId} {ack : Option (BitVec 32)}

/-! ### The packets of a tick -/

theorem keepaliveDue_iff {e : DynRule} : keepaliveDue K now e = true ↔ e.dynType ≠ .limitParent ∧
    e.id.proto = ipprotoTcp ∧ e.state &&& bothSyn = bothSyn ∧
    timeLeq (now + K.interval) e.expire = false ∧ timeLeq e.expire now = false := by
  unfold keepaliveDue
  split_ifs <;> simp_all

/-- What is on one of the chains. -/
def Queued (m : List TcpPkt × List TcpPkt) (p : TcpPkt) : Prop := p ∈ m.1 ∨ p ∈ m.2

theorem keepalives_family {mget : Dir → Bool} {e : DynRule} (hp : p ∈ keepalives mget e) :
    e.id.addrType = 4 ∨ e.id.addrType = 6 := by
  have hall : ∀ b seq ack flags, p ∈ ipfwSendPkt b e.id seq ack flags →
      e.id.addrType = 4 ∨ e.id.addrType = 6 := by
    intro b seq ack flags h
    by_contra hno
    rw [not_or] at hno
    unfold ipfwSendPkt at h
    rw [if_pos hno, ite_self] at h
    cases h
  rcases List.mem_append.1 hp with hp | hp
  · exact hall _ _ _ _ (Option.mem_toList.1 hp)
  · exact hall _ _ _ _ (Option.mem_toList.1 hp)

theorem queued_tickEntry : Queued (tickEntry K mget now T m q) p ↔
    Queued m p ∨ keepaliveDue K now (T.ent q) = true ∧ p ∈ keepalives (mget q) (T.ent q) := by
  unfold tickEntry Queued
  dsimp only
  cases hdue : keepaliveDue K now (T.ent q) with
  | false => simp
  | true =>
    simp only [Bool.not_true, Bool.false_eq_true, if_false, true_and]
    split_ifs with h4 h6
    · rw [List.mem_append, or_right_comm]
    · rw [List.mem_append, or_assoc]
    · exact ⟨.inl, fun h => h.resolve_right fun h => (keepalives_family h).elim h4 h6⟩

theorem queued_bucket : Queued (qs.foldl (tickEntry K mget now T) m) p ↔ Queued m p ∨
    ∃ q ∈ qs, keepaliveDue K now (T.ent q) = true ∧ p ∈ keepalives (mget q) (T.ent q) := by
  induction qs generalizing m with
  | nil => simp
  | cons q qs ih =>
    rw [List.foldl_cons, ih, queued_tickEntry, List.exists_mem_cons_iff, or_assoc]

theorem queued_buckets (l : List ℕ) :
    Queued (l.foldl (fun m i => (T.list i).foldl (tickEntry K mget now T) m) m) p ↔ Queued m p ∨
      ∃ i ∈ l, ∃ q ∈ T.list i, keepaliveDue K now (T.ent q) = true ∧
        p ∈ keepalives (mget q) (T.ent q) := by
  induction l generalizing m with
  | nil => simp
  | cons i l ih => rw [List.foldl_cons, ih, queued_bucket, List.exists_mem_cons_iff, or_assoc]

/-- **The packets of a tick** are those for the entries that are due, each with its numbers. -/
theorem mem_ipfwTick : p ∈ ipfwTick K mget now T ↔
    (K.keepalive = true ∧ T.alloc = true ∧ T.count ≠ 0) ∧
      ∃ q ∈ T.entries, keepaliveDue K now (T.ent q) = true ∧ p ∈ keepalives (mget q) (T.ent q) := by
  unfold ipfwTick
  split_ifs with hoff
  · refine iff_of_false List.not_mem_nil fun h => ?_
    rcases hoff with hoff | hoff | hoff
    · exact absurd h.1.1 (by simp [hoff])
    · exact absurd h.1.2.1 (by simp [hoff])
    · exact h.1.2.2 hoff
  · have hon : K.keepalive = true ∧ T.alloc = true ∧ T.count ≠ 0 := by simpa using hoff
    dsimp only
    rw [List.mem_append]
    refine (queued_buckets _).trans ?_
    simp only [Queued, List.not_mem_nil, or_self, false_or, hon, true_and, and_self,
      List.mem_range, DynTable.entries, Buckets.mem_all, ne_eq, not_false_eq_true]
    constructor
    · rintro ⟨i, hi, q, hq, h⟩
      exact ⟨q, ⟨i, hi, hq⟩, h⟩
    · rintro ⟨q, ⟨i, hi, hq⟩, h⟩
      exact ⟨i, hi, q, hq, h⟩

/-! ### What stays -/

theorem DynRule.SameSession.refl (e : DynRule) : e.SameSession e := ⟨rfl, rfl, rfl, rfl, rfl⟩

theorem DynRule.SameSession.trans {e e' e'' : DynRule} (h : e.SameSession e')
    (h' : e'.SameSession e'') : e.SameSession e'' where
  id := h'.id.trans h.id
  expire := h'.expire.trans h.expire
  state := h'.state.trans h.state
  ackFwd := h'.ackFwd.trans h.ackFwd
  ackRev := h'.ackRev.trans h.ackRev

/-- The entry stays in the table, and nothing happens to its session. -/
structure DynTable.Stays (q : DynPtr) (T T' : DynTable) : Prop where
  mem : q ∈ T.entries → q ∈ T'.entries
  same : (T.ent q).SameSession (T'.ent q)
  rule : (T'.ent q).rule = (T.ent q).rule
  dynType : (T'.ent q).dynType = (T.ent q).dynType

/-- The entry is a session that has not expired. -/
structure DynTable.Lives (q : DynPtr) (now : BitVec 32) (T : DynTable) : Prop where
  mem : q ∈ T.entries
  dynType : (T.ent q).dynType ≠ .limitParent
  live : timeLeq (T.ent q).expire now = false

namespace DynTable.Stays

theorem refl (q : DynPtr) (T : DynTable) : T.Stays q T := ⟨id, .refl _, rfl, rfl⟩

theorem trans (h : T.Stays q T') (h' : T'.Stays q T'') : T.Stays q T'' :=
  ⟨h'.mem ∘ h.mem, h.same.trans h'.same, h'.rule.trans h.rule, h'.dynType.trans h.dynType⟩

theorem lives (h : T.Stays q T') (hl : T.Lives q now) : T'.Lives q now := by
  refine ⟨h.mem hl.mem, ?_, ?_⟩
  · rw [h.dynType]
    exact hl.dynType
  · rw [h.same.expire]
    exact hl.live

/-- The count of the entry may change. -/
theorem of_ent {c : BitVec 16} (hent : T'.ent q = { T.ent q with count := c })
    (hmem : q ∈ T.entries → q ∈ T'.entries) : T.Stays q T' := by
  refine ⟨hmem, ?_, ?_, ?_⟩
  · rw [hent]
    exact ⟨rfl, rfl, rfl, rfl, rfl⟩
  · rw [hent]
  · rw [hent]

theorem unlink (hne : r ≠ q) : T.Stays q (T.unlink i r) := by
  refine .of_ent (unlink_ent q) fun hq => ?_
  obtain ⟨j, hj, hq⟩ := Buckets.mem_all.1 hq
  refine Buckets.mem_all.2 ⟨j, by rwa [unlink_frame.1], ?_⟩
  rw [unlink_list]
  by_cases hji : j = i
  · subst hji
    rw [Function.update_self]
    exact (List.mem_erase_of_ne hne.symm).2 hq
  · rwa [Function.update_of_ne hji]

/-- A new entry does nothing to the others. -/
theorem link {id : FlowId} {dynType : Opcode} {owner : DynOwner} (hne : q ≠ T.brk) :
    T.Stays q (T.link id dynType owner now) := by
  have hmem : q ∈ T.entries → q ∈ (T.link id dynType owner now).entries := fun hq => by
    obtain ⟨j, hj, hq⟩ := Buckets.mem_all.1 hq
    refine Buckets.mem_all.2 ⟨j, by rwa [link_frame.1], ?_⟩
    rw [link_list]
    by_cases hji : j = hashPacket T.curr id
    · subst hji
      rw [Function.update_self]
      exact List.mem_cons_of_mem _ hq
    · rwa [Function.update_of_ne hji]
  cases owner with
  | rule f => exact .of_ent (Function.update_of_ne hne ..) hmem
  | parent p =>
    have hent : (T.link id dynType (.parent p) now).ent q =
        (T.modify p fun e => { e with count := e.count + 1 }).ent q := Function.update_of_ne hne ..
    by_cases hpq : q = p
    · subst hpq
      exact .of_ent (hent.trans modify_ent_self) hmem
    · exact .of_ent (hent.trans (modify_ent_ne hpq)) hmem

end DynTable.Stays

/-! ### The removal -/

section removal

variable {rule : Option RulePtr} {keep : Option DynPtr} {force second : Bool}

/-- `remove_dyn_rule` has no reason to remove the entry. -/
structure DynRule.Spared (rule : Option RulePtr) (force : Bool) (now : BitVec 32) (e : DynRule) :
    Prop where
  dynType : e.dynType ≠ .limitParent
  live : rule = none ∨ rule = some e.rule → force = false ∧ timeLeq e.expire now = false

theorem DynRule.Spared.stays (h : (T.ent q).Spared rule force now) (hs : T.Stays q T') :
    (T'.ent q).Spared rule force now := by
  refine ⟨?_, ?_⟩
  · rw [hs.dynType]
    exact h.dynType
  · rw [hs.rule, hs.same.expire]
    exact h.live

theorem DynTable.Lives.spared (h : T.Lives q now) : (T.ent q).Spared rule false now :=
  ⟨h.dynType, fun _ => ⟨rfl, h.live⟩⟩

theorem removeLoop_stays (h : (T.ent q).Spared rule force now) :
    T.Stays q (removeLoop rule keep force now second i T qs).2 := by
  induction qs generalizing T with
  | nil => exact .refl q T
  | cons r qs ih =>
    have hunlink : r ≠ q →
        T.Stays q (removeLoop rule keep force now second i (T.unlink i r) qs).2 := fun hne =>
      (DynTable.Stays.unlink hne).trans (ih (h.stays (.unlink hne)))
    unfold removeLoop
    dsimp only
    split_ifs with hother htype hfree hlive
    · exact ih h
    · exact hunlink fun hr => h.dynType (hr ▸ htype)
    · exact ih h
    · exact ih h
    · refine hunlink ?_
      rintro rfl
      obtain ⟨hforce, hnow⟩ := h.live (not_not.1 fun hno => hother (.inr hno))
      exact hlive (by rw [hforce, hnow]; decide)

theorem removePass_stays (h : (T.ent q).Spared rule force now) (n : ℕ) :
    T.Stays q (removePass rule keep force now second n T).2 := by
  induction n with
  | zero => exact .refl q T
  | succ n ih =>
    unfold removePass
    exact ih.trans (removeLoop_stays (h.stays ih))

theorem removeDynRule_stays (h : (T.ent q).Spared rule force now) :
    T.Stays q (removeDynRule rule keep force now T) := by
  unfold removeDynRule
  split_ifs
  · exact .refl q T
  · exact .refl q T
  have hstart : T.Stays q { T with lastRemove := now } := ⟨id, .refl _, rfl, rfl⟩
  have hfirst : T.Stays q
      (removePass rule keep force now false T.curr.toNat { T with lastRemove := now }).2 :=
    hstart.trans (removePass_stays (h.stays hstart) _)
  dsimp only
  split_ifs
  · exact hfirst.trans (removePass_stays (h.stays hfirst) _)
  · exact hfirst

end removal

/-! ### Lookups and new entries -/

/-- A packet of another flow does not find the entry. -/
theorem lookup_ne (hne : pkt.matches (T.ent q).id = none) (dir : Dir) :
    (lookupDynRuleLocked pkt ack now T).1 ≠ some (q, dir) := by
  unfold lookupDynRuleLocked
  split_ifs
  · exact Option.some_ne_none _ |>.symm
  dsimp only
  generalize hashPacket T.curr pkt = i
  have hfind : (lookupLoop pkt now i T (T.list i)).1 = _ := lookupLoop_eq
  generalize lookupLoop pkt now i T (T.list i) = x at hfind ⊢
  obtain ⟨_ | ⟨r, d⟩, T₁⟩ := x
  · exact Option.some_ne_none _ |>.symm
  · intro h
    obtain ⟨rfl, rfl⟩ : r = q ∧ d = dir := by simpa only [Option.some.injEq, Prod.mk.injEq] using h
    obtain ⟨r', -, hr⟩ := List.exists_of_findSome?_eq_some hfind.symm
    obtain ⟨d', hhit, hrd⟩ := Option.map_eq_some_iff.1 hr
    obtain ⟨rfl, rfl⟩ : r' = r ∧ d' = d := by simpa only [Prod.mk.injEq] using hrd
    unfold DynRule.hit at hhit
    split_ifs at hhit
    rw [hne] at hhit
    cases hhit

theorem lookup_stays (h : T.Tidy) (hl : T.Lives q now) (hne : pkt.matches (T.ent q).id = none) :
    T.Stays q (lookupDynRuleLocked pkt ack now T).2 := by
  have hshrinks := @lookupDynRuleLocked_shrinks T now pkt ack h
  refine ⟨fun hq => ?_, lookup_other (lookup_ne hne), hshrinks.rule q, hshrinks.dynType q⟩
  obtain ⟨T₁, hun, halike⟩ := @lookupDynRuleLocked_spec T now pkt ack h
  refine halike.entries.mem_iff.2 (hun.entries (fun hexp => ?_) hq)
  exact absurd (hl.live.symm.trans hexp) Bool.false_ne_true

section install

variable {M : DynMem} {f : RulePtr} {op : Opcode} {cmd tablearg : BitVec 32}

theorem addDynRule_stays {malloc : BitVec 32 → Bool} {zalloc : Bool} {id : FlowId}
    {dynType : Opcode} {owner : DynOwner} (h : T.Inv S) (hq : q ∈ T.entries) :
    T.Stays q (addDynRule malloc zalloc id dynType owner now T).2 := by
  obtain ⟨T₀, -, rfl | ⟨hnil, -⟩, hadd | ⟨-, hadd⟩⟩ :=
    @addDynRule_cases _ _ now id dynType owner malloc zalloc h
  · rw [hadd]
    exact .refl q T₀
  · rw [hadd]
    exact .link fun hbrk => h.brk_not_mem (hbrk ▸ hq)
  all_goals exact absurd (hnil ▸ hq) List.not_mem_nil

theorem lookupDynParent_stays (h : T.Inv S) (hl : T.Lives q now) :
    T.Stays q (lookupDynParent M pkt f now T).2 := by
  unfold lookupDynParent
  split
  next p hfind =>
    split_ifs at hfind
    have hpar := List.find?_some hfind
    simp only [isParent, Bool.and_eq_true, decide_eq_true_eq] at hpar
    have hqp : q ≠ p := by
      rintro rfl
      exact hl.dynType hpar.1.1.1.1.1
    have hent : (T.modify p fun e => { e with expire := now + T.shortLifetime }).ent q = T.ent q :=
      modify_ent_ne hqp
    exact ⟨id, hent ▸ .refl _, by rw [hent], by rw [hent]⟩
  next => exact addDynRule_stays h hl.mem

theorem installLimit_stays (h : T.Inv S) (hf : f ∈ S) (hlen : T.entries.length + 1 < 2 ^ 32)
    (hl : T.Lives q now) : T.Stays q (installLimit M f cmd tablearg pkt junk now T).2 := by
  unfold installLimit
  dsimp only
  have hstays := @lookupDynParent_stays _ S q now
    (maskedFlow (cmd.extractLsb' 8 8) pkt junk) M f h hl
  have hinv := (@lookupDynParent_spec _ _ now _ M
    (maskedFlow (cmd.extractLsb' 8 8) pkt junk) h hf hlen).1
  generalize lookupDynParent M (maskedFlow (cmd.extractLsb' 8 8) pkt junk) f now T = x
    at hstays hinv ⊢
  obtain ⟨_ | p, T₁⟩ := x
  · exact hstays
  · dsimp only at hstays hinv ⊢
    generalize hT₂ : (if connLimit cmd tablearg ≤ (T₁.ent p).count.setWidth 32 then
      removeDynRule (some f) (some p) false now T₁ else T₁) = T₂
    have hkeep : T₂.Inv S ∧ T₁.Stays q T₂ := by
      rw [← hT₂]
      split_ifs
      · exact ⟨removeDynRule_inv hinv, removeDynRule_stays (hstays.lives hl).spared⟩
      · exact ⟨hinv, .refl q T₁⟩
    have hstays := hstays.trans hkeep.2
    split_ifs
    · exact hstays
    · exact hstays.trans (addDynRule_stays hkeep.1 (hstays.mem hl.mem))

theorem installEntry_stays (h : T.Inv S) (hf : f ∈ S) (hl : T.Lives q now) :
    T.Stays q (installEntry M f op cmd tablearg pkt junk now T).2 := by
  unfold installEntry
  dsimp only
  generalize hT₁ : (if T.max ≤ T.count then removeDynRule none none false now T else T) = T₁
  have hkeep : T₁.Inv S ∧ T.Stays q T₁ := by
    rw [← hT₁]
    split_ifs
    · exact ⟨removeDynRule_inv h, removeDynRule_stays hl.spared⟩
    · exact ⟨h, .refl q T⟩
  obtain ⟨hinv, hstays⟩ := hkeep
  split_ifs with hmax
  · exact hstays
  · exact hstays.trans (addDynRule_stays hinv (hstays.mem hl.mem))
  · have hlen : T₁.entries.length + 1 < 2 ^ 32 := by
      rw [BitVec.not_le, BitVec.lt_def, hinv.count] at hmax
      have := T₁.max.isLt
      omega
    exact hstays.trans (installLimit_stays hinv hf hlen (hstays.lives hl))
  · exact hstays

theorem installState_stays (h : T.Inv S) (hf : f ∈ S) (hl : T.Lives q now)
    (hb : InstallBounded M f op cmd tablearg pkt junk now T)
    (hne : pkt.matches (T.ent q).id = none) :
    T.Stays q (installState M f op cmd tablearg pkt junk now T).2 := by
  unfold installState
  unfold InstallBounded at hb
  have hstays := @lookup_stays _ q now pkt none h.tidy hl hne
  have hinv := @lookupDynRuleLocked_inv _ _ now pkt none h
  generalize lookupDynRuleLocked pkt none now T = x at hb hstays hinv ⊢
  obtain ⟨_ | _, T₁⟩ := x
  · have hentry := @installEntry_stays _ _ q now pkt junk M f op cmd tablearg hinv hf
      (hstays.lives hl)
    have hinv := installEntry_inv hinv hf (hb rfl)
    have hstays := hstays.trans hentry
    dsimp only at hstays hinv ⊢
    split_ifs
    · exact hstays
    · refine hstays.trans (lookup_stays hinv.tidy (hstays.lives hl) ?_)
      rw [hstays.same.id]
      exact hne
  · exact hstays

end install

/-! ### Silent sessions -/

/-- What can happen to the table. Entries are removed by force when their rule is deleted. -/
inductive DynOp
  | tick (mget : DynPtr → Dir → Bool)
  | lookup (pkt : FlowId) (ack : Option (BitVec 32))
  | install (M : DynMem) (rule : RulePtr) (op : Opcode) (cmd tablearg : BitVec 32)
      (pkt junk : FlowId)
  | remove (rule : Option RulePtr) (keep : Option DynPtr)
  | children (rule : RulePtr)
  | sysctl (v : DynSysctl)

/-- One operation at a time, on the table and the time of the last tick. It gives the packets that
are sent. -/
def dynStep (K : KeepaliveVars) (σ : DynTable × BitVec 32) (x : BitVec 32 × DynOp) :
    Option (List TcpPkt × DynTable × BitVec 32) :=
  let T := σ.1
  let now := x.1
  match x.2 with
  | .tick mget => some (ipfwTick K mget now T, T, now)
  | .lookup pkt ack => some ([], (lookupDynRuleLocked pkt ack now T).2, σ.2)
  | .install M rule op cmd tablearg pkt junk =>
    some ([], (installState M rule op cmd tablearg pkt junk now T).2, σ.2)
  | .remove rule keep => some ([], removeDynRule rule keep false now T, σ.2)
  | .children rule => some ([], removeDynChildren rule now T, σ.2)
  | .sysctl v => some ([], T.tune v, σ.2)

/-- The last tick was not more than `g` seconds ago, no packet of the session comes, its rule is not
deleted, and there is memory for the packets of `ipfw_tick`. -/
def Silent (q : DynPtr) (g : ℕ) (σ : DynTable × BitVec 32) (x : BitVec 32 × DynOp)
    (_ : DynTable × BitVec 32) : Prop :=
  (x.1 - σ.2).toNat ≤ g ∧
    match x.2 with
    | .tick mget => ∀ dir, mget q dir = true
    | .lookup pkt _ => pkt.matches (σ.1.ent q).id = none
    | .install M rule op cmd tablearg pkt junk => pkt.matches (σ.1.ent q).id = none ∧
        InstallBounded M rule op cmd tablearg pkt junk x.1 σ.1
    | .remove _ _ => True
    | .children rule => rule ≠ (σ.1.ent q).rule
    | .sysctl v => v.buckets ≠ 0

/-- Both ends of the session are asked. Each gets a packet with the acknowledgement that the other
end has sent last, and the number before the one that it has acknowledged itself. -/
def Asked (id : FlowId) (ps : Segments) (o : List TcpPkt) : Prop :=
  ∃ a b, LastOf a (ps.acks .forward) ∧ LastOf b (ps.acks .reverse) ∧
    ⟨id.addrType, id.fib, id.src, id.dst, id.srcPort, id.dstPort, b - 1, a, 16⟩ ∈ o ∧
    ⟨id.addrType, id.fib, id.dst, id.src, id.dstPort, id.srcPort, a - 1, b, 16⟩ ∈ o

theorem keepalives_eq {mget : Dir → Bool} {e : DynRule} (hm : ∀ dir, mget dir = true)
    (hfam : e.id.addrType = 4 ∨ e.id.addrType = 6) : keepalives mget e =
      [⟨e.id.addrType, e.id.fib, e.id.src, e.id.dst, e.id.srcPort, e.id.dstPort, e.ackRev - 1,
          e.ackFwd, 16⟩,
        ⟨e.id.addrType, e.id.fib, e.id.dst, e.id.src, e.id.dstPort, e.id.srcPort, e.ackFwd - 1,
          e.ackRev, 16⟩] := by
  have hno : ¬ (e.id.addrType ≠ 4 ∧ e.id.addrType ≠ 6) := by tauto
  unfold keepalives ipfwSendPkt
  rw [hm, hm, if_neg hno, if_neg hno]
  rfl

theorem Segments.state_both (hfwd : ps.Flagged .forward thSyn) (hrev : ps.Flagged .reverse thSyn) :
    ps.state &&& bothSyn = bothSyn := by
  have hall : ∀ f r : BitVec 3, f &&& 2 ≠ 0 → r &&& 2 ≠ 0 →
      (f.setWidth 32 ||| r.setWidth 32 <<< 8) &&& bothSyn = bothSyn := by decide
  exact hall _ _ ((Segments.flagged_iff 2#3).1 hfwd) ((Segments.flagged_iff 2#3).1 hrev)

section time

variable {x last interval : BitVec 32} {g : ℕ}

theorem sub_of_elapsed (h : (now - last).toNat ≤ (x - last).toNat) :
    (x - now).toNat = (x - last).toNat - (now - last).toNat :=
  Serial.toNat_sub_of_rank_le h

/-- An entry that had a whole interval at the last tick has not expired. -/
theorem live_of_elapsed (hnow : (now - last).toNat ≤ g) (hg : g < interval.toNat)
    (hleft : interval.toNat ≤ (x - last).toNat) (hwin : (x - last).toNat < 2 ^ 31) :
    timeLeq x now = false := by
  have hsub := sub_of_elapsed (x := x) (hnow.trans (hg.le.trans hleft))
  unfold timeLeq
  rw [decide_eq_false_iff_not, BitVec.toInt_eq_toNat_of_lt (by omega)]
  omega

/-- An entry that has not expired and is not too early is due. -/
theorem left_of_early (h : timeLeq (now + interval) x = true) (hint : interval.toNat < 2 ^ 31)
    (hwin : (x - now).toNat < 2 ^ 31) : interval.toNat ≤ (x - now).toNat := by
  by_contra hlt
  have heq : now + interval - x = interval - (x - now) := by
    rw [sub_sub_eq_add_sub, add_comm]
  have hsub : (interval - (x - now)).toNat = interval.toNat - (x - now).toNat :=
    BitVec.toNat_sub_of_le (BitVec.le_def.2 (by omega))
  unfold timeLeq at h
  rw [decide_eq_true_eq, heq, BitVec.toInt_eq_toNat_of_lt (by omega)] at h
  omega

end time

/-- The session has been silent, and at the last tick it was too early to ask. -/
structure Waits (K : KeepaliveVars) (q : DynPtr) (e : DynRule) (σ : DynTable × BitVec 32) :
    Prop where
  inv : σ.1.Inv Set.univ
  mem : q ∈ σ.1.entries
  same : e.SameSession (σ.1.ent q)
  dynType : (σ.1.ent q).dynType ≠ .limitParent
  left : K.interval.toNat ≤ (e.expire - σ.2).toNat
  window : (e.expire - σ.2).toNat < 2 ^ 31

variable {e : DynRule} {σ τ : DynTable × BitVec 32} {x : BitVec 32 × DynOp} {o : List TcpPkt}
  {g : ℕ}

/-- The entry lives until the next tick. -/
theorem Waits.lives (h : Waits K q e σ) (hs : Silent q g σ x τ) (hg : g < K.interval.toNat) :
    σ.1.Lives q x.1 := by
  refine ⟨h.mem, h.dynType, ?_⟩
  rw [h.same.expire]
  exact live_of_elapsed hs.1 hg h.left h.window

/-- Anything but a tick. -/
theorem Waits.stays (h : Waits K q e σ) (hs : σ.1.Stays q T) (hinv : T.Inv Set.univ) :
    Waits K q e (T, σ.2) :=
  ⟨hinv, hs.mem h.mem, h.same.trans hs.same, by rw [hs.dynType]; exact h.dynType, h.left, h.window⟩

/-- A tick comes too early, or it asks. -/
theorem Waits.tick (h : Waits K q e σ) (hnow : (now - σ.2).toNat ≤ g) (hg : g < K.interval.toNat)
    (htcp : e.id.proto = ipprotoTcp) (hsyn : e.state &&& bothSyn = bothSyn)
    (hon : K.keepalive = true) :
    Waits K q e (σ.1, now) ∨
      ∀ p ∈ keepalives (mget q) (σ.1.ent q), p ∈ ipfwTick K mget now σ.1 := by
  have hlive := live_of_elapsed hnow hg h.left h.window
  have hsub := sub_of_elapsed (hnow.trans (hg.le.trans h.left))
  have hleft := h.left
  have hwin := h.window
  cases hearly : timeLeq (now + K.interval) e.expire with
  | true =>
    have hwin' : (e.expire - now).toNat < 2 ^ 31 := by omega
    exact .inl { h with left := left_of_early hearly (by omega) hwin', window := hwin' }
  | false =>
    refine .inr fun p hp => mem_ipfwTick.2 ⟨⟨hon, ?_, fun hcount => ?_⟩, q, h.mem, ?_, hp⟩
    · by_contra halloc
      have hnil : σ.1.entries = [] := Buckets.all_nil (h.inv.alloc (by simpa using halloc))
      exact absurd (hnil ▸ h.mem) List.not_mem_nil
    · have hlen := h.inv.count
      rw [hcount] at hlen
      exact absurd (List.length_pos_of_mem h.mem) (by rw [← hlen]; decide)
    · rw [keepaliveDue_iff, h.same.id, h.same.state, h.same.expire]
      exact ⟨h.dynType, htcp, hsyn, hearly, hlive⟩

/-- One step: the session goes on waiting, or both ends are asked. -/
theorem Waits.step (h : Waits K q e σ) (hs : Silent q g σ x τ) (hg : g < K.interval.toNat)
    (htracks : e.Tracks ps) (hsyn : e.state &&& bothSyn = bothSyn) (hon : K.keepalive = true)
    (hfam : e.id.addrType = 4 ∨ e.id.addrType = 6) (hstep : dynStep K σ x = some (o, τ)) :
    Waits K q e τ ∨ Asked e.id ps o := by
  have hl := h.lives hs hg
  obtain ⟨now, op⟩ := x
  cases op with
  | tick mget =>
    obtain ⟨rfl, rfl⟩ : ipfwTick K mget now σ.1 = o ∧ (σ.1, now) = τ := by
      simpa only [dynStep, Option.some.injEq, Prod.mk.injEq] using hstep
    have hall : Waits K q e (σ.1, now) ∨
        ∀ p ∈ keepalives (mget q) (σ.1.ent q), p ∈ ipfwTick K mget now σ.1 :=
      h.tick hs.1 hg htracks.proto hsyn hon
    refine hall.imp id fun hsent => ?_
    have hfam' : (σ.1.ent q).id.addrType = 4 ∨ (σ.1.ent q).id.addrType = 6 := by
      rw [h.same.id]
      exact hfam
    rw [keepalives_eq hs.2 hfam', h.same.id, h.same.ackFwd, h.same.ackRev] at hsent
    exact ⟨e.ackFwd, e.ackRev, htracks.acks .forward (.inl rfl), htracks.acks .reverse (.inr rfl),
      hsent _ List.mem_cons_self, hsent _ (List.mem_cons_of_mem _ List.mem_cons_self)⟩
  | lookup pkt ack =>
    obtain ⟨-, rfl⟩ : [] = o ∧ _ = τ := by
      simpa only [dynStep, Option.some.injEq, Prod.mk.injEq] using hstep
    exact .inl (h.stays (lookup_stays h.inv.tidy hl hs.2) (lookupDynRuleLocked_inv h.inv))
  | install M rule op cmd tablearg pkt junk =>
    obtain ⟨-, rfl⟩ : [] = o ∧ _ = τ := by
      simpa only [dynStep, Option.some.injEq, Prod.mk.injEq] using hstep
    exact .inl (h.stays (installState_stays h.inv (Set.mem_univ _) hl hs.2.2 hs.2.1)
      (installState_inv h.inv (Set.mem_univ _) hs.2.2))
  | remove rule keep =>
    obtain ⟨-, rfl⟩ : [] = o ∧ _ = τ := by
      simpa only [dynStep, Option.some.injEq, Prod.mk.injEq] using hstep
    exact .inl (h.stays (removeDynRule_stays hl.spared) (removeDynRule_inv h.inv))
  | children rule =>
    obtain ⟨-, rfl⟩ : [] = o ∧ _ = τ := by
      simpa only [dynStep, Option.some.injEq, Prod.mk.injEq] using hstep
    have hspared : (σ.1.ent q).Spared (some rule) true now := by
      refine ⟨hl.dynType, fun hrule => ?_⟩
      rcases hrule with hrule | hrule
      · cases hrule
      · exact absurd (Option.some.inj hrule) hs.2
    exact .inl (h.stays (removeDynRule_stays hspared)
      ((removeDynChildren_inv h.inv).mono (Set.subset_univ _)))
  | sysctl v =>
    obtain ⟨-, rfl⟩ : [] = o ∧ _ = τ := by
      simpa only [dynStep, Option.some.injEq, Prod.mk.injEq] using hstep
    exact .inl (h.stays ⟨id, .refl _, rfl, rfl⟩ { h.inv with buckets := hs.2 })

/-- **Keepalives.** A TCP session that has gone from the table in silence has been asked before. -/
theorem asked_of_run {last last' : BitVec 32} {l : List ((BitVec 32 × DynOp) × List TcpPkt)}
    (hrun : Runs.Run (dynStep K) (Silent q g) (T, last) l (T', last')) (hinv : T.Inv S)
    (hq : q ∈ T.entries) (htype : (T.ent q).dynType ≠ .limitParent)
    (hfam : (T.ent q).id.addrType = 4 ∨ (T.ent q).id.addrType = 6)
    (h : T.History q ps) (hp : ps.Proper) (hfwd : ps.Flagged .forward thSyn)
    (hrev : ps.Flagged .reverse thSyn) (hon : K.keepalive = true) (hg : g < K.interval.toNat)
    (hleft : K.interval.toNat ≤ ((T.ent q).expire - last).toNat)
    (hwin : ((T.ent q).expire - last).toNat < 2 ^ 31) (hgone : q ∉ T'.entries) :
    ∃ x ∈ l, Asked (T.ent q).id ps x.2 := by
  have htracks := h.tracks hp
  have hsyn : (T.ent q).state &&& bothSyn = bothSyn := by
    rw [htracks.state]
    exact Segments.state_both hfwd hrev
  have hstart : Waits K q (T.ent q) (T, last) :=
    ⟨hinv.mono (Set.subset_univ _), hq, .refl _, htype, hleft, hwin⟩
  have hall : ∀ σ l τ, Runs.Run (dynStep K) (Silent q g) σ l τ → Waits K q (T.ent q) σ →
      Waits K q (T.ent q) τ ∨ ∃ x ∈ l, Asked (T.ent q).id ps x.2 := by
    intro σ l τ hrun hσ
    induction hrun with
    | nil => exact .inl hσ
    | snoc _ hs hstep ih =>
      rcases ih with hwait | ⟨x, hx, hasked⟩
      · refine (hwait.step hs hg htracks hsyn hon hfam hstep).imp id fun hasked => ?_
        exact ⟨_, List.mem_append_right _ List.mem_cons_self, hasked⟩
      · exact .inr ⟨x, List.mem_append_left _ hx, hasked⟩
  exact (hall _ _ _ hrun hstart).resolve_left fun hwait => hgone hwait.mem

/-! ### A session -/

/-- A packet of the session of ports 1 and 2, with addresses of IPv4. -/
def ip4Pkt (src dst : BitVec 16) (flags : BitVec 8) : FlowId :=
  { sessionPkt src dst flags with addrType := 4 }

/-- The table with a new entry for the session. -/
def newSession : DynTable :=
  (addDynRule (fun _ => true) true (ip4Pkt 1 2 2) .keepState (.rule 1) 0 .init).2

/-- The table after the packets of `openSession`. -/
def openedSession : DynTable :=
  let T := (lookupDynRuleLocked (ip4Pkt 1 2 2) (some 1) 1 newSession).2
  let T := (lookupDynRuleLocked (ip4Pkt 2 1 0x12) (some 5) 2 T).2
  (lookupDynRuleLocked (ip4Pkt 1 2 0x10) (some 10) 3 T).2

theorem newSession_inv : newSession.Inv Set.univ :=
  (addDynRule_rule .init (Set.mem_univ 1) (by decide) (by decide +kernel)).1

theorem openedSession_inv : openedSession.Inv Set.univ :=
  lookupDynRuleLocked_inv (lookupDynRuleLocked_inv (lookupDynRuleLocked_inv newSession_inv))

theorem openedSession_history : openedSession.History 0 openSession := by
  have hnew : newSession.History 0 [] :=
    .made (by decide +kernel) (by decide +kernel) (by decide +kernel) (by decide +kernel)
  have hsyn := hnew.hit (ip4Pkt 1 2 2) .forward (some 1) 1 (by decide +kernel)
  have hboth := hsyn.hit (ip4Pkt 2 1 0x12) .reverse (some 5) 2 (by decide +kernel)
  exact hboth.hit (ip4Pkt 1 2 0x10) .forward (some 10) 3 (by decide +kernel)

/-- One tick asks, and then the entry goes. -/
theorem asked_openedSession : ∃ x ∈ [((300#32, DynOp.tick fun _ _ => true),
      ipfwTick ⟨true, 20⟩ (fun _ _ => true) 300 openedSession), ((304, .remove none none), [])],
    Asked (openedSession.ent 0).id openSession x.2 := by
  have htick : Runs.Run (dynStep ⟨true, 20⟩) (Silent 0 19) (openedSession, 283) _
      (openedSession, 300) :=
    .single (i := (300, .tick fun _ _ => true)) ⟨by decide, fun _ => rfl⟩ rfl
  have hrun := htick.snoc (i := (304, .remove none none)) ⟨by decide, trivial⟩ rfl
  exact asked_of_run hrun openedSession_inv (by decide +kernel) (by decide +kernel)
    (.inl (by decide +kernel)) openedSession_history openSession_proper (by decide +kernel)
    (by decide +kernel) rfl (by decide) (by decide +kernel) (by decide +kernel)
    (by decide +kernel)

end Ipfw
