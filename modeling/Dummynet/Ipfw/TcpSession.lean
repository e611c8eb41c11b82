import Dummynet.Ipfw.Install

/-!
# TCP sessions

A dynamic rule of a TCP session remembers the flags of both directions and the last acknowledgement
of each. The acknowledgements count as long as both sides have sent `SYN`, none has sent `RST` and
not both have sent `FIN`. After that, no packet makes the session live for a keepalive period.

## Main definitions

* `Segment`: what a packet of the session has brought.
* `Segments.Established`, `Segments.Closed`, `Segments.acks`: what the packets of a session say
  about it.
* `DynTable.History`: the packets of a session since its entry was made.

## Main results

* `DynTable.History.tracks`: the entry knows what its packets say.
* `tcpSession`: acknowledgements and lifetimes in every history.
* `not_ignored`: an older acknowledgement is not ignored when it comes with `RST`.
-/

namespace Ipfw

/-! ### Sequence numbers -/

section sequence

variable {base a b c x : BitVec 32} {l : List (BitVec 32)}

/-- The number `x` is in the window of `2 ^ 31` numbers at `base`. -/
def InWindow (base x : BitVec 32) : Prop := (x - base).toNat < 2 ^ 31

instance (base x : BitVec 32) : Decidable (InWindow base x) := inferInstanceAs (Decidable (_ < _))

/-- The last one of the numbers in sequence order. -/
def IsLast (a : BitVec 32) (l : List (BitVec 32)) : Prop := a ∈ l ∧ ∀ b ∈ l, 0 ≤ (a - b).toInt

/-- The last one of the numbers, or 0. -/
def LastOf (a : BitVec 32) (l : List (BitVec 32)) : Prop := (l = [] ∧ a = 0) ∨ IsLast a l

theorem InWindow.sub_toInt (ha : InWindow base a) (hb : InWindow base b) :
    (a - b).toInt = (a - base).toNat - (b - base).toNat := by
  unfold InWindow at ha hb
  have hsub : a - b = (a - base) - (b - base) := by
    bv_omega
  rw [hsub, BitVec.toInt_sub, BitVec.toInt_eq_toNat_of_lt (by omega),
    BitVec.toInt_eq_toNat_of_lt (by omega), Int.bmod_def]
  omega

/-- The test of `lookup_dyn_rule_locked`, if 0 is no number of the direction. -/
theorem LastOf.test (h : LastOf a l) (h0 : (0 : BitVec 32) ∉ l) (hl : ∀ b ∈ l, InWindow base b)
    (hx : InWindow base x) : (a = 0 ∨ 0 ≤ (x - a).toInt) ↔ ∀ b ∈ l, 0 ≤ (x - b).toInt := by
  obtain ⟨rfl, rfl⟩ | ⟨hmem, hlast⟩ := h
  · exact iff_of_true (.inl rfl) fun b hb => absurd hb List.not_mem_nil
  have hne : a ≠ 0 := fun h => h0 (h ▸ hmem)
  rw [or_iff_right hne]
  refine ⟨fun hle b hb => ?_, fun hall => hall a hmem⟩
  have hab := hlast b hb
  rw [hx.sub_toInt (hl a hmem)] at hle
  rw [(hl a hmem).sub_toInt (hl b hb)] at hab
  rw [hx.sub_toInt (hl b hb)]
  omega

theorem LastOf.cons_new (hall : ∀ b ∈ l, 0 ≤ (x - b).toInt) : LastOf x (x :: l) := by
  refine .inr ⟨List.mem_cons_self, fun b hb => ?_⟩
  rcases List.mem_cons.1 hb with rfl | hb
  · rw [BitVec.sub_self]
    rfl
  · exact hall b hb

theorem LastOf.cons_old (h : LastOf a l) (hl : ∀ b ∈ l, InWindow base b) (hx : InWindow base x)
    (hold : ¬ ∀ b ∈ l, 0 ≤ (x - b).toInt) : LastOf a (x :: l) := by
  push Not at hold
  obtain ⟨b, hb, hlt⟩ := hold
  obtain ⟨rfl, -⟩ | ⟨hmem, hlast⟩ := h
  · cases hb
  refine .inr ⟨List.mem_cons_of_mem _ hmem, fun c hc => ?_⟩
  rcases List.mem_cons.1 hc with rfl | hc
  · have hab := hlast b hb
    rw [(hl a hmem).sub_toInt (hl b hb)] at hab
    rw [hx.sub_toInt (hl b hb)] at hlt
    rw [(hl a hmem).sub_toInt hx]
    omega
  · exact hlast c hc

end sequence

/-! ### What the packets say -/

/-- `TH_RST`. -/
def thRst : BitVec 32 := 4#32

/-- What a packet of a session has brought. The pointer to its TCP header may be missing. -/
structure Segment where
  flags : BitVec 8
  dir : Dir
  ack : Option (BitVec 32)

/-- The packets of a session, the newest first. -/
abbrev Segments := List Segment

namespace Segments

/-- The flag has come in the direction. -/
def Flagged (ps : Segments) (dir : Dir) (flag : BitVec 32) : Prop :=
  ∃ p ∈ ps, p.dir = dir ∧ p.flags.setWidth 32 &&& flag ≠ 0

instance (ps : Segments) (dir : Dir) (flag : BitVec 32) : Decidable (ps.Flagged dir flag) :=
  inferInstanceAs (Decidable (∃ p ∈ ps, _))

/-- Both sides have sent `SYN`, none has sent `RST`, and not both have sent `FIN`. -/
def Established (ps : Segments) : Prop :=
  ps.Flagged .forward thSyn ∧ ps.Flagged .reverse thSyn ∧
  ¬ ps.Flagged .forward thRst ∧ ¬ ps.Flagged .reverse thRst ∧
  ¬ (ps.Flagged .forward thFin ∧ ps.Flagged .reverse thFin)

instance (ps : Segments) : Decidable ps.Established := inferInstanceAs (Decidable (_ ∧ _))

/-- A side has sent `RST`, or both have sent `FIN`. -/
def Closed (ps : Segments) : Prop :=
  ps.Flagged .forward thRst ∨ ps.Flagged .reverse thRst ∨
  ps.Flagged .forward thFin ∧ ps.Flagged .reverse thFin

/-- The acknowledgements of a direction that came while the session was established. -/
def acks (dir : Dir) : Segments → List (BitVec 32)
  | [] => []
  | p :: ps =>
    if p.dir = dir ∧ Established (p :: ps) then p.ack.toList ++ acks dir ps else acks dir ps

/-- The acknowledgements of each direction are not 0, and in one window. -/
def Proper (ps : Segments) : Prop :=
  ∀ dir, ∃ base, ∀ p ∈ ps, p.dir = dir → ∀ a ∈ p.ack, a ≠ 0 ∧ InWindow base a

/-- The acknowledgement of the packet is older than one of its direction. -/
def Older (p : Segment) (ps : Segments) : Prop :=
  ∃ a ∈ p.ack, ∃ b ∈ ps.acks p.dir, (a - b).toInt < 0

variable {p : Segment} {ps qs : Segments} {dir : Dir} {flag : BitVec 32} {a : BitVec 32}

theorem Flagged.mono (h : qs <:+ ps) (hq : qs.Flagged dir flag) : ps.Flagged dir flag := by
  obtain ⟨p, hp, hflag⟩ := hq
  exact ⟨p, h.mem hp, hflag⟩

/-- A session that has been closed stays closed. -/
theorem Closed.mono (h : qs <:+ ps) (hq : qs.Closed) : ps.Closed :=
  hq.imp (Flagged.mono h) (Or.imp (Flagged.mono h) (And.imp (Flagged.mono h) (Flagged.mono h)))

theorem proper_of (h : ∀ p ∈ ps, p.ack.all fun a => a ≠ 0 ∧ InWindow 0 a) : ps.Proper := by
  refine fun _ => ⟨0, fun p hp _ a ha => ?_⟩
  have hall := h p hp
  rw [Option.mem_def.1 ha] at hall
  exact of_decide_eq_true hall

theorem Proper.tail (h : Proper (p :: ps)) : Proper ps := fun dir => by
  obtain ⟨base, hall⟩ := h dir
  exact ⟨base, fun q hq => hall q (List.mem_cons_of_mem _ hq)⟩

theorem mem_of_mem_acks (h : a ∈ ps.acks dir) : ∃ p ∈ ps, p.dir = dir ∧ a ∈ p.ack := by
  induction ps with
  | nil => cases h
  | cons p ps ih =>
    have htail (h : a ∈ acks dir ps) : ∃ q ∈ p :: ps, q.dir = dir ∧ a ∈ q.ack := by
      obtain ⟨q, hq, hrest⟩ := ih h
      exact ⟨q, List.mem_cons_of_mem _ hq, hrest⟩
    unfold acks at h
    split_ifs at h with hp
    · rcases List.mem_append.1 h with h | h
      · exact ⟨p, List.mem_cons_self, hp.1, Option.mem_toList.1 h⟩
      · exact htail h
    · exact htail h

theorem Proper.acks (h : Proper ps) (dir : Dir) :
    (0 : BitVec 32) ∉ ps.acks dir ∧ ∃ base, ∀ a ∈ ps.acks dir, InWindow base a := by
  obtain ⟨base, hall⟩ := h dir
  constructor
  · intro h0
    obtain ⟨p, hp, hdir, hack⟩ := mem_of_mem_acks h0
    exact (hall p hp hdir 0 hack).1 rfl
  · refine ⟨base, fun a ha => ?_⟩
    obtain ⟨p, hp, hdir, hack⟩ := mem_of_mem_acks ha
    exact (hall p hp hdir a hack).2

/-! ### The flags -/

/-- The flags of a direction. -/
def recorded (dir : Dir) : Segments → BitVec 3
  | [] => 0#3
  | p :: ps => recorded dir ps ||| if p.dir = dir then p.flags.setWidth 3 else 0#3

theorem recorded_cons : recorded dir (p :: ps) =
    recorded dir ps ||| if p.dir = dir then p.flags.setWidth 3 else 0#3 := rfl

/-- `state` of an entry. -/
def state (ps : Segments) : BitVec 32 :=
  (ps.recorded .forward).setWidth 32 ||| (ps.recorded .reverse).setWidth 32 <<< 8

theorem flags_and (x : BitVec 8) (f : BitVec 3) :
    x.setWidth 32 &&& f.setWidth 32 = (x.setWidth 3 &&& f).setWidth 32 := by
  apply BitVec.eq_of_getLsbD_eq
  intro i hi
  by_cases h3 : i < 3
  · simp [hi, h3]
  · simp [h3, BitVec.getLsbD_of_ge f i (by omega)]

theorem setWidth_eq_zero (f : BitVec 3) : f.setWidth 32 = 0 ↔ f = 0 := by
  revert f
  decide

theorem flagged_iff (f : BitVec 3) :
    ps.Flagged dir (f.setWidth 32) ↔ ps.recorded dir &&& f ≠ 0 := by
  unfold Flagged
  simp only [flags_and, ne_eq, setWidth_eq_zero]
  induction ps with
  | nil => simp [recorded]
  | cons p ps ih =>
    rw [List.exists_mem_cons_iff, ih, recorded_cons]
    by_cases hdir : p.dir = dir
    · have hor : (recorded dir ps ||| p.flags.setWidth 3) &&& f =
          recorded dir ps &&& f ||| p.flags.setWidth 3 &&& f := by
        ext i
        simp [Bool.and_or_distrib_right]
      rw [if_pos hdir, hor, and_iff_right hdir]
      exact or_comm.trans (not_and_or.symm.trans (not_congr BitVec.or_eq_zero_iff.symm))
    · rw [if_neg hdir, BitVec.or_zero, or_iff_right fun h => hdir h.1]

theorem not_flagged_iff (f : BitVec 3) :
    ¬ ps.Flagged dir (f.setWidth 32) ↔ ps.recorded dir &&& f = 0 := by
  rw [flagged_iff, not_not]

/-- The states of the acknowledgement lifetime. -/
theorem established_iff : ps.Established ↔ ps.state = bothSyn ∨ ps.state = bothSyn ||| thFin ∨
    ps.state = bothSyn ||| thFin <<< 8 := by
  have hall : ∀ f r : BitVec 3,
      (f &&& 2 ≠ 0 ∧ r &&& 2 ≠ 0 ∧ f &&& 4 = 0 ∧ r &&& 4 = 0 ∧ ¬ (f &&& 1 ≠ 0 ∧ r &&& 1 ≠ 0)) ↔
      (f.setWidth 32 ||| r.setWidth 32 <<< 8 = bothSyn ∨
        f.setWidth 32 ||| r.setWidth 32 <<< 8 = bothSyn ||| thFin ∨
        f.setWidth 32 ||| r.setWidth 32 <<< 8 = bothSyn ||| thFin <<< 8) := by decide
  unfold Established state
  rw [← hall, ← flagged_iff, ← flagged_iff, ← not_flagged_iff, ← not_flagged_iff, ← flagged_iff,
    ← flagged_iff]
  rfl

/-- The state of the opening lifetime. -/
theorem Closed.state_ne (h : ps.Closed) : ps.state ≠ thSyn ∧ ¬ ps.Established := by
  constructor
  · have hall : ∀ f r : BitVec 3, (f &&& 4 ≠ 0 ∨ r &&& 4 ≠ 0 ∨ f &&& 1 ≠ 0 ∧ r &&& 1 ≠ 0) →
        f.setWidth 32 ||| r.setWidth 32 <<< 8 ≠ thSyn := by decide
    refine hall _ _ ?_
    rw [← flagged_iff, ← flagged_iff, ← flagged_iff, ← flagged_iff]
    exact h
  · rintro ⟨-, -, hrst, hrst', hfin⟩
    rcases h with h | h | h
    · exact hrst h
    · exact hrst' h
    · exact hfin h

/-- The state after one more packet. -/
theorem state_cons (hdir : p.dir = .forward ∨ p.dir = .reverse) : state (p :: ps) =
    ps.state ||| (if p.dir = .forward then (p.flags &&& 7#8).setWidth 32
      else (p.flags &&& 7#8).setWidth 32 <<< 8) := by
  have hflags : (p.flags &&& 7#8).setWidth 32 = (p.flags.setWidth 3).setWidth 32 := by
    apply BitVec.eq_of_toNat_eq
    rw [BitVec.toNat_setWidth, BitVec.toNat_and, BitVec.toNat_setWidth, BitVec.toNat_setWidth]
    exact congrArg (· % 2 ^ 32) (Nat.and_two_pow_sub_one_eq_mod p.flags.toNat 3)
  have hor : ∀ x y : BitVec 3, (x ||| y).setWidth 32 = x.setWidth 32 ||| y.setWidth 32 := by
    decide
  unfold state
  rw [recorded_cons, recorded_cons, hflags, hor, hor]
  rcases hdir with h | h
  · rw [h, if_pos rfl, if_neg (by decide), if_pos rfl, BitVec.setWidth_zero, BitVec.or_zero]
    ac_rfl
  · rw [h, if_neg (by decide), if_pos rfl, if_neg (by decide), BitVec.setWidth_zero,
      BitVec.or_zero, BitVec.shiftLeft_or_distrib, BitVec.or_assoc]

end Segments

/-! ### The entry -/

variable {T T' : DynTable} {t : DynTuning} {q r : DynPtr} {qs : List DynPtr} {i : ℕ} {pkt : FlowId}
  {dir : Dir} {ack : Option (BitVec 32)} {now a base : BitVec 32} {e e' : DynRule} {p : Segment}
  {ps : Segments}

/-- What an entry becomes with a packet of its TCP session. -/
def DynRule.segment (t : DynTuning) (pkt : FlowId) (dir : Dir) (ack : Option (BitVec 32))
    (now : BitVec 32) (e : DynRule) : DynRule :=
  let e := { e with state := tcpFlags e.state dir pkt }
  if e.state = bothSyn ∨ e.state = bothSyn ||| thFin ∨ e.state = bothSyn ||| thFin <<< 8 then
    match seenAck dir ack e with
    | some e => { e with expire := now + t.ackLifetime }
    | none => e
  else { e with expire := now + t.tcpLifetime e.state }

theorem dynHit_tcp (htcp : pkt.proto = ipprotoTcp) :
    (dynHit pkt dir ack now T q).ent q = (T.ent q).segment T.tuning pkt dir ack now := by
  unfold dynHit DynRule.segment
  rw [if_pos htcp]
  unfold tcpState
  have hstate : ((T.ent q).state ||| if dir = .forward then (pkt.flags &&& 7#8).setWidth 32
      else (pkt.flags &&& 7#8).setWidth 32 <<< 8) = tcpFlags (T.ent q).state dir pkt := rfl
  dsimp only
  rw [hstate]
  generalize tcpFlags (T.ent q).state dir pkt = state
  generalize hT₁ : T.modify q _ = T₁
  have hent : T₁.ent q = { T.ent q with state := state } := by
    rw [← hT₁]
    exact modify_ent_self
  have hT : T.tuning = T₁.tuning := by
    rw [← hT₁]
    rfl
  rw [hT]
  unfold DynTuning.tcpLifetime
  by_cases hsyn : state = thSyn
  · rw [if_pos hsyn, if_neg (by rw [hsyn]; decide), if_pos hsyn, modify_ent_self, hent]
    rfl
  rw [if_neg hsyn, if_neg hsyn]
  by_cases hack : state = bothSyn ∨ state = bothSyn ||| thFin ∨ state = bothSyn ||| thFin <<< 8
  · rw [if_pos hack, if_pos hack, modify_ent_self, hent]
    rfl
  rw [if_neg hack, if_neg hack, if_neg hack]
  by_cases hfin : state = bothSyn ||| bothFin
  · rw [if_pos hfin, if_pos hfin, modify_ent_self]
    dsimp only
    rw [hent]
    rfl
  · rw [if_neg hfin, if_neg hfin, modify_ent_self]
    dsimp only
    rw [hent]
    rfl

/-- The loop changes at most the counts of the entries. -/
theorem lookupLoop_ent (r : DynPtr) :
    (∃ c, (lookupLoop pkt now i T qs).2.ent r = { T.ent r with count := c }) ∧
      (lookupLoop pkt now i T qs).2.tuning = T.tuning := by
  induction qs generalizing T with
  | nil => exact ⟨⟨_, rfl⟩, rfl⟩
  | cons q qs ih =>
    unfold lookupLoop
    dsimp only
    split_ifs
    · exact ih
    · obtain ⟨⟨c, hc⟩, htuning⟩ := @ih (T.unlink i q)
      rw [unlink_ent] at hc
      exact ⟨⟨c, hc⟩, htuning.trans unlink_tuning⟩
    · cases pkt.matches (T.ent q).id with
      | some dir => exact ⟨⟨_, rfl⟩, rfl⟩
      | none => exact ih
    · exact ih

theorem FlowId.matches_dir {id : FlowId} (h : pkt.matches id = some dir) :
    dir = .forward ∨ dir = .reverse := by
  unfold FlowId.matches at h
  split_ifs at h <;> obtain rfl := Option.some.inj h <;> decide

/-- What a packet does to the entry that the lookup finds. -/
theorem lookup_found (h : lookupDynRuleLocked pkt ack now T = (some (q, dir), T')) :
    (dir = .forward ∨ dir = .reverse) ∧ pkt.proto = (T.ent q).id.proto ∧
      (pkt.proto = ipprotoTcp → ∃ c, T'.ent q =
        { T.ent q with count := c }.segment T.tuning pkt dir ack now) := by
  unfold lookupDynRuleLocked at h
  split_ifs at h
  · cases h
  dsimp only at h
  generalize hashPacket T.curr pkt = i at h
  have hfind : (lookupLoop pkt now i T (T.list i)).1 = _ := lookupLoop_eq
  obtain ⟨⟨c, hc⟩, htuning⟩ := @lookupLoop_ent T (T.list i) i pkt now q
  generalize lookupLoop pkt now i T (T.list i) = x at h hfind hc htuning
  obtain ⟨_ | ⟨q', dir'⟩, T₁⟩ := x
  · cases h
  obtain ⟨⟨rfl, rfl⟩, rfl⟩ : (q' = q ∧ dir' = dir) ∧ _ = T' := by
    simpa only [Prod.mk.injEq, Option.some.injEq] using h
  obtain ⟨r, -, hr⟩ := List.exists_of_findSome?_eq_some hfind.symm
  obtain ⟨d, hhit, hrd⟩ := Option.map_eq_some_iff.1 hr
  obtain ⟨rfl, rfl⟩ : r = q' ∧ d = dir' := by simpa only [Prod.mk.injEq] using hrd
  unfold DynRule.hit at hhit
  split_ifs at hhit with hmatch
  refine ⟨FlowId.matches_dir hhit, hmatch.2.1, fun htcp => ⟨c, ?_⟩⟩
  rw [dynHit_tcp htcp, ← htuning]
  exact congrArg (DynRule.segment _ pkt d ack now) hc

/-- The acknowledgement of a direction. -/
def DynRule.ackOf (dir : Dir) (e : DynRule) : BitVec 32 :=
  if dir = .forward then e.ackFwd else e.ackRev

/-- What the entry knows of its session is what the packets say. -/
structure DynRule.Tracks (e : DynRule) (ps : Segments) : Prop where
  proto : e.id.proto = ipprotoTcp
  state : e.state = ps.state
  acks : ∀ dir, dir = .forward ∨ dir = .reverse → LastOf (e.ackOf dir) (ps.acks dir)

theorem seenAck_some : (∃ e', seenAck dir (some a) e = some e' ∧ e'.id = e.id ∧
      e'.state = e.state ∧ e'.ackOf dir = a ∧
      ∀ d, d = .forward ∨ d = .reverse → dir = .forward ∨ dir = .reverse → d ≠ dir →
        e'.ackOf d = e.ackOf d) ∧ (e.ackOf dir = 0 ∨ 0 ≤ (a - e.ackOf dir).toInt) ∨
    seenAck dir (some a) e = none ∧ ¬ (e.ackOf dir = 0 ∨ 0 ≤ (a - e.ackOf dir).toInt) := by
  unfold seenAck DynRule.ackOf
  dsimp only
  by_cases hfwd : dir = .forward
  · rw [if_pos hfwd, if_pos hfwd]
    split_ifs with hge
    · refine .inl ⟨⟨_, rfl, rfl, rfl, rfl, fun d hd _ hne => ?_⟩, hge⟩
      have hd : d ≠ .forward := fun h => hne (h.trans hfwd.symm)
      rw [if_neg hd, if_neg hd]
    · exact .inr ⟨rfl, hge⟩
  · rw [if_neg hfwd, if_neg hfwd]
    split_ifs with hge
    · refine .inl ⟨⟨_, rfl, rfl, rfl, rfl, fun d hd hdir hne => ?_⟩, hge⟩
      have hd : d = .forward :=
        hd.resolve_right fun h => hne (h.trans (hdir.resolve_left hfwd).symm)
      rw [if_pos hd, if_pos hd]
    · exact .inr ⟨rfl, hge⟩

theorem Segments.acks_cons_of_ne (h : p.dir ≠ dir) : Segments.acks dir (p :: ps) = ps.acks dir :=
  if_neg fun hp => h hp.1

theorem Segments.acks_cons_of_not (h : ¬ Segments.Established (p :: ps)) :
    Segments.acks dir (p :: ps) = ps.acks dir :=
  if_neg fun hp => h hp.2

theorem Segments.acks_cons (h : Segments.Established (p :: ps)) :
    Segments.acks p.dir (p :: ps) = p.ack.toList ++ ps.acks p.dir :=
  if_pos ⟨rfl, h⟩

/-- One packet of a session. -/
theorem DynRule.Tracks.segment (t : DynTuning) (now : BitVec 32) (h : e.Tracks ps)
    (hdir : dir = .forward ∨ dir = .reverse)
    (hp : Segments.Proper (⟨pkt.flags, dir, ack⟩ :: ps)) :
    (e.segment t pkt dir ack now).Tracks (⟨pkt.flags, dir, ack⟩ :: ps) ∧
    (Segments.Established (⟨pkt.flags, dir, ack⟩ :: ps) →
      (Segments.Older ⟨pkt.flags, dir, ack⟩ ps →
        (e.segment t pkt dir ack now).expire = e.expire) ∧
      (¬ Segments.Older ⟨pkt.flags, dir, ack⟩ ps →
        (e.segment t pkt dir ack now).expire = now + t.ackLifetime)) ∧
    (¬ Segments.Established (⟨pkt.flags, dir, ack⟩ :: ps) →
      (e.segment t pkt dir ack now).expire =
        now + t.tcpLifetime (Segments.state (⟨pkt.flags, dir, ack⟩ :: ps))) := by
  have hstate : tcpFlags e.state dir pkt = Segments.state (⟨pkt.flags, dir, ack⟩ :: ps) := by
    rw [Segments.state_cons hdir, h.state]
    rfl
  unfold DynRule.segment
  dsimp only
  rw [hstate]
  by_cases hest : Segments.Established (⟨pkt.flags, dir, ack⟩ :: ps)
  swap
  · -- The acknowledgement does not count.
    rw [if_neg (mt Segments.established_iff.2 hest)]
    refine ⟨⟨h.proto, rfl, fun d hd => ?_⟩, fun h => absurd h hest, fun _ => rfl⟩
    rw [Segments.acks_cons_of_not hest]
    exact h.acks d hd
  rw [if_pos (Segments.established_iff.1 hest)]
  have hacks := Segments.acks_cons hest
  have hother : ∀ d, d ≠ dir → Segments.acks d (⟨pkt.flags, dir, ack⟩ :: ps) = ps.acks d :=
    fun d hd => Segments.acks_cons_of_ne hd.symm
  obtain ⟨h0, base, hbase⟩ := hp.acks dir
  rw [hacks] at h0 hbase
  cases ack with
  | none =>
    have hnot : ¬ Segments.Older ⟨pkt.flags, dir, none⟩ ps := by
      rintro ⟨a, ha, -⟩
      cases ha
    refine ⟨⟨h.proto, rfl, fun d hd => ?_⟩, fun _ => ⟨fun h => absurd h hnot, fun _ => rfl⟩,
      fun h => absurd hest h⟩
    rcases eq_or_ne d dir with rfl | hne
    · rw [hacks]
      exact h.acks d hd
    · rw [hother d hne]
      exact h.acks d hd
  | some a =>
    have hl : ∀ b ∈ ps.acks dir, InWindow base b := fun b hb => hbase b (List.mem_cons_of_mem _ hb)
    have hx : InWindow base a := hbase a List.mem_cons_self
    have htest := (h.acks dir hdir).test (fun h => h0 (List.mem_cons_of_mem _ h)) hl hx
    have holder : Segments.Older ⟨pkt.flags, dir, some a⟩ ps ↔
        ¬ ∀ b ∈ ps.acks dir, 0 ≤ (a - b).toInt := by
      push Not
      exact ⟨fun ⟨a', ha', hb⟩ => Option.some.inj ha' ▸ hb, fun hb => ⟨a, rfl, hb⟩⟩
    obtain ⟨⟨e', hseen, hid, hst, hself, hrest⟩, hge⟩ | ⟨hseen, hlt⟩ :=
      @seenAck_some dir a { e with state := Segments.state (⟨pkt.flags, dir, some a⟩ :: ps) }
    · have hall := htest.1 hge
      rw [hseen]
      refine ⟨⟨?_, hst, fun d hd => ?_⟩,
        fun _ => ⟨fun h => absurd hall (holder.1 h), fun _ => rfl⟩, fun h => absurd hest h⟩
      · exact hid.symm ▸ h.proto
      · rcases eq_or_ne d dir with rfl | hne
        · rw [hacks]
          exact hself.symm ▸ LastOf.cons_new hall
        · rw [hother d hne]
          exact (hrest d hd hdir hne).symm ▸ h.acks d hd
    · have hold := mt htest.2 hlt
      rw [hseen]
      refine ⟨⟨h.proto, rfl, fun d hd => ?_⟩,
        fun _ => ⟨fun _ => rfl, fun h => absurd (holder.2 hold) h⟩, fun h => absurd hest h⟩
      rcases eq_or_ne d dir with rfl | hne
      · rw [hacks]
        exact (h.acks d hd).cons_old hl hx hold
      · rw [hother d hne]
        exact h.acks d hd

/-! ### The sessions -/

/-- Nothing has happened to the session of an entry. -/
structure DynRule.SameSession (e e' : DynRule) : Prop where
  id : e'.id = e.id
  expire : e'.expire = e.expire
  state : e'.state = e.state
  ackFwd : e'.ackFwd = e.ackFwd
  ackRev : e'.ackRev = e.ackRev

/-- The packets of the TCP session `q` since its entry was made. They come at any times, and between
them anything may happen to the other entries and to the variables. -/
inductive DynTable.History (q : DynPtr) : DynTable → Segments → Prop
  | made {T : DynTable} : (T.ent q).id.proto = ipprotoTcp → (T.ent q).state = 0 →
      (T.ent q).ackFwd = 0 → (T.ent q).ackRev = 0 → History q T []
  | packet {T T' : DynTable} {ps : Segments} {pkt : FlowId} {dir : Dir} {ack : Option (BitVec 32)}
      {now : BitVec 32} : History q T ps →
      lookupDynRuleLocked pkt ack now T = (some (q, dir), T') →
      History q T' (⟨pkt.flags, dir, ack⟩ :: ps)
  | other {T T' : DynTable} {ps : Segments} : History q T ps → (T.ent q).SameSession (T'.ent q) →
      History q T' ps

theorem dynHit_ent_ne (hne : r ≠ q) : (dynHit pkt dir ack now T q).ent r = T.ent r := by
  unfold dynHit tcpState
  dsimp only
  split_ifs <;> simp only [modify_ent_ne hne]

theorem DynTable.History.hit (h : T.History q ps) (pkt : FlowId) (dir : Dir)
    (ack : Option (BitVec 32)) (now : BitVec 32)
    (hfind : (lookupDynRuleLocked pkt ack now T).1 = some (q, dir)) :
    (lookupDynRuleLocked pkt ack now T).2.History q (⟨pkt.flags, dir, ack⟩ :: ps) :=
  .packet h (Prod.ext hfind rfl)

theorem DynTable.link_history {id : FlowId} {dynType : Opcode} {owner : DynOwner}
    (htcp : id.proto = ipprotoTcp) : (T.link id dynType owner now).History T.brk [] := by
  have hent := @link_ent_brk T now id dynType owner
  exact .made (by rw [hent]; exact htcp) (by rw [hent]; rfl) (by rw [hent]; rfl)
    (by rw [hent]; rfl)

/-- A lookup of another flow does nothing to a session. -/
theorem lookup_other (hne : ∀ dir, (lookupDynRuleLocked pkt ack now T).1 ≠ some (q, dir)) :
    (T.ent q).SameSession ((lookupDynRuleLocked pkt ack now T).2.ent q) := by
  unfold lookupDynRuleLocked at hne ⊢
  split_ifs at hne ⊢
  · exact ⟨rfl, rfl, rfl, rfl, rfl⟩
  dsimp only at hne ⊢
  generalize hashPacket T.curr pkt = i at hne ⊢
  obtain ⟨⟨c, hc⟩, -⟩ := @lookupLoop_ent T (T.list i) i pkt now q
  generalize lookupLoop pkt now i T (T.list i) = x at hne hc ⊢
  obtain ⟨_ | ⟨r, dir⟩, T₁⟩ := x
  · dsimp only at hc ⊢
    rw [hc]
    exact ⟨rfl, rfl, rfl, rfl, rfl⟩
  · have hqr : q ≠ r := by
      rintro rfl
      exact hne dir rfl
    dsimp only at hc ⊢
    rw [dynHit_ent_ne hqr, hc]
    exact ⟨rfl, rfl, rfl, rfl, rfl⟩

theorem DynRule.Tracks.same (h : e.Tracks ps) (hsame : e.SameSession e') : e'.Tracks ps := by
  refine ⟨hsame.id ▸ h.proto, hsame.state.trans h.state, fun dir hdir => ?_⟩
  have hack : e'.ackOf dir = e.ackOf dir := by
    unfold DynRule.ackOf
    rw [hsame.ackFwd, hsame.ackRev]
  rw [hack]
  exact h.acks dir hdir

/-- The entry knows what the packets say. -/
theorem DynTable.History.tracks (h : T.History q ps) (hp : ps.Proper) : (T.ent q).Tracks ps := by
  induction h with
  | made htcp hstate hfwd hrev =>
    refine ⟨htcp, hstate.trans (by decide), fun dir hdir => .inl ⟨rfl, ?_⟩⟩
    unfold DynRule.ackOf
    rw [hfwd, hrev, ite_self]
  | @packet T _ _ _ _ _ _ _ hlookup ih =>
    obtain ⟨hdir, hproto, hent⟩ := lookup_found hlookup
    have htracks := ih hp.tail
    obtain ⟨c, hc⟩ := hent (hproto.trans htracks.proto)
    rw [hc]
    have hcount : { T.ent q with count := c }.Tracks _ :=
      ⟨htracks.proto, htracks.state, htracks.acks⟩
    exact (hcount.segment _ _ hdir hp).1
  | other _ hsame ih => exact (ih hp).same hsame

/-- What the packet `p` does to the lifetime of the entry, after the packets `ps`. -/
structure DynTable.Renews (T : DynTable) (now : BitVec 32) (p : Segment) (ps : Segments)
    (e e' : DynRule) : Prop where
  older : Segments.Established (p :: ps) → Segments.Older p ps → e'.expire = e.expire
  acked : Segments.Established (p :: ps) → ¬ Segments.Older p ps →
    e'.expire = now + T.ackLifetime
  other : ¬ Segments.Established (p :: ps) → e'.expire = now + T.synLifetime ∨
    e'.expire = now + T.tuning.clamp T.finLifetime ∨
    e'.expire = now + T.tuning.clamp T.rstLifetime
  closed : ∀ qs, qs <:+ p :: ps → Segments.Closed qs →
    (e'.expire - now).toNat ≤ T.keepalivePeriod.toNat - 1

theorem DynTuning.clamp_le (life : BitVec 32) (hpos : 1 ≤ t.keepalivePeriod.toNat) :
    (t.clamp life).toNat ≤ t.keepalivePeriod.toNat - 1 := by
  unfold DynTuning.clamp
  split_ifs with hle
  · have h1 : (1 : BitVec 32) ≤ t.keepalivePeriod :=
      BitVec.le_def.2 (show (1#32).toNat ≤ _ from hpos)
    rw [BitVec.toNat_sub_of_le h1]
    rfl
  · rw [BitVec.not_le, BitVec.lt_def] at hle
    omega

theorem tcpLifetime_other {state : BitVec 32} (hest : ¬ (state = bothSyn ∨
    state = bothSyn ||| thFin ∨ state = bothSyn ||| thFin <<< 8)) :
    t.tcpLifetime state = t.synLifetime ∨ t.tcpLifetime state = t.clamp t.finLifetime ∨
      t.tcpLifetime state = t.clamp t.rstLifetime := by
  unfold DynTuning.tcpLifetime
  split_ifs
  · exact .inl rfl
  · exact .inr (.inl rfl)
  · exact .inr (.inr rfl)

theorem tcpLifetime_closed {state : BitVec 32} (hsyn : state ≠ thSyn) (hest : ¬ (state = bothSyn ∨
    state = bothSyn ||| thFin ∨ state = bothSyn ||| thFin <<< 8)) :
    ∃ life, t.tcpLifetime state = t.clamp life := by
  unfold DynTuning.tcpLifetime
  rw [if_neg hsyn, if_neg hest]
  split_ifs
  · exact ⟨_, rfl⟩
  · exact ⟨_, rfl⟩

/-- **TCP sessions.** In every history, the entry has the last acknowledgement of each direction
that has come while the session was established; and the next packet renews its lifetime only
then, unless it is older, while a closed session is never renewed for a keepalive period. -/
theorem tcpSession (h : T.History q ps) (hp : ps.Proper) :
    LastOf (T.ent q).ackFwd (ps.acks .forward) ∧ LastOf (T.ent q).ackRev (ps.acks .reverse) ∧
    ∀ pkt dir ack now T', lookupDynRuleLocked pkt ack now T = (some (q, dir), T') →
      Segments.Proper (⟨pkt.flags, dir, ack⟩ :: ps) → 1 ≤ T.keepalivePeriod.toNat →
      T.Renews now ⟨pkt.flags, dir, ack⟩ ps (T.ent q) (T'.ent q) := by
  have htracks := h.tracks hp
  refine ⟨htracks.acks _ (.inl rfl), htracks.acks _ (.inr rfl),
    fun pkt dir ack now T' hlookup hp' hpos => ?_⟩
  obtain ⟨hdir, hproto, hent⟩ := lookup_found hlookup
  obtain ⟨c, hc⟩ := hent (hproto.trans htracks.proto)
  have hcount : { T.ent q with count := c }.Tracks ps :=
    ⟨htracks.proto, htracks.state, htracks.acks⟩
  obtain ⟨-, hest, hother⟩ := hcount.segment T.tuning now hdir hp'
  rw [← hc] at hest hother
  have hstate := mt (@Segments.established_iff (⟨pkt.flags, dir, ack⟩ :: ps)).2
  refine ⟨fun h => (hest h).1, fun h => (hest h).2, fun h => ?_, fun qs hqs hclosed => ?_⟩
  · rw [hother h]
    exact (tcpLifetime_other (hstate h)).imp (congrArg _) (Or.imp (congrArg _) (congrArg _))
  · have hclosed := hclosed.mono hqs
    obtain ⟨life, hlife⟩ := @tcpLifetime_closed T.tuning _ hclosed.state_ne.1
      (hstate hclosed.state_ne.2)
    rw [hother hclosed.state_ne.2, hlife, BitVec.add_comm, BitVec.add_sub_cancel]
    exact DynTuning.clamp_le life hpos

theorem lookup_id (r : DynPtr) :
    ((lookupDynRuleLocked pkt ack now T).2.ent r).id = (T.ent r).id := by
  unfold lookupDynRuleLocked
  split_ifs
  · rfl
  dsimp only
  generalize hashPacket T.curr pkt = i
  obtain ⟨⟨c, hc⟩, -⟩ := @lookupLoop_ent T (T.list i) i pkt now r
  generalize lookupLoop pkt now i T (T.list i) = x at hc ⊢
  obtain ⟨o, T₁⟩ := x
  have hid : (T₁.ent r).id = (T.ent r).id := by
    rw [show T₁.ent r = _ from hc]
  obtain _ | ⟨q, dir⟩ := o
  · exact hid
  · exact ((dynHit_alike _ q).ent r).id.trans hid

/-! ### A session -/

/-- A packet of the session of ports 1 and 2, in either direction. -/
def sessionPkt (src dst : BitVec 16) (flags : BitVec 8) : FlowId :=
  { (default : FlowId) with proto := ipprotoTcp, srcPort := src, dstPort := dst, flags := flags }

/-- The entry of the session. -/
def sessionRule (state ackFwd ackRev expire : BitVec 32) : DynRule where
  rule := 0
  parent := 0
  id := sessionPkt 1 2 2
  expire := expire
  bucket := 3
  state := state
  ackFwd := ackFwd
  ackRev := ackRev
  dynType := .keepState
  count := 0

/-- The table with this entry. -/
def sessionTable (state ackFwd ackRev expire : BitVec 32) : DynTable :=
  { DynTable.init with
    ent := fun _ => sessionRule state ackFwd ackRev expire
    list := fun i => if i = 3 then [0] else []
    alloc := true
    count := 1
    brk := 1 }

/-- Both have sent `SYN`, and the first side has acknowledged up to 10. -/
def openSession : Segments :=
  [⟨0x10, .forward, some 10⟩, ⟨0x12, .reverse, some 5⟩, ⟨2, .forward, some 1⟩]

theorem sessionTable_history {s f r x s' f' r' x' : BitVec 32}
    (h : (sessionTable s f r x).History 0 ps) (pkt : FlowId) (dir : Dir) (ack : Option (BitVec 32))
    (now : BitVec 32)
    (hfind : (lookupDynRuleLocked pkt ack now (sessionTable s f r x)).1 = some (0, dir))
    (he : let e := (lookupDynRuleLocked pkt ack now (sessionTable s f r x)).2.ent 0
      x' = e.expire ∧ s' = e.state ∧ f' = e.ackFwd ∧ r' = e.ackRev) :
    (sessionTable s' f' r' x').History 0 (⟨pkt.flags, dir, ack⟩ :: ps) := by
  have hid : ((sessionTable s' f' r' x').ent 0).id = ((sessionTable s f r x).ent 0).id := rfl
  exact .other (h.hit pkt dir ack now hfind)
    ⟨hid.trans (lookup_id 0).symm, he.1, he.2.1, he.2.2.1, he.2.2.2⟩

/-- The table of the entry of `openSession`. -/
def openTable : DynTable := sessionTable 0x202 10 5 303

theorem openSession_history : openTable.History 0 openSession := by
  have hmade : (sessionTable 0 0 0 20).History 0 [] := .made rfl rfl rfl rfl
  have hsyn : (sessionTable 2 0 0 21).History 0 _ :=
    sessionTable_history hmade (sessionPkt 1 2 2) .forward (some 1) 1 (by decide +kernel)
      (by decide +kernel)
  have hboth : (sessionTable 0x202 0 5 302).History 0 _ :=
    sessionTable_history hsyn (sessionPkt 2 1 0x12) .reverse (some 5) 2 (by decide +kernel)
      (by decide +kernel)
  exact sessionTable_history hboth (sessionPkt 1 2 0x10) .forward (some 10) 3 (by decide +kernel)
    (by decide +kernel)

theorem openSession_proper : openSession.Proper := Segments.proper_of (by decide +kernel)

/-- The table after a packet with `RST` and an older acknowledgement. -/
def resetTable : DynTable := (lookupDynRuleLocked (sessionPkt 1 2 4) (some 3) 4 openTable).2

theorem resetTable_lookup : lookupDynRuleLocked (sessionPkt 1 2 4) (some 3) 4 openTable =
    (some (0, .forward), resetTable) := Prod.ext (by decide +kernel) rfl

theorem resetTable_proper :
    Segments.Proper (⟨(sessionPkt 1 2 4).flags, .forward, some 3⟩ :: openSession) :=
  Segments.proper_of (by decide +kernel)

theorem openSession_renews : LastOf (openTable.ent 0).ackFwd (openSession.acks .forward) ∧
    LastOf (openTable.ent 0).ackRev (openSession.acks .reverse) ∧
    openTable.Renews 4 ⟨(sessionPkt 1 2 4).flags, .forward, some 3⟩ openSession (openTable.ent 0)
      (resetTable.ent 0) := by
  have hall := tcpSession openSession_history openSession_proper
  exact ⟨hall.1, hall.2.1, hall.2.2 _ _ _ _ _ resetTable_lookup resetTable_proper
    (by decide +kernel)⟩

/-- **An older acknowledgement with `RST`** changes the lifetime. -/
theorem not_ignored : ¬ ∀ (q : DynPtr) (T T' : DynTable) (ps : Segments) (pkt : FlowId) (dir : Dir)
    (ack : Option (BitVec 32)) (now : BitVec 32), T.History q ps →
    lookupDynRuleLocked pkt ack now T = (some (q, dir), T') →
    Segments.Proper (⟨pkt.flags, dir, ack⟩ :: ps) → 1 ≤ T.keepalivePeriod.toNat →
    Segments.Older ⟨pkt.flags, dir, ack⟩ ps → (T'.ent q).expire = (T.ent q).expire := by
  intro hall
  have hacks : (10 : BitVec 32) ∈ openSession.acks .forward := by decide +kernel
  have heq := hall 0 openTable _ openSession _ _ _ _ openSession_history resetTable_lookup
    resetTable_proper (by decide +kernel) ⟨3, rfl, 10, hacks, by decide⟩
  revert heq
  decide +kernel

end Ipfw
