import Dummynet.Ipfw.Bidirectional

/-!
# What the installation of state promises

A call of `ipfw_install_state` may drop expired entries, make a parent and an entry, and fail at any
of them. The entry that it makes lasts if there was memory for it, and if neither its first lifetime
nor the one that the last lookup gives it has passed at once.

## Main definitions

* `DynTable.Counted`: `dyn_count` is the number of the linked entries.
* `DynTuning`: the variables that no entry changes, with the lifetime that a packet gives.
* `DynTable.Installed`: what a call is for.
* `DynTable.Installs`: when a call does this.

## Main results

* `hasSession_lookup`: which sessions are left by a lookup.
* `installState_iff`: the result of `ipfw_install_state` is right exactly in these cases.
* `not_installed`: without memory the call succeeds and makes nothing.
-/

namespace Ipfw

variable {T T' : DynTable} {S : Set RulePtr} {r : RulePtr} {i : ℕ} {p q : DynPtr} {now : BitVec 32}
  {id pkt junk : FlowId} {dynType op : Opcode} {owner : DynOwner} {M : DynMem}
  {cmd tablearg : BitVec 32} {ack : Option (BitVec 32)} {dir : Dir} {D : Set DynPtr}
  {malloc : BitVec 32 → Bool} {zalloc : Bool}

/-! ### The number of entries -/

/-- The entries are linked in their buckets, and `dyn_count` is their number. -/
structure DynTable.Counted (T : DynTable) : Prop extends T.Tidy where
  count : T.count.toNat = T.entries.length

theorem DynTable.Inv.counted (h : T.Inv S) : T.Counted := ⟨h.tidy, h.count⟩

theorem Alike.counted (h : Alike T T') (hT : T.Counted) : T'.Counted := by
  refine ⟨h.tidy hT.toTidy, ?_⟩
  rw [h.count, h.entries.length_eq]
  exact hT.count

theorem DynTable.Counted.unlink (h : T.Counted) (hq : q ∈ T.list i) :
    (T.unlink i q).Counted ∧ (T.unlink i q).count.toNat ≤ T.count.toNat := by
  obtain ⟨-, -, -, -, hcount⟩ := unlink_frame (T := T) (i := i) (q := q)
  have hmem := h.mem hq
  have hpos : 0 < T.entries.length := List.length_pos_of_mem hmem
  have h1 : (1 : BitVec 32).toNat = 1 := rfl
  have hc := h.count
  have hnew : (T.unlink i q).count.toNat = T.entries.length - 1 := by
    rw [hcount, BitVec.toNat_sub_of_le (BitVec.le_def.2 (by omega)), hc, h1]
  refine ⟨⟨h.toTidy.unlink, ?_⟩, by omega⟩
  rw [hnew, (h.toTidy.unlink_entries hq).length_eq, List.length_erase_of_mem hmem]

theorem Unlinks.counted (h : Unlinks D T T') (hT : T.Counted) :
    T'.Counted ∧ T'.count.toNat ≤ T.count.toNat := by
  induction h with
  | refl => exact ⟨hT, le_rfl⟩
  | step hq _ _ _ ih =>
    obtain ⟨hun, hle⟩ := hT.unlink hq
    obtain ⟨hT', hle'⟩ := ih hun
    exact ⟨hT', hle'.trans hle⟩

/-! ### The variables -/

/-- The limit of `dyn_count`, and the lifetimes. -/
structure DynTuning where
  max : BitVec 32
  ackLifetime : BitVec 32
  synLifetime : BitVec 32
  finLifetime : BitVec 32
  rstLifetime : BitVec 32
  udpLifetime : BitVec 32
  shortLifetime : BitVec 32
  keepalivePeriod : BitVec 32

def DynTable.tuning (T : DynTable) : DynTuning :=
  ⟨T.max, T.ackLifetime, T.synLifetime, T.finLifetime, T.rstLifetime, T.udpLifetime,
    T.shortLifetime, T.keepalivePeriod⟩

/-- The state of an entry after the flags of a TCP packet. -/
def tcpFlags (state : BitVec 32) (dir : Dir) (pkt : FlowId) : BitVec 32 :=
  let flags : BitVec 32 := (pkt.flags &&& 7#8).setWidth 32
  state ||| (if dir = .forward then flags else flags <<< 8)

namespace DynTuning

variable (t : DynTuning)

/-- A lifetime that is shorter than the keepalive period. -/
def clamp (life : BitVec 32) : BitVec 32 :=
  if t.keepalivePeriod ≤ life then t.keepalivePeriod - 1 else life

/-- The lifetime of a TCP session in the given state. -/
def tcpLifetime (state : BitVec 32) : BitVec 32 :=
  if state = thSyn then t.synLifetime
  else if state = bothSyn ∨ state = bothSyn ||| thFin ∨ state = bothSyn ||| thFin <<< 8 then
    t.ackLifetime
  else if state = bothSyn ||| bothFin then t.clamp t.finLifetime
  else t.clamp t.rstLifetime

/-- The lifetime that a packet without a TCP header gives to an entry in the given state. -/
def lifetime (pkt : FlowId) (dir : Dir) (state : BitVec 32) : BitVec 32 :=
  if pkt.proto = ipprotoTcp then t.tcpLifetime (tcpFlags state dir pkt)
  else if pkt.proto = ipprotoUdp then t.udpLifetime
  else t.shortLifetime

/-- An entry that is made for the packet does not expire at once. -/
def Lasts (pkt : FlowId) : Prop :=
  0 < t.synLifetime.toInt ∧ 0 < (t.lifetime pkt .forward 0).toInt

instance (pkt : FlowId) : Decidable (t.Lasts pkt) := inferInstanceAs (Decidable (_ ∧ _))

end DynTuning

theorem timeLeq_add (life : BitVec 32) : timeLeq (now + life) now = false ↔ 0 < life.toInt := by
  unfold timeLeq
  rw [show now + life - now = life by rw [BitVec.add_comm, BitVec.add_sub_cancel]]
  simp

theorem unlink_tuning : (T.unlink i q).tuning = T.tuning := by
  unfold DynTable.unlink
  dsimp only
  split_ifs <;> rfl

theorem Unlinks.tuning (h : Unlinks D T T') : T'.tuning = T.tuning := by
  induction h with
  | refl => rfl
  | step _ _ _ _ ih => exact ih.trans unlink_tuning

theorem link_tuning : (T.link id dynType owner now).tuning = T.tuning := by
  cases owner <;> rfl

theorem reallocDynamicTable_tuning : (reallocDynamicTable malloc T).tuning = T.tuning := by
  unfold reallocDynamicTable
  dsimp only
  split_ifs <;> rfl

/-- The lifetimes and states of the entries do not change while others are unlinked. -/
theorem Unlinks.ent (h : Unlinks D T T') (r : DynPtr) :
    (T'.ent r).expire = (T.ent r).expire ∧ (T'.ent r).state = (T.ent r).state := by
  induction h with
  | refl => exact ⟨rfl, rfl⟩
  | step _ _ _ _ ih =>
    rw [unlink_ent] at ih
    exact ih

/-! ### The removal of expired entries -/

section removal

variable {rule : Option RulePtr} {keep : Option DynPtr} {force : Bool}

theorem removeDynRule_counted (h : T.Counted) : (removeDynRule rule keep force now T).Counted ∧
    (removeDynRule rule keep force now T).count.toNat ≤ T.count.toNat := by
  obtain ⟨T₁, halike, hun⟩ := @removeDynRule_spec _ now rule keep force h.toTidy
  have hun := hun.counted (halike.counted h)
  rwa [halike.count] at hun

theorem removeDynRule_tuning (h : T.Tidy) :
    (removeDynRule rule keep force now T).tuning = T.tuning := by
  unfold removeDynRule
  split_ifs
  · rfl
  · rfl
  have halike : Alike T { T with lastRemove := now } :=
    ⟨rfl, rfl, rfl, fun h => h, rfl, fun _ => .refl _, fun _ => .refl _⟩
  have hfirst := @removePass_unlinks _ now rule keep force false (halike.tidy h) T.curr.toNat
  dsimp only
  split_ifs
  · exact (removePass_unlinks (hfirst.tidy (halike.tidy h)) _).tuning.trans hfirst.tuning
  · exact hfirst.tuning

end removal

/-! ### The lookup -/

/-- A session of the packet's flow, in either direction, has not expired. -/
def DynTable.HasSession (T : DynTable) (pkt : FlowId) (now : BitVec 32) : Prop :=
  ∃ q, T.Session now q ∧ (pkt.dirOf (T.ent q).id).isSome

theorem DynTable.Fresh.not_hasSession (h : T.Fresh pkt) : ¬ T.HasSession pkt now := by
  rintro ⟨q, hq, hdir⟩
  rw [h q hq.1 hq.2.1] at hdir
  cases hdir

theorem modify_ent_ne {g : DynRule → DynRule} (hne : r ≠ q) : (T.modify q g).ent r = T.ent r :=
  Function.update_of_ne hne ..

theorem modify_ent_self {g : DynRule → DynRule} : (T.modify q g).ent q = g (T.ent q) :=
  Function.update_self ..

/-- A packet sets the lifetime of the entry that has been found, and no other. -/
theorem dynHit_ent (T : DynTable) (q : DynPtr) :
    (∀ r, r ≠ q → (dynHit pkt dir none now T q).ent r = T.ent r) ∧
      ((dynHit pkt dir none now T q).ent q).expire =
        now + T.tuning.lifetime pkt dir (T.ent q).state := by
  unfold dynHit DynTuning.lifetime
  split_ifs with htcp hudp
  · unfold tcpState DynTuning.tcpLifetime tcpFlags
    dsimp only
    generalize (T.ent q).state ||| _ = state
    generalize hT₁ : T.modify q _ = T₁
    have hne : ∀ r, r ≠ q → T₁.ent r = T.ent r := fun r hr => by
      rw [← hT₁]
      exact modify_ent_ne hr
    have hT : T.tuning = T₁.tuning := by
      rw [← hT₁]
      rfl
    rw [hT]
    by_cases hsyn : state = thSyn
    · rw [if_pos hsyn, if_pos hsyn]
      exact ⟨fun r hr => (modify_ent_ne hr).trans (hne r hr), by rw [modify_ent_self]; rfl⟩
    rw [if_neg hsyn, if_neg hsyn]
    by_cases hack : state = bothSyn ∨ state = bothSyn ||| thFin ∨ state = bothSyn ||| thFin <<< 8
    · rw [if_pos hack, if_pos hack]
      exact ⟨fun r hr => (modify_ent_ne hr).trans (hne r hr), by rw [modify_ent_self]; rfl⟩
    rw [if_neg hack, if_neg hack]
    by_cases hfin : state = bothSyn ||| bothFin
    · rw [if_pos hfin, if_pos hfin]
      exact ⟨fun r hr => (modify_ent_ne hr).trans (hne r hr), by rw [modify_ent_self]; rfl⟩
    · rw [if_neg hfin, if_neg hfin]
      exact ⟨fun r hr => (modify_ent_ne hr).trans (hne r hr), by rw [modify_ent_self]; rfl⟩
  · exact ⟨fun r hr => modify_ent_ne hr, by rw [modify_ent_self]; rfl⟩
  · exact ⟨fun r hr => modify_ent_ne hr, by rw [modify_ent_self]; rfl⟩

/-- A session of the packet's flow is left by the lookup: if it is the one that is found, the
lifetime that it gets does not pass at once. -/
def DynTable.Renewed (T : DynTable) (pkt : FlowId) (now : BitVec 32) : Prop :=
  ∃ p, T.Session now p ∧ (pkt.dirOf (T.ent p).id).isSome ∧
    ∀ dir, (lookupDynRuleLocked pkt none now T).1 = some (p, dir) →
      0 < (T.tuning.lifetime pkt dir (T.ent p).state).toInt

/-- **The sessions after a lookup.** -/
theorem hasSession_lookup (h : T.Tidy) :
    (lookupDynRuleLocked pkt none now T).2.HasSession pkt now ↔ T.Renewed pkt now := by
  obtain ⟨T₁, hun, hcases⟩ := @lookupDynRuleLocked_cases _ now pkt none h
  have hshrinks := @lookupDynRuleLocked_shrinks _ now pkt none h
  -- Entries that have not expired stay linked.
  have hkept : ∀ q, T.Session now q → q ∈ (lookupDynRuleLocked pkt none now T).2.entries := by
    intro q hq
    obtain ⟨T₂, hun₂, halike⟩ := @lookupDynRuleLocked_spec _ now pkt none h
    refine halike.entries.mem_iff.2 (hun₂.entries (fun hexp => ?_) hq.1)
    rw [Set.mem_ofPred_eq, hq.2.2] at hexp
    cases hexp
  have hexp : ∀ q, (∀ dir, (lookupDynRuleLocked pkt none now T).1 ≠ some (q, dir)) →
      ((lookupDynRuleLocked pkt none now T).2.ent q).expire = (T.ent q).expire := by
    intro q hq
    rcases hcases with heq | ⟨p, dir, -, heq⟩
    · rw [heq]
      exact (hun.ent q).1
    · rw [heq] at hq ⊢
      have hne : q ≠ p := by
        rintro rfl
        exact hq dir rfl
      dsimp only
      rw [(dynHit_ent _ p).1 q hne]
      exact (hun.ent q).1
  have hnew : ∀ q dir, (lookupDynRuleLocked pkt none now T).1 = some (q, dir) →
      (timeLeq ((lookupDynRuleLocked pkt none now T).2.ent q).expire now = false ↔
        0 < (T.tuning.lifetime pkt dir (T.ent q).state).toInt) := by
    intro q dir hq
    rcases hcases with heq | ⟨p, dir', -, heq⟩
    · rw [heq] at hq
      cases hq
    · rw [heq] at hq ⊢
      obtain ⟨rfl, rfl⟩ := Prod.mk.inj (Option.some.inj hq)
      dsimp only
      rw [(dynHit_ent _ p).2, timeLeq_add, ← hun.tuning, ← (hun.ent p).2]
      rfl
  have hfound : ∀ q dir, (lookupDynRuleLocked pkt none now T).1 = some (q, dir) →
      timeLeq (T.ent q).expire now = false := by
    intro q dir hq
    rw [lookupDynRuleLocked_eq h] at hq
    obtain ⟨q', -, hq'⟩ := List.exists_of_findSome?_eq_some hq
    rw [Option.map_eq_some_iff] at hq'
    obtain ⟨dir', hhit, heq⟩ := hq'
    obtain ⟨rfl, rfl⟩ := Prod.mk.inj heq
    exact (hit_eq_some_iff.1 hhit).1
  constructor
  · rintro ⟨q, ⟨hq, htype, hlive⟩, hdir⟩
    rw [hshrinks.dynType] at htype
    rw [hshrinks.id] at hdir
    refine ⟨q, ⟨hshrinks.entries hq, htype, ?_⟩, hdir, fun dir hd => (hnew q dir hd).1 hlive⟩
    by_cases hd : ∃ dir, (lookupDynRuleLocked pkt none now T).1 = some (q, dir)
    · obtain ⟨dir, hd⟩ := hd
      exact hfound q dir hd
    · rw [← hexp q fun dir hd' => hd ⟨dir, hd'⟩]
      exact hlive
  · rintro ⟨q, hq, hdir, hlife⟩
    refine ⟨q, ⟨hkept q hq, ?_, ?_⟩, ?_⟩
    · rw [hshrinks.dynType]
      exact hq.2.1
    · by_cases hd : ∃ dir, (lookupDynRuleLocked pkt none now T).1 = some (q, dir)
      · obtain ⟨dir, hd⟩ := hd
        exact (hnew q dir hd).2 (hlife dir hd)
      · rw [hexp q fun dir hd' => hd ⟨dir, hd'⟩]
        exact hq.2.2
    · rw [hshrinks.id]
      exact hdir

/-- A lookup does not add entries. -/
theorem lookupDynRuleLocked_counted (h : T.Counted) :
    (lookupDynRuleLocked pkt ack now T).2.Counted ∧
      (lookupDynRuleLocked pkt ack now T).2.count.toNat ≤ T.count.toNat := by
  obtain ⟨T₁, hun, halike⟩ := @lookupDynRuleLocked_spec _ now pkt ack h.toTidy
  obtain ⟨hT₁, hle⟩ := hun.counted h
  exact ⟨halike.counted hT₁, by rwa [halike.count]⟩

theorem lookupDynRuleLocked_tuning (h : T.Tidy)
    (hnone : (lookupDynRuleLocked pkt ack now T).1 = none) :
    (lookupDynRuleLocked pkt ack now T).2.tuning = T.tuning := by
  obtain ⟨T₁, hun, heq | ⟨q, dir, -, heq⟩⟩ := @lookupDynRuleLocked_cases _ now pkt ack h
  · rw [heq]
    exact hun.tuning
  · rw [heq] at hnone
    cases hnone

/-! ### A new entry -/

/-- There is memory for a new entry, and for the table if it has to be allocated. -/
def DynTable.CanAdd (malloc : BitVec 32 → Bool) (zalloc : Bool) (T : DynTable) : Prop :=
  zalloc = true ∧ ((T.alloc = false ∨ T.count = 0 ∧ T.buckets ≠ T.curr) →
    (reallocDynamicTable malloc T).alloc = true)

instance (malloc : BitVec 32 → Bool) (zalloc : Bool) (T : DynTable) :
    Decidable (T.CanAdd malloc zalloc) := inferInstanceAs (Decidable (_ ∧ (_ → _)))

/-- `add_dyn_rule` links a new entry if there is memory. -/
theorem addDynRule_iff (h : T.Counted) : ∃ T₀ : DynTable, T₀.Counted ∧ T₀.tuning = T.tuning ∧
    T₀.count = T.count ∧ (∀ pkt, T.Fresh pkt → T₀.Fresh pkt) ∧
    (¬ T.CanAdd malloc zalloc ∧ addDynRule malloc zalloc id dynType owner now T = (none, T₀) ∨
      T.CanAdd malloc zalloc ∧ T₀.alloc = true ∧ addDynRule malloc zalloc id dynType owner now T =
        (some T₀.brk, T₀.link id dynType owner now)) := by
  unfold addDynRule
  dsimp only
  generalize hT₀ : (if T.alloc = false ∨ T.count = 0 ∧ T.buckets ≠ T.curr then
    reallocDynamicTable malloc T else T) = T₀
  have hcases : T₀.Counted ∧ T₀.tuning = T.tuning ∧ T₀.count = T.count ∧
      ∀ pkt, T.Fresh pkt → T₀.Fresh pkt := by
    rw [← hT₀]
    split_ifs with hre
    · have hempty : T.count.toNat = 0 := by
        rcases hre with halloc | ⟨hcount, -⟩
        · rw [h.count, List.length_eq_zero_iff]
          exact Buckets.all_nil (h.alloc halloc)
        · rw [hcount]
          rfl
      obtain ⟨htidy, hcount, hsame⟩ := @reallocDynamicTable_tidy _ malloc h.toTidy
      have hnil : (reallocDynamicTable malloc T).entries = [] := by
        rcases hsame with halike | hnil
        · rw [h.count, List.length_eq_zero_iff] at hempty
          exact List.Perm.eq_nil (hempty ▸ halike.entries)
        · exact hnil
      refine ⟨⟨htidy, ?_⟩, reallocDynamicTable_tuning, hcount, fun pkt _ => .of_nil hnil⟩
      rw [hcount, hempty, hnil]
      rfl
    · exact ⟨h, rfl, rfl, fun _ hf => hf⟩
  refine ⟨T₀, hcases.1, hcases.2.1, hcases.2.2.1, hcases.2.2.2, ?_⟩
  have hcan : T.CanAdd malloc zalloc ↔ T₀.alloc = true ∧ zalloc = true := by
    unfold DynTable.CanAdd
    rw [← hT₀]
    split_ifs with hre
    · exact ⟨fun hc => ⟨hc.2 hre, hc.1⟩, fun hc => ⟨hc.2, fun _ => hc.1⟩⟩
    · have halloc : T.alloc = true := by
        rw [← Bool.not_eq_false]
        exact fun hf => hre (.inl hf)
      exact ⟨fun hc => ⟨halloc, hc.1⟩, fun hc => ⟨hc.2, fun hre' => absurd hre' hre⟩⟩
  split_ifs with halloc hmem
  · exact .inl ⟨fun hc => by simp [(hcan.1 hc).1] at halloc, rfl⟩
  · exact .inl ⟨fun hc => by simp [(hcan.1 hc).2] at hmem, rfl⟩
  · exact .inr ⟨hcan.2 ⟨by simpa using halloc, by simpa using hmem⟩, by simpa using halloc, rfl⟩

/-- A table with an entry need not be allocated. -/
theorem canAdd_of_mem (h : T.Counted) (hq : q ∈ T.entries) :
    T.CanAdd malloc zalloc ↔ zalloc = true := by
  refine ⟨And.left, fun hz => ⟨hz, fun hre => ?_⟩⟩
  rcases hre with halloc | ⟨hcount, -⟩
  · rw [DynTable.entries, Buckets.all_nil (h.alloc halloc)] at hq
    exact absurd hq List.not_mem_nil
  · have hc := h.count
    rw [hcount] at hc
    exact absurd hc (List.length_pos_of_mem hq).ne

theorem FlowId.sameFlow_refl (id : FlowId) : id.SameFlow id := ⟨rfl, rfl⟩

theorem FlowId.matches_self (id : FlowId) : id.matches id = some .forward := by
  unfold FlowId.matches
  by_cases hip6 : id.isIp6
  · rw [if_pos hip6, if_pos ⟨rfl, rfl, rfl, rfl⟩]
  · rw [if_neg hip6, if_pos ⟨rfl, rfl, rfl, rfl⟩]

/-- The lookup finds the first entry of the bucket and unlinks nothing. -/
theorem lookup_front {qs : List DynPtr} (halloc : T.alloc = true)
    (hlist : T.list (hashPacket T.curr pkt) = q :: qs) (hhit : (T.ent q).hit pkt now = some dir) :
    lookupDynRuleLocked pkt ack now T =
      (some (q, dir), dynHit pkt dir ack now (T.toFront (hashPacket T.curr pkt) q) q) := by
  obtain ⟨hexp, hproto, htype, hm⟩ := hit_eq_some_iff.1 hhit
  have hloop : lookupLoop pkt now (hashPacket T.curr pkt) T (q :: qs) = (some (q, dir), T) := by
    unfold lookupLoop
    dsimp only
    rw [if_neg fun h => htype h.1, if_neg (by rw [hexp]; decide), if_pos ⟨hproto, htype⟩, hm]
  unfold lookupDynRuleLocked
  rw [if_neg (by rw [halloc]; decide)]
  dsimp only
  rw [hlist, hloop]
  dsimp only
  rw [DynTable.toFront, hlist]

/-- The entry that has been made for the packet is the one that the last lookup finds. -/
theorem lookup_link (halloc : T.alloc = true) (htype : dynType ≠ .limitParent)
    (hsyn : 0 < T.synLifetime.toInt) :
    lookupDynRuleLocked pkt ack now (T.link pkt dynType owner now) = (some (T.brk, .forward),
      dynHit pkt .forward ack now
        ((T.link pkt dynType owner now).toFront (hashPacket T.curr pkt) T.brk) T.brk) := by
  obtain ⟨hcurr, halloc', -⟩ := @link_frame T now pkt dynType owner
  have hlist : (T.link pkt dynType owner now).list
      (hashPacket (T.link pkt dynType owner now).curr pkt) =
        T.brk :: T.list (hashPacket T.curr pkt) := by
    rw [hcurr, link_list, Function.update_self]
  rw [← hcurr]
  refine lookup_front (halloc'.trans halloc) hlist ?_
  rw [link_ent_brk, hit_eq_some_iff]
  exact ⟨(timeLeq_add _).2 hsyn, rfl, htype, pkt.matches_self⟩

section added

variable (h : T.Counted) (hf : T.Fresh pkt) (halloc : T.alloc = true)
  (htype : dynType ≠ .limitParent)
include h hf halloc htype

/-- A new entry is left by the last lookup if it lasts. -/
theorem renewed_link : (T.link pkt dynType owner now).Renewed pkt now ↔ T.tuning.Lasts pkt := by
  have htuning := @link_tuning T now pkt dynType owner
  constructor
  · rintro ⟨p, hp, hdir, hlife⟩
    rcases List.mem_cons.1 (h.toTidy.link_entries.mem_iff.1 hp.1) with rfl | hold
    · have hexp := hp.2.2
      rw [link_ent_brk] at hexp
      have hsyn : 0 < T.synLifetime.toInt := (timeLeq_add _).1 hexp
      have hlife := hlife .forward (by rw [lookup_link halloc htype hsyn])
      rw [htuning, link_ent_brk] at hlife
      exact ⟨hsyn, hlife⟩
    · -- The other entries are not of the packet's flow.
      have hid := @link_id T now pkt dynType owner p (h.lt p hold).ne
      rw [hid.1, hf p hold (by rw [← hid.2]; exact hp.2.1)] at hdir
      cases hdir
  · rintro ⟨hsyn, hlife⟩
    have hmem : T.brk ∈ (T.link pkt dynType owner now).entries :=
      h.toTidy.link_entries.mem_iff.2 List.mem_cons_self
    refine ⟨T.brk, ⟨hmem, ?_, ?_⟩, ?_, fun dir hd => ?_⟩
    · rw [link_ent_brk]
      exact htype
    · rw [link_ent_brk]
      exact (timeLeq_add _).2 hsyn
    · rw [link_ent_brk]
      exact FlowId.dirOf_isSome_iff.2 (.inl pkt.sameFlow_refl)
    · rw [lookup_link halloc htype hsyn] at hd
      obtain ⟨-, rfl⟩ := Prod.mk.inj (Option.some.inj hd)
      rw [htuning, link_ent_brk]
      exact hlife

omit h hf in
theorem count_link (hlasts : T.tuning.Lasts pkt) :
    (lookupDynRuleLocked pkt ack now (T.link pkt dynType owner now)).2.count = T.count + 1 := by
  rw [lookup_link halloc htype hlasts.1]
  dsimp only
  rw [(dynHit_alike _ _).count]
  exact (@link_frame T now pkt dynType owner).2.2.2.2

end added

/-- A new entry for a flow without sessions: it is there after the last lookup if there was memory
and if it lasts. -/
theorem hasSession_add (h : T.Counted) (hf : T.Fresh pkt) (htype : dynType ≠ .limitParent) (n : ℕ) :
    ((lookupDynRuleLocked pkt none now
        (addDynRule malloc zalloc pkt dynType owner now T).2).2.HasSession pkt now ∧
      (lookupDynRuleLocked pkt none now
        (addDynRule malloc zalloc pkt dynType owner now T).2).2.count.toNat ≤ n) ↔
      T.CanAdd malloc zalloc ∧ T.tuning.Lasts pkt ∧ (T.count + 1).toNat ≤ n := by
  obtain ⟨T₀, hT₀, htuning, hcount, hfresh, ⟨hcan, hadd⟩ | ⟨hcan, halloc, hadd⟩⟩ :=
    @addDynRule_iff T now pkt dynType owner malloc zalloc h
  · have hnone := (hfresh pkt hf).shrinks
      (@lookupDynRuleLocked_shrinks _ now pkt none hT₀.toTidy)
    rw [hadd]
    exact ⟨fun hs => absurd hs.1 hnone.not_hasSession, fun hc => absurd hc.1 hcan⟩
  · have hlink : (T₀.link pkt dynType owner now).Tidy := hT₀.toTidy.link halloc
    rw [hadd, hasSession_lookup hlink, renewed_link hT₀ (hfresh pkt hf) halloc htype, htuning,
      ← hcount]
    constructor
    · rintro ⟨hlasts, hn⟩
      rw [count_link halloc htype (htuning ▸ hlasts)] at hn
      exact ⟨hcan, hlasts, hn⟩
    · rintro ⟨-, hlasts, hn⟩
      rw [count_link halloc htype (htuning ▸ hlasts)]
      exact ⟨hlasts, hn⟩

/-! ### The installation -/

/-- What `dyn_count` must not exceed: its limit, or the number of entries before. -/
def countBound (T : DynTable) : ℕ := max T.count.toNat T.max.toNat

/-- What a call of `ipfw_install_state` is for. It succeeds if and only if the table then holds a
session of the packet's flow that has not expired, and `dyn_count` stays within its limit. -/
structure DynTable.Installed (T T' : DynTable) (failed : Bool) (pkt : FlowId) (now : BitVec 32) :
    Prop where
  held : failed = false ↔ T'.HasSession pkt now
  count : T'.count.toNat ≤ countBound T

/-- The table in which the entries of a call are made: expired entries are gone if there was no
room. -/
def DynTable.roomFor (T : DynTable) (pkt : FlowId) (now : BitVec 32) : DynTable :=
  let T := (lookupDynRuleLocked pkt none now T).2
  if T.max ≤ T.count then removeDynRule none none false now T else T

/-- The parent that `lookup_dyn_parent` finds. -/
def DynTable.findParent (T : DynTable) (pkt : FlowId) (rule : RulePtr) : Option DynPtr :=
  if T.alloc then (T.list (hashPacket T.curr pkt)).find? fun q => isParent pkt rule (T.ent q)
  else none

/-- The lifetime of a parent that has been found. -/
def DynTable.keepParent (T : DynTable) (now : BitVec 32) (p : DynPtr) : DynTable :=
  T.modify p fun e => { e with expire := now + T.shortLifetime }

/-- The parent has as many sessions as the limit, also when the expired ones have gone. -/
def DynTable.LimitReached (T : DynTable) (rule : RulePtr) (limit now : BitVec 32) (p : DynPtr) :
    Prop :=
  limit ≤ (T.ent p).count.setWidth 32 ∧
    limit ≤ ((removeDynRule (some rule) (some p) false now
      (T.keepParent now p)).ent p).count.setWidth 32

/-- When a call does what it is for. With a session of the flow, its new lifetime must not pass at
once. Otherwise there is no room, or there is memory for an entry that lasts; and for a limit
without a parent there is room for two entries. -/
def DynTable.Installs (M : DynMem) (r : RulePtr) (op : Opcode) (cmd tablearg : BitVec 32)
    (pkt junk : FlowId) (now : BitVec 32) (T : DynTable) : Prop :=
  if (lookupDynRuleLocked pkt none now T).1.isSome then T.Renewed pkt now
  else
    let R := T.roomFor pkt now
    R.max ≤ R.count ∨
      if op = .keepState then R.CanAdd M.malloc M.zalloc ∧ T.tuning.Lasts pkt
      else if op = .limit then
        match R.findParent (maskedFlow (cmd.extractLsb' 8 8) pkt junk) r with
        | some p => R.LimitReached r (connLimit cmd tablearg) now p ∨
            M.zalloc = true ∧ T.tuning.Lasts pkt
        | none => R.CanAdd M.malloc M.zallocParent → connLimit cmd tablearg = 0 ∨
            M.zalloc = true ∧ T.tuning.Lasts pkt ∧
              (R.count + 2).toNat ≤ countBound T
      else True

/-- The table after a call whose entries have been made, or not. -/
def finishInstall (pkt : FlowId) (now : BitVec 32) (r : Bool × DynTable) : Bool × DynTable :=
  if r.1 then r else (false, (lookupDynRuleLocked pkt none now r.2).2)

/-- A call may fail whenever the flow has no session. -/
theorem installed_of_fresh (hf : T'.Fresh pkt)
    (hcount : T'.count.toNat ≤ countBound T) : T.Installed T' true pkt now :=
  ⟨⟨fun h => Bool.noConfusion h, fun h => absurd h hf.not_hasSession⟩, hcount⟩

theorem installed_false_iff : T.Installed T' false pkt now ↔
    T'.HasSession pkt now ∧ T'.count.toNat ≤ countBound T :=
  ⟨fun h => ⟨h.held.1 rfl, h.count⟩, fun h => ⟨⟨fun _ => h.1, fun _ => rfl⟩, h.2⟩⟩

/-- A session of a parent that is there: the limit is reached, or the new session lasts. -/
theorem installed_parent {R R' : DynTable} {limit : BitVec 32} (h : R.Counted) (hf : R.Fresh pkt)
    (hp : p ∈ R.entries) (hcount : R.count.toNat ≤ countBound T)
    (hR' : R' = if limit ≤ (R.ent p).count.setWidth 32 then
      removeDynRule (some r) (some p) false now R else R) {x : Bool × DynTable}
    (hx : x = finishInstall pkt now (if limit ≤ (R'.ent p).count.setWidth 32 then (true, R')
      else (false, (addDynRule M.malloc M.zalloc pkt .limit (.parent p) now R').2))) :
    T.Installed x.2 x.1 pkt now ↔ limit ≤ (R'.ent p).count.setWidth 32 ∨
      M.zalloc = true ∧ R.tuning.Lasts pkt ∧ (R'.count + 1).toNat ≤ countBound T := by
  -- The parent stays where it is while expired entries go.
  have hkeep : R'.Counted ∧ R'.tuning = R.tuning ∧ R'.Fresh pkt ∧ p ∈ R'.entries ∧
      R'.count.toNat ≤ R.count.toNat := by
    rw [hR']
    split_ifs
    · obtain ⟨T₁, halike, hun⟩ := @removeDynRule_spec _ now (some r) (some p) false h.toTidy
      obtain ⟨hcounted, hle⟩ := @removeDynRule_counted _ now (some r) (some p) false h
      exact ⟨hcounted, removeDynRule_tuning h.toTidy, hf.shrinks (removeDynRule_shrinks h.toTidy),
        hun.entries (fun hne => hne rfl) (halike.entries.mem_iff.2 hp), hle⟩
    · exact ⟨h, rfl, hf, hp, le_rfl⟩
  obtain ⟨hcounted, htuning, hfresh, hp', hle⟩ := hkeep
  by_cases hfull : limit ≤ (R'.ent p).count.setWidth 32
  · rw [if_pos hfull] at hx
    rw [hx]
    exact iff_of_true (installed_of_fresh hfresh (hle.trans hcount)) (.inl hfull)
  · rw [if_neg hfull] at hx
    rw [hx]
    unfold finishInstall
    rw [if_neg Bool.false_ne_true, installed_false_iff, hasSession_add hcounted hfresh (by decide),
      canAdd_of_mem hcounted hp', htuning]
    exact (or_iff_right hfull).symm

/-- A new entry is counted. -/
theorem DynTable.Counted.link (h : T.Counted) (halloc : T.alloc = true)
    (hroom : T.count.toNat + 1 < 2 ^ 32) : (T.link id dynType owner now).Counted := by
  refine ⟨h.toTidy.link halloc, ?_⟩
  have h1 : (1 : BitVec 32).toNat = 1 := rfl
  rw [(@link_frame T now id dynType owner).2.2.2.2, h.toTidy.link_entries.length_eq,
    List.length_cons, BitVec.toNat_add, h1, h.count, Nat.mod_eq_of_lt (by rwa [← h.count])]

theorem keepParent_alike (T : DynTable) (now : BitVec 32) (p : DynPtr) :
    Alike T (T.keepParent now p) := by
  refine .modify (fun e => ?_) T p
  exact ⟨rfl, rfl, rfl, rfl, rfl⟩

section limit

variable {R : DynTable} (h : R.Counted) (hf : R.Fresh pkt) (hroom : R.count.toNat < R.max.toNat)
  (hbound : R.max.toNat ≤ countBound T)
include h hf hroom hbound

theorem installLimit_found
    (hfind : R.findParent (maskedFlow (cmd.extractLsb' 8 8) pkt junk) r = some p)
    {x : Bool × DynTable}
    (hx : x = finishInstall pkt now (installLimit M r cmd tablearg pkt junk now R)) :
    T.Installed x.2 x.1 pkt now ↔ R.LimitReached r (connLimit cmd tablearg) now p ∨
      M.zalloc = true ∧ R.tuning.Lasts pkt := by
  have hp : p ∈ R.entries := by
    unfold DynTable.findParent at hfind
    split_ifs at hfind
    exact h.mem (List.mem_of_find?_eq_some hfind)
  have halike := keepParent_alike R now p
  have hlookup : lookupDynParent M (maskedFlow (cmd.extractLsb' 8 8) pkt junk) r now R =
      (some p, R.keepParent now p) := by
    unfold DynTable.findParent at hfind
    unfold lookupDynParent
    rw [hfind]
    rfl
  unfold installLimit at hx
  rw [hlookup] at hx
  dsimp only at hx
  generalize hR' : (if connLimit cmd tablearg ≤ ((R.keepParent now p).ent p).count.setWidth 32 then
    removeDynRule (some r) (some p) false now (R.keepParent now p)
    else R.keepParent now p) = R' at hx
  have hiff := installed_parent (T := T) (halike.counted h) (hf.shrinks halike.shrinks)
    (halike.entries.mem_iff.2 hp) (hroom.le.trans hbound) hR'.symm hx
  have hle : R'.count.toNat ≤ R.count.toNat := by
    rw [← hR']
    split_ifs
    · exact (removeDynRule_counted (halike.counted h)).2
    · exact le_rfl
  -- There is room for one more entry.
  have hcount : (R'.count + 1).toNat ≤ countBound T := by
    have h1 : (1 : BitVec 32).toNat = 1 := rfl
    have hlt := R.max.isLt
    rw [BitVec.toNat_add, h1, Nat.mod_eq_of_lt (by omega)]
    omega
  have hreached : connLimit cmd tablearg ≤ (R'.ent p).count.setWidth 32 ↔
      R.LimitReached r (connLimit cmd tablearg) now p := by
    unfold DynTable.LimitReached
    rw [← hR', (halike.ent p).count]
    split_ifs with hfull
    · exact (and_iff_right hfull).symm
    · rw [(halike.ent p).count]
      exact iff_of_false hfull fun hr => hfull hr.1
  rw [hiff, hreached]
  exact or_congr_right ⟨fun hc => ⟨hc.1, hc.2.1⟩, fun hc => ⟨hc.1, hc.2, hcount⟩⟩

theorem installLimit_none
    (hfind : R.findParent (maskedFlow (cmd.extractLsb' 8 8) pkt junk) r = none)
    {x : Bool × DynTable}
    (hx : x = finishInstall pkt now (installLimit M r cmd tablearg pkt junk now R)) :
    T.Installed x.2 x.1 pkt now ↔ (R.CanAdd M.malloc M.zallocParent → connLimit cmd tablearg = 0 ∨
      M.zalloc = true ∧ R.tuning.Lasts pkt ∧ (R.count + 2).toNat ≤ countBound T) := by
  have hlookup : lookupDynParent M (maskedFlow (cmd.extractLsb' 8 8) pkt junk) r now R =
      addDynRule M.malloc M.zallocParent (maskedFlow (cmd.extractLsb' 8 8) pkt junk) .limitParent
        (.rule r) now R := by
    unfold DynTable.findParent at hfind
    unfold lookupDynParent
    rw [hfind]
  unfold installLimit at hx
  rw [hlookup] at hx
  obtain ⟨R₀, hR₀, htuning, hcount, hfresh, ⟨hcan, hadd⟩ | ⟨hcan, halloc, hadd⟩⟩ :=
    @addDynRule_iff R now (maskedFlow (cmd.extractLsb' 8 8) pkt junk) .limitParent (.rule r)
      M.malloc M.zallocParent h
  · rw [hadd] at hx
    rw [hx]
    refine iff_of_true (installed_of_fresh (hfresh pkt hf) ?_) fun hc => absurd hc hcan
    exact (hcount ▸ hroom.le).trans hbound
  · rw [hadd] at hx
    dsimp only at hx
    have hlt := R.max.isLt
    have hR₃ : (R₀.link (maskedFlow (cmd.extractLsb' 8 8) pkt junk) .limitParent (.rule r)
        now).Counted := hR₀.link halloc (by rw [hcount]; omega)
    have hf₃ : (R₀.link (maskedFlow (cmd.extractLsb' 8 8) pkt junk) .limitParent (.rule r)
        now).Fresh pkt := (hfresh pkt hf).link hR₀.toTidy
    have hp := (@DynTable.Tidy.link_entries R₀ now (maskedFlow (cmd.extractLsb' 8 8) pkt junk)
      .limitParent (.rule r) hR₀.toTidy).mem_iff.2 List.mem_cons_self
    have htuning₃ := @link_tuning R₀ now (maskedFlow (cmd.extractLsb' 8 8) pkt junk) .limitParent
      (.rule r)
    have hcount₃ := (@link_frame R₀ now (maskedFlow (cmd.extractLsb' 8 8) pkt junk) .limitParent
      (.rule r)).2.2.2.2
    have hent := @link_ent_brk R₀ now (maskedFlow (cmd.extractLsb' 8 8) pkt junk) .limitParent
      (.rule r)
    generalize R₀.link (maskedFlow (cmd.extractLsb' 8 8) pkt junk) .limitParent (.rule r) now = R₃
      at hx hR₃ hf₃ hp htuning₃ hcount₃ hent
    have hsessions : (R₃.ent R₀.brk).count.setWidth 32 = 0 := by
      rw [hent]
      rfl
    generalize hR' : (if connLimit cmd tablearg ≤ (R₃.ent R₀.brk).count.setWidth 32 then
      removeDynRule (some r) (some R₀.brk) false now R₃ else R₃) = R' at hx
    have hle : R₃.count.toNat ≤ countBound T := by
      have h1 : (1 : BitVec 32).toNat = 1 := rfl
      rw [hcount₃, hcount, BitVec.toNat_add, h1, Nat.mod_eq_of_lt (by omega)]
      omega
    rw [installed_parent (T := T) hR₃ hf₃ hp hle hR'.symm hx, htuning₃, htuning]
    by_cases hzero : connLimit cmd tablearg = 0
    · refine iff_of_true (.inl ?_) fun _ => .inl hzero
      rw [hzero]
      exact BitVec.le_def.2 (Nat.zero_le _)
    · -- A new parent has no sessions, so that nothing is removed.
      have hnot : ¬ connLimit cmd tablearg ≤ (R₃.ent R₀.brk).count.setWidth 32 := by
        rw [hsessions]
        exact fun hle => hzero (BitVec.le_zero_iff.1 hle)
      rw [if_neg hnot] at hR'
      rw [← hR', or_iff_right hnot, hcount₃, hcount, BitVec.add_assoc]
      exact ⟨fun hc _ => .inr hc, fun hc => (hc hcan).resolve_left hzero⟩

end limit

/-- **The outcome of `ipfw_install_state`.** The call does what it is for exactly when its session
lasts, when there was no room for it, or when there was memory and room for all that it makes. -/
theorem installState_iff (h : T.Counted) :
    T.Installed (installState M r op cmd tablearg pkt junk now T).2
      (installState M r op cmd tablearg pkt junk now T).1 pkt now ↔
    T.Installs M r op cmd tablearg pkt junk now := by
  unfold DynTable.Installs
  have hsess := @hasSession_lookup T now pkt h.toTidy
  have hcounted := @lookupDynRuleLocked_counted T now pkt none h
  have htuning := @lookupDynRuleLocked_tuning T now pkt none h.toTidy
  have hfresh := @fresh_of_lookup T now pkt none h.toTidy
  cases hlook : lookupDynRuleLocked pkt none now T with
  | mk o T₁ =>
    unfold installState
    rw [hlook] at hsess hcounted htuning hfresh ⊢
    cases o with
    | some x =>
      dsimp only
      rw [installed_false_iff, if_pos Option.isSome_some, hsess]
      exact and_iff_left (hcounted.2.trans (le_max_left _ _))
    | none =>
      dsimp only at hcounted htuning hfresh ⊢
      have hT₁ := htuning rfl
      -- The table in which the entries are made.
      have hR : (T.roomFor pkt now).Counted ∧ (T.roomFor pkt now).tuning = T.tuning ∧
          (T.roomFor pkt now).Fresh pkt ∧ (T.roomFor pkt now).count.toNat ≤ T.count.toNat := by
        unfold DynTable.roomFor
        rw [hlook]
        dsimp only
        split_ifs
        · obtain ⟨hR, hle⟩ := @removeDynRule_counted T₁ now none none false hcounted.1
          exact ⟨hR, (removeDynRule_tuning hcounted.1.toTidy).trans hT₁,
            (hfresh rfl).shrinks (removeDynRule_shrinks hcounted.1.toTidy), hle.trans hcounted.2⟩
        · exact ⟨hcounted.1, hT₁, hfresh rfl, hcounted.2⟩
      obtain ⟨hR, hRtuning, hRfresh, hRle⟩ := hR
      have hentry : installEntry M r op cmd tablearg pkt junk now T₁ =
          if (T.roomFor pkt now).max ≤ (T.roomFor pkt now).count then (true, T.roomFor pkt now)
          else if op = .keepState then (false, (addDynRule M.malloc M.zalloc pkt .keepState
            (.rule r) now (T.roomFor pkt now)).2)
          else if op = .limit then installLimit M r cmd tablearg pkt junk now (T.roomFor pkt now)
          else (true, T.roomFor pkt now) := by
        unfold installEntry DynTable.roomFor
        rw [hlook]
      rw [if_neg (show ¬ (none : Option (DynPtr × Dir)).isSome = true from Bool.false_ne_true)]
      generalize T.roomFor pkt now = R at hR hRtuning hRfresh hRle hentry ⊢
      have hbound : R.max.toNat ≤ countBound T := by
        have hmax : R.max = T.max := congrArg DynTuning.max hRtuning
        rw [hmax]
        exact le_max_right _ _
      have hRbound : R.count.toNat ≤ countBound T := hRle.trans (le_max_left _ _)
      change T.Installed (finishInstall pkt now _).2 (finishInstall pkt now _).1 pkt now ↔ _
      rw [hentry]
      by_cases hmax : R.max ≤ R.count
      · rw [if_pos hmax]
        exact iff_of_true (installed_of_fresh hRfresh hRbound) (.inl hmax)
      rw [if_neg hmax, or_iff_right hmax]
      have hroom : R.count.toNat < R.max.toNat := by rwa [BitVec.not_le, BitVec.lt_def] at hmax
      rw [← hRtuning]
      by_cases hkeep : op = .keepState
      · rw [if_pos hkeep, if_pos hkeep]
        unfold finishInstall
        rw [if_neg Bool.false_ne_true, installed_false_iff, hasSession_add hR hRfresh (by decide)]
        refine ⟨fun hc => ⟨hc.1, hc.2.1⟩, fun hc => ⟨hc.1, hc.2, ?_⟩⟩
        have h1 : (1 : BitVec 32).toNat = 1 := rfl
        have hlt := R.max.isLt
        rw [BitVec.toNat_add, h1, Nat.mod_eq_of_lt (by omega)]
        omega
      rw [if_neg hkeep, if_neg hkeep]
      by_cases hlimit : op = .limit
      · rw [if_pos hlimit, if_pos hlimit]
        cases hfind : R.findParent (maskedFlow (cmd.extractLsb' 8 8) pkt junk) r with
        | some p => exact installLimit_found hR hRfresh hroom hbound hfind rfl
        | none => exact installLimit_none hR hRfresh hroom hbound hfind rfl
      · rw [if_neg hlimit, if_neg hlimit]
        exact iff_of_true (installed_of_fresh hRfresh hRbound) trivial

/-- A `keep-state` in an empty table, with memory: the outcome is right. -/
theorem installed_first : DynTable.init.Installed
    (installState ⟨fun _ => true, true, true⟩ 1 .keepState 0 0 tcp6Flow default 0 DynTable.init).2
    (installState ⟨fun _ => true, true, true⟩ 1 .keepState 0 0 tcp6Flow default 0
      DynTable.init).1 tcp6Flow 0 := by
  refine (installState_iff (DynTable.Inv.counted (S := ∅) .init)).2 ?_
  unfold DynTable.Installs
  rw [if_neg (by decide +kernel)]
  refine .inr ?_
  rw [if_pos rfl]
  decide +kernel

/-- **An entry without memory.** The call succeeds, and the flow has no session. -/
theorem not_installed : ¬ ∀ (M : DynMem) (r : RulePtr) (op : Opcode) (cmd tablearg : BitVec 32)
    (pkt junk : FlowId) (now : BitVec 32) (T : DynTable), T.Counted →
    T.Installed (installState M r op cmd tablearg pkt junk now T).2
      (installState M r op cmd tablearg pkt junk now T).1 pkt now := by
  intro h
  have hinit : DynTable.init.Counted := DynTable.Inv.counted (S := ∅) .init
  have hheld := (h ⟨fun _ => true, true, false⟩ 1 .keepState 0 0 tcp6Flow default 0 _ hinit).held
  obtain ⟨q, hq, -⟩ := hheld.1 (by decide +kernel)
  have hnil : (installState ⟨fun _ => true, true, false⟩ 1 .keepState 0 0 tcp6Flow default 0
      DynTable.init).2.entries = [] := by decide +kernel
  rw [DynTable.Session, hnil] at hq
  exact absurd hq.1 List.not_mem_nil

/-- One slot is free, and a `limit` takes two. -/
example : (installState ⟨fun _ => true, true, true⟩ 1 .limit 0x10100 0 tcp6Flow default 0
    { DynTable.init with max := 1 }).2.count = 2 := by decide +kernel

end Ipfw
