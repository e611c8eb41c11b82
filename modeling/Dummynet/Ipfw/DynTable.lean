import Dummynet.Ipfw.Dynamic
import Dummynet.Lib.Buckets

/-!
# The table of dynamic rules

The entries are linked in the buckets of their hashes, `dyn_count` is their number, and the parent of
an entry of a `limit` rule is linked and counts its entries. Entries are unlinked in the middle of the
loops over the buckets: what a loop does is a sequence of `UNLINK_DYN_RULE`.

## Main results

* `DynTable.Inv`: the invariant.
* `Unlinks`: what the loops do.
-/

namespace Ipfw

/-- The linked entries. -/
def DynTable.entries (T : DynTable) : List DynPtr := Buckets.all T.curr.toNat T.list

/-- The entry is a session of the parent `p`. -/
def DynRule.sessionOf (e : DynRule) (p : DynPtr) : Bool :=
  decide (e.dynType = .limit) && decide (e.parent = p)

/-- The number of sessions of a parent. -/
def DynTable.sessions (T : DynTable) (p : DynPtr) : ℕ :=
  T.entries.countP fun q => (T.ent q).sessionOf p

/-- The part of the invariant that does not depend on the counts: each entry is linked once, in the
bucket of its hash. -/
structure DynTable.Tidy (T : DynTable) : Prop where
  curr : T.curr ≠ 0
  buckets : T.buckets ≠ 0
  alloc : T.alloc = false → ∀ i, T.list i = []
  nodup : ∀ i, (T.list i).Nodup
  bucket : ∀ i, ∀ q ∈ T.list i, hashPacket T.curr (T.ent q).id = i
  lt : ∀ q ∈ T.entries, q < T.brk

/-- The invariant of the table. The rules of the entries are in `S`. -/
structure DynTable.Inv (S : Set RulePtr) (T : DynTable) : Prop where
  curr : T.curr ≠ 0
  buckets : T.buckets ≠ 0
  alloc : T.alloc = false → ∀ i, T.list i = []
  nodup : ∀ i, (T.list i).Nodup
  bucket : ∀ i, ∀ q ∈ T.list i, hashPacket T.curr (T.ent q).id = i
  lt : ∀ q ∈ T.entries, q < T.brk
  count : T.count.toNat = T.entries.length
  rule : ∀ q ∈ T.entries, (T.ent q).rule ∈ S
  parent : ∀ q ∈ T.entries, (T.ent q).dynType = .limit → (T.ent q).parent ∈ T.entries ∧
    (T.ent (T.ent q).parent).dynType = .limitParent ∧
    (T.ent (T.ent q).parent).rule = (T.ent q).rule
  sessions : ∀ p ∈ T.entries, (T.ent p).dynType = .limitParent →
    (T.ent p).count.toNat = T.sessions p

variable {S S' : Set RulePtr} {T T' T'' : DynTable} {i : ℕ} {p q : DynPtr} {qs : List DynPtr}
  {now : BitVec 32}

theorem hashPacket_lt {curr : BitVec 32} (h : curr ≠ 0) (id : FlowId) :
    hashPacket curr id < curr.toNat := by
  have hpos : 0 < curr.toNat := by
    rw [Nat.pos_iff_ne_zero]
    exact fun h' => h (BitVec.toNat_inj.1 h')
  have hsub : (curr - 1).toNat = curr.toNat - 1 := by
    have h1 : (1 : BitVec 32).toNat = 1 := rfl
    rw [BitVec.toNat_sub_of_le (BitVec.le_def.2 (by omega)), h1]
  unfold hashPacket
  dsimp only
  rw [BitVec.toNat_and]
  have := Nat.and_le_right (n := (if id.isIp6 then
      id.dstIp6.w2 ^^^ id.dstIp6.w3 ^^^ id.srcIp6.w2 ^^^ id.srcIp6.w3 ^^^
        id.dstPort.setWidth 32 ^^^ id.srcPort.setWidth 32
    else id.dstIp ^^^ id.srcIp ^^^ id.dstPort.setWidth 32 ^^^ id.srcPort.setWidth 32).toNat)
    (m := (curr - 1).toNat)
  omega

namespace DynTable.Tidy

variable (h : T.Tidy)
include h

theorem lt_curr (hq : q ∈ T.list i) : i < T.curr.toNat := by
  rw [← h.bucket i q hq]
  exact hashPacket_lt h.curr _

theorem mem (hq : q ∈ T.list i) : q ∈ T.entries := Buckets.mem_all.2 ⟨i, h.lt_curr hq, hq⟩

theorem mem_bucket (hq : q ∈ T.entries) : q ∈ T.list (hashPacket T.curr (T.ent q).id) := by
  obtain ⟨i, -, hi⟩ := Buckets.mem_all.1 hq
  rwa [h.bucket i q hi]

theorem nodup_entries : T.entries.Nodup := Buckets.nodup_all h.nodup h.bucket

end DynTable.Tidy

namespace DynTable.Inv

variable (h : T.Inv S)
include h

theorem tidy : T.Tidy := ⟨h.curr, h.buckets, h.alloc, h.nodup, h.bucket, h.lt⟩

theorem lt_curr (hq : q ∈ T.list i) : i < T.curr.toNat := h.tidy.lt_curr hq

theorem mem (hq : q ∈ T.list i) : q ∈ T.entries := h.tidy.mem hq

theorem mem_bucket (hq : q ∈ T.entries) : q ∈ T.list (hashPacket T.curr (T.ent q).id) :=
  h.tidy.mem_bucket hq

theorem nodup_entries : T.entries.Nodup := h.tidy.nodup_entries

theorem mono (hS : S ⊆ S') : T.Inv S' := { h with rule := fun q hq => hS (h.rule q hq) }

/-- No session is left of a parent with the count 0. -/
theorem not_session (hp : p ∈ T.entries) (htype : (T.ent p).dynType = .limitParent)
    (hcount : (T.ent p).count = 0) (hq : q ∈ T.entries) : (T.ent q).sessionOf p = false := by
  have hs := h.sessions p hp htype
  have h0 : (0 : BitVec 16).toNat = 0 := rfl
  rw [hcount, h0, DynTable.sessions, eq_comm, List.countP_eq_zero] at hs
  exact Bool.eq_false_iff.2 (hs q hq)

end DynTable.Inv

/-! ### Entries are unlinked -/

theorem DynRule.sessionOf_iff {e : DynRule} :
    e.sessionOf p = true ↔ e.dynType = .limit ∧ e.parent = p := by simp [DynRule.sessionOf]

theorem unlink_ent (r : DynPtr) : (T.unlink i q).ent r =
    { T.ent r with count := if (T.ent q).sessionOf r then (T.ent r).count - 1 else (T.ent r).count } := by
  unfold DynTable.unlink DynTable.modify DynRule.sessionOf
  dsimp only
  by_cases htype : (T.ent q).dynType = .limit
  · rw [if_pos htype, decide_eq_true htype, Bool.true_and]
    by_cases hr : (T.ent q).parent = r
    · rw [decide_eq_true hr, ← hr]
      simp
    · rw [decide_eq_false hr]
      simp [Function.update_of_ne (Ne.symm hr)]
  · rw [if_neg htype, decide_eq_false htype]
    simp

theorem unlink_sessionOf (r r' : DynPtr) :
    ((T.unlink i q).ent r').sessionOf r = (T.ent r').sessionOf r := by
  rw [unlink_ent]
  rfl

theorem unlink_list : (T.unlink i q).list = Function.update T.list i ((T.list i).erase q) := by
  unfold DynTable.unlink
  dsimp only
  split_ifs <;> rfl

theorem unlink_frame : (T.unlink i q).curr = T.curr ∧ (T.unlink i q).alloc = T.alloc ∧
    (T.unlink i q).brk = T.brk ∧ (T.unlink i q).buckets = T.buckets ∧
    (T.unlink i q).count = T.count - 1 := by
  unfold DynTable.unlink
  dsimp only
  split_ifs <;> exact ⟨rfl, rfl, rfl, rfl, rfl⟩

theorem mem_unlink {j : ℕ} {r : DynPtr} (hr : r ∈ (T.unlink i q).list j) : r ∈ T.list j := by
  rw [unlink_list] at hr
  by_cases hj : j = i
  · subst hj
    rw [Function.update_self] at hr
    exact List.mem_of_mem_erase hr
  · rwa [Function.update_of_ne hj] at hr

theorem DynTable.Tidy.unlink (h : T.Tidy) : (T.unlink i q).Tidy := by
  obtain ⟨hcurr, halloc, hbrk, hbuckets, -⟩ := unlink_frame (T := T) (i := i) (q := q)
  refine ⟨?_, ?_, fun ha j => ?_, fun j => ?_, fun j r hr => ?_, fun r hr => ?_⟩
  · rw [hcurr]
    exact h.curr
  · rw [hbuckets]
    exact h.buckets
  · rw [halloc] at ha
    exact List.eq_nil_iff_forall_not_mem.2 fun r hr =>
      List.eq_nil_iff_forall_not_mem.1 (h.alloc ha j) r (mem_unlink hr)
  · rw [unlink_list]
    by_cases hj : j = i
    · subst hj
      rw [Function.update_self]
      exact (h.nodup j).erase q
    · rw [Function.update_of_ne hj]
      exact h.nodup j
  · rw [hcurr, unlink_ent]
    exact h.bucket j r (mem_unlink hr)
  · obtain ⟨j, -, hj⟩ := Buckets.mem_all.1 hr
    rw [hbrk]
    exact h.lt r (h.mem (mem_unlink hj))

theorem DynTable.Tidy.unlink_entries (h : T.Tidy) (hq : q ∈ T.list i) :
    ((T.unlink i q).entries).Perm (T.entries.erase q) := by
  unfold DynTable.entries
  rw [unlink_frame.1, unlink_list]
  exact Buckets.all_update_erase (h.lt_curr hq) hq

/-- **`UNLINK_DYN_RULE`** keeps the invariant, for all entries but parents with sessions. -/
theorem DynTable.Inv.unlink (h : T.Inv S) (hq : q ∈ T.list i)
    (hfree : (T.ent q).dynType = .limitParent → (T.ent q).count = 0) : (T.unlink i q).Inv S := by
  obtain ⟨-, -, -, -, hcount⟩ := unlink_frame (T := T) (i := i) (q := q)
  have hperm := h.tidy.unlink_entries hq
  have hqe := h.mem hq
  have hmem : ∀ r, r ∈ (T.unlink i q).entries ↔ r ≠ q ∧ r ∈ T.entries := fun r => by
    rw [hperm.mem_iff, h.nodup_entries.mem_erase_iff]
  have hne : ∀ r ∈ T.entries, (T.ent r).dynType = .limit → (T.ent r).parent ≠ q := by
    rintro r hr htype rfl
    have hs := h.not_session hqe (h.parent r hr htype).2.1 (hfree (h.parent r hr htype).2.1) hr
    rw [DynRule.sessionOf, decide_eq_true htype] at hs
    simp at hs
  have hpos : 0 < T.entries.length := List.length_pos_of_mem hqe
  obtain ⟨hcurr, hbuckets, halloc, hnodup, hbucket, hlt⟩ : (T.unlink i q).Tidy := h.tidy.unlink
  refine ⟨hcurr, hbuckets, halloc, hnodup, hbucket, hlt, ?_,
    fun r hr => ?_, fun r hr htype => ?_, fun r hr htype => ?_⟩
  · have hc := h.count
    have h1 : (1 : BitVec 32).toNat = 1 := rfl
    rw [hcount, hperm.length_eq, List.length_erase_of_mem hqe,
      BitVec.toNat_sub_of_le (BitVec.le_def.2 (by omega)), hc, h1]
  · rw [unlink_ent]
    exact h.rule r ((hmem r).1 hr).2
  · simp only [unlink_ent] at htype ⊢
    obtain ⟨hp, hp', hp''⟩ := h.parent r ((hmem r).1 hr).2 htype
    exact ⟨(hmem _).2 ⟨hne r ((hmem r).1 hr).2 htype, hp⟩, hp', hp''⟩
  · rw [unlink_ent] at htype ⊢
    have hs := h.sessions r ((hmem r).1 hr).2 htype
    have hnew : (T.unlink i q).sessions r =
        T.sessions r - if (T.ent q).sessionOf r then 1 else 0 := by
      unfold DynTable.sessions
      rw [hperm.countP_eq]
      simp only [unlink_sessionOf]
      rw [List.countP_erase]
      by_cases hsess : (T.ent q).sessionOf r
      · rw [if_pos ⟨hqe, hsess⟩, if_pos hsess]
      · rw [if_neg fun h => hsess h.2, if_neg hsess]
    rw [hnew]
    dsimp only
    by_cases hsess : (T.ent q).sessionOf r
    · have h1 : (1 : BitVec 16).toNat = 1 := rfl
      have hpos' : 0 < T.sessions r := List.countP_pos_iff.2 ⟨q, hqe, hsess⟩
      rw [if_pos hsess, if_pos hsess, BitVec.toNat_sub_of_le (BitVec.le_def.2 (by omega)), hs, h1]
    · rw [if_neg hsess, if_neg hsess, hs, Nat.sub_zero]

/-! ### What the loops do -/

/-- Some entries of `D` are unlinked, but no parents with sessions. -/
inductive Unlinks (D : Set DynPtr) : DynTable → DynTable → Prop
  | refl (T : DynTable) : Unlinks D T T
  | step {T T' : DynTable} {i : ℕ} {q : DynPtr} : q ∈ T.list i → q ∈ D →
      ((T.ent q).dynType = .limitParent → (T.ent q).count = 0) → Unlinks D (T.unlink i q) T' →
      Unlinks D T T'

/-- What stays: there are no new entries, and the entries stay the same but for their counts and
lifetimes. -/
structure Shrinks (T T' : DynTable) : Prop where
  curr : T'.curr = T.curr
  alloc : T'.alloc = T.alloc
  brk : T'.brk = T.brk
  mem : ∀ i, ∀ q ∈ T'.list i, q ∈ T.list i
  rule : ∀ q, (T'.ent q).rule = (T.ent q).rule
  parent : ∀ q, (T'.ent q).parent = (T.ent q).parent
  id : ∀ q, (T'.ent q).id = (T.ent q).id
  dynType : ∀ q, (T'.ent q).dynType = (T.ent q).dynType

theorem Shrinks.refl (T : DynTable) : Shrinks T T :=
  ⟨rfl, rfl, rfl, fun _ _ h => h, fun _ => rfl, fun _ => rfl, fun _ => rfl, fun _ => rfl⟩

theorem Shrinks.trans (h : Shrinks T T') (h' : Shrinks T' T'') : Shrinks T T'' where
  curr := h'.curr.trans h.curr
  alloc := h'.alloc.trans h.alloc
  brk := h'.brk.trans h.brk
  mem i q hq := h.mem i q (h'.mem i q hq)
  rule q := (h'.rule q).trans (h.rule q)
  parent q := (h'.parent q).trans (h.parent q)
  id q := (h'.id q).trans (h.id q)
  dynType q := (h'.dynType q).trans (h.dynType q)

theorem Shrinks.entries (h : Shrinks T T') (hq : q ∈ T'.entries) : q ∈ T.entries := by
  obtain ⟨i, hi, hmem⟩ := Buckets.mem_all.1 hq
  rw [h.curr] at hi
  exact Buckets.mem_all.2 ⟨i, hi, h.mem i q hmem⟩

theorem Shrinks.unlink (T : DynTable) (i : ℕ) (q : DynPtr) : Shrinks T (T.unlink i q) := by
  obtain ⟨hcurr, halloc, hbrk, -, -⟩ := unlink_frame (T := T) (i := i) (q := q)
  refine ⟨hcurr, halloc, hbrk, fun _ _ => mem_unlink, fun r => ?_, fun r => ?_, fun r => ?_,
    fun r => ?_⟩ <;> rw [unlink_ent]

namespace Unlinks

variable {D : Set DynPtr}

theorem trans (h : Unlinks D T T') (h' : Unlinks D T' T'') : Unlinks D T T'' := by
  induction h with
  | refl => exact h'
  | step hq hD hfree _ ih => exact .step hq hD hfree (ih h')

theorem tidy (h : Unlinks D T T') (hT : T.Tidy) : T'.Tidy := by
  induction h with
  | refl => exact hT
  | step _ _ _ _ ih => exact ih hT.unlink

theorem inv (h : Unlinks D T T') (hT : T.Inv S) : T'.Inv S := by
  induction h with
  | refl => exact hT
  | step hq _ hfree _ ih => exact ih (hT.unlink hq hfree)

theorem shrinks (h : Unlinks D T T') : Shrinks T T' := by
  induction h with
  | refl => exact .refl _
  | step _ _ _ _ ih => exact (Shrinks.unlink _ _ _).trans ih

/-- Entries that are not in `D` stay linked. -/
theorem mem_list (h : Unlinks D T T') (hq : q ∉ D) (hmem : q ∈ T.list i) : q ∈ T'.list i := by
  induction h with
  | refl => exact hmem
  | @step T T' j r _ hD _ _ ih =>
    refine ih ?_
    rw [unlink_list]
    by_cases hj : i = j
    · subst hj
      rw [Function.update_self]
      exact (List.mem_erase_of_ne (by rintro rfl; exact hq hD)).2 hmem
    · rwa [Function.update_of_ne hj]

theorem entries (h : Unlinks D T T') (hq : q ∉ D) (hmem : q ∈ T.entries) : q ∈ T'.entries := by
  obtain ⟨i, hi, hmem⟩ := Buckets.mem_all.1 hmem
  rw [← h.shrinks.curr] at hi
  exact Buckets.mem_all.2 ⟨i, hi, h.mem_list hq hmem⟩

end Unlinks

/-- The entries that a loop has still to visit stay linked. -/
theorem mem_unlink_of_nodup (hn : (q :: qs).Nodup) (hqs : ∀ r ∈ q :: qs, r ∈ T.list i) :
    ∀ r ∈ qs, r ∈ (T.unlink i q).list i := by
  intro r hr
  rw [unlink_list, Function.update_self]
  refine (List.mem_erase_of_ne ?_).2 (hqs r (List.mem_cons_of_mem _ hr))
  rintro rfl
  exact (List.nodup_cons.1 hn).1 hr

theorem not_mem_unlink (hT : (T.list i).Nodup) : q ∉ (T.unlink i q).list i := by
  rw [unlink_list, Function.update_self]
  exact hT.not_mem_erase

/-! ### The lookup -/

section lookup

variable {pkt : FlowId} {dir : Dir} {ack : Option (BitVec 32)}

/-- Only expired entries go. -/
theorem lookupLoop_unlinks (hn : qs.Nodup) (hqs : ∀ r ∈ qs, r ∈ T.list i) :
    Unlinks {r | timeLeq (T.ent r).expire now} T (lookupLoop pkt now i T qs).2 := by
  induction qs generalizing T with
  | nil => exact .refl T
  | cons q qs ih =>
    have htail : ∀ r ∈ qs, r ∈ T.list i := fun r hr => hqs r (List.mem_cons_of_mem _ hr)
    have hunlink := @ih (T.unlink i q) hn.of_cons (mem_unlink_of_nodup hn hqs)
    simp only [unlink_ent] at hunlink
    unfold lookupLoop
    dsimp only
    split_ifs with hbusy hexp hmatch
    · exact ih hn.of_cons htail
    · refine .step (hqs q List.mem_cons_self) hexp (fun htype => ?_) hunlink
      exact not_not.1 fun hc => hbusy ⟨htype, hc⟩
    · cases pkt.matches (T.ent q).id with
      | some dir => exact .refl T
      | none => exact ih hn.of_cons htail
    · exact ih hn.of_cons htail

/-- The entry that is found is linked. -/
theorem lookupLoop_mem (hn : qs.Nodup) (hqs : ∀ r ∈ qs, r ∈ T.list i)
    (h : (lookupLoop pkt now i T qs).1 = some (q, dir)) :
    q ∈ (lookupLoop pkt now i T qs).2.list i := by
  induction qs generalizing T with
  | nil => cases h
  | cons q' qs ih =>
    have htail : ∀ r ∈ qs, r ∈ T.list i := fun r hr => hqs r (List.mem_cons_of_mem _ hr)
    unfold lookupLoop at h ⊢
    dsimp only at h ⊢
    split_ifs at h ⊢ with hbusy hexp hmatch
    · exact ih hn.of_cons htail h
    · exact ih hn.of_cons (mem_unlink_of_nodup hn hqs) h
    · cases hm : pkt.matches (T.ent q').id with
      | some dir' =>
        rw [hm] at h
        obtain ⟨rfl, -⟩ := Prod.mk.inj (Option.some.inj h)
        exact hqs _ List.mem_cons_self
      | none =>
        rw [hm] at h
        exact ih hn.of_cons htail h
    · exact ih hn.of_cons htail h

/-- The entries may only differ in their lifetimes and states. -/
structure DynRule.Same (e e' : DynRule) : Prop where
  rule : e'.rule = e.rule
  parent : e'.parent = e.parent
  id : e'.id = e.id
  dynType : e'.dynType = e.dynType
  count : e'.count = e.count

theorem DynRule.Same.refl (e : DynRule) : e.Same e := ⟨rfl, rfl, rfl, rfl, rfl⟩

theorem DynRule.Same.trans {e e' e'' : DynRule} (h : e.Same e') (h' : e'.Same e'') : e.Same e'' where
  rule := h'.rule.trans h.rule
  parent := h'.parent.trans h.parent
  id := h'.id.trans h.id
  dynType := h'.dynType.trans h.dynType
  count := h'.count.trans h.count

/-- The tables have the same entries, but for their order in the buckets. -/
structure Alike (T T' : DynTable) : Prop where
  curr : T'.curr = T.curr
  alloc : T'.alloc = T.alloc
  brk : T'.brk = T.brk
  buckets : T.buckets ≠ 0 → T'.buckets ≠ 0
  count : T'.count = T.count
  list : ∀ i, (T'.list i).Perm (T.list i)
  ent : ∀ q, (T.ent q).Same (T'.ent q)

namespace Alike

theorem refl (T : DynTable) : Alike T T :=
  ⟨rfl, rfl, rfl, id, rfl, fun _ => .refl _, fun _ => .refl _⟩

theorem trans (h : Alike T T') (h' : Alike T' T'') : Alike T T'' where
  curr := h'.curr.trans h.curr
  alloc := h'.alloc.trans h.alloc
  brk := h'.brk.trans h.brk
  buckets hb := h'.buckets (h.buckets hb)
  count := h'.count.trans h.count
  list i := (h'.list i).trans (h.list i)
  ent q := (h.ent q).trans (h'.ent q)

theorem modify {g : DynRule → DynRule} (hg : ∀ e : DynRule, e.Same (g e)) (T : DynTable) (q : DynPtr) :
    Alike T (T.modify q g) := by
  refine ⟨rfl, rfl, rfl, id, rfl, fun _ => .refl _, fun r => ?_⟩
  unfold DynTable.modify
  dsimp only
  by_cases hr : r = q
  · subst hr
    rw [Function.update_self]
    exact hg _
  · rw [Function.update_of_ne hr]
    exact .refl _

variable (h : Alike T T')
include h

theorem shrinks : Shrinks T T' :=
  ⟨h.curr, h.alloc, h.brk, fun i _ hq => (h.list i).mem_iff.1 hq, fun q => (h.ent q).rule,
    fun q => (h.ent q).parent, fun q => (h.ent q).id, fun q => (h.ent q).dynType⟩

theorem entries : T'.entries.Perm T.entries := by
  unfold DynTable.entries
  rw [h.curr]
  exact Buckets.all_perm h.list

theorem sessions (p : DynPtr) : T'.sessions p = T.sessions p := by
  unfold DynTable.sessions
  rw [h.entries.countP_eq]
  refine congrArg (List.countP · _) (funext fun q => ?_)
  rw [DynRule.sessionOf, DynRule.sessionOf, (h.ent q).parent, (h.ent q).dynType]

theorem tidy (hT : T.Tidy) : T'.Tidy := by
  refine ⟨?_, h.buckets hT.buckets, fun ha i => ?_, fun i => (h.list i).nodup_iff.2 (hT.nodup i),
    fun i q hq => ?_, fun q hq => ?_⟩
  · rw [h.curr]
    exact hT.curr
  · rw [h.alloc] at ha
    have hp := h.list i
    rw [hT.alloc ha i] at hp
    exact hp.eq_nil
  · rw [h.curr, (h.ent q).id]
    exact hT.bucket i q ((h.list i).mem_iff.1 hq)
  · rw [h.brk]
    exact hT.lt q (h.entries.mem_iff.1 hq)

theorem inv (hT : T.Inv S) : T'.Inv S := by
  have hmem : ∀ q, q ∈ T'.entries ↔ q ∈ T.entries := fun q => h.entries.mem_iff
  obtain ⟨hcurr, hbuckets, halloc, hnodup, hbucket, hlt⟩ := h.tidy hT.tidy
  refine ⟨hcurr, hbuckets, halloc, hnodup, hbucket, hlt, ?_, fun q hq => ?_, fun q hq htype => ?_,
    fun q hq htype => ?_⟩
  · rw [h.count, h.entries.length_eq]
    exact hT.count
  · rw [(h.ent q).rule]
    exact hT.rule q ((hmem q).1 hq)
  · rw [(h.ent q).dynType] at htype
    rw [(h.ent q).parent, (h.ent q).rule, (h.ent _).rule, (h.ent _).dynType, hmem]
    exact hT.parent q ((hmem q).1 hq) htype
  · rw [(h.ent q).dynType] at htype
    rw [(h.ent q).count, h.sessions]
    exact hT.sessions q ((hmem q).1 hq) htype

end Alike

theorem seenAck_same {e e' : DynRule} (h : seenAck dir ack e = some e') : e.Same e' := by
  unfold seenAck at h
  split at h
  · obtain rfl := Option.some.inj h
    exact .refl _
  · split_ifs at h <;> (obtain rfl := Option.some.inj h; exact ⟨rfl, rfl, rfl, rfl, rfl⟩)

theorem tcpState_alike (T : DynTable) (q : DynPtr) : Alike T (tcpState pkt dir ack now T q) := by
  unfold tcpState
  dsimp only
  generalize (T.ent q).state ||| _ = state
  generalize hT₁ : T.modify q _ = T₁
  have h1 : Alike T T₁ := by
    rw [← hT₁]
    refine .modify (fun e => ?_) T q
    exact ⟨rfl, rfl, rfl, rfl, rfl⟩
  split_ifs
  · refine h1.trans (.modify (fun e => ?_) _ q)
    exact ⟨rfl, rfl, rfl, rfl, rfl⟩
  · refine h1.trans (.modify (fun e => ?_) _ q)
    cases hs : seenAck dir ack e with
    | none => exact .refl e
    | some e' =>
      have hsame := seenAck_same hs
      exact ⟨hsame.rule, hsame.parent, hsame.id, hsame.dynType, hsame.count⟩
  all_goals
    refine h1.trans (Alike.trans ?_ (.modify (fun e => ?_) _ q))
    · exact ⟨rfl, rfl, rfl, id, rfl, fun _ => .refl _, fun _ => .refl _⟩
    · exact ⟨rfl, rfl, rfl, rfl, rfl⟩

theorem dynHit_alike (T : DynTable) (q : DynPtr) : Alike T (dynHit pkt dir ack now T q) := by
  unfold dynHit
  split_ifs
  · exact tcpState_alike T q
  all_goals
    refine .modify (fun e => ?_) T q
    exact ⟨rfl, rfl, rfl, rfl, rfl⟩

/-- The entry `q` becomes the first one of the bucket `i`. -/
def DynTable.toFront (T : DynTable) (i : ℕ) (q : DynPtr) : DynTable :=
  { T with list := Function.update T.list i (q :: (T.list i).erase q) }

theorem toFront_alike (hq : q ∈ T.list i) : Alike T (T.toFront i q) := by
  refine ⟨rfl, rfl, rfl, id, rfl, fun j => ?_, fun _ => ⟨rfl, rfl, rfl, rfl, rfl⟩⟩
  unfold DynTable.toFront
  dsimp only
  by_cases hj : j = i
  · subst hj
    rw [Function.update_self]
    exact (List.perm_cons_erase hq).symm
  · rw [Function.update_of_ne hj]

/-- The lookup unlinks expired entries, and a packet changes the one that is found. -/
theorem lookupDynRuleLocked_cases (h : T.Tidy) :
    ∃ T₁, Unlinks {r | timeLeq (T.ent r).expire now} T T₁ ∧
      (lookupDynRuleLocked pkt ack now T = (none, T₁) ∨
        ∃ q dir, q ∈ T₁.list (hashPacket T.curr pkt) ∧ lookupDynRuleLocked pkt ack now T =
          (some (q, dir), dynHit pkt dir ack now (T₁.toFront (hashPacket T.curr pkt) q) q)) := by
  unfold lookupDynRuleLocked
  split_ifs
  · exact ⟨T, .refl T, .inl rfl⟩
  dsimp only
  generalize hi : hashPacket T.curr pkt = i
  have hun : Unlinks {r | timeLeq (T.ent r).expire now} T (lookupLoop pkt now i T (T.list i)).2 :=
    lookupLoop_unlinks (h.nodup i) fun r hr => hr
  have hmem : ∀ q dir, (lookupLoop pkt now i T (T.list i)).1 = some (q, dir) →
      q ∈ (lookupLoop pkt now i T (T.list i)).2.list i :=
    fun q dir => lookupLoop_mem (h.nodup i) fun r hr => hr
  generalize lookupLoop pkt now i T (T.list i) = x at hun hmem
  obtain ⟨_ | ⟨q, dir⟩, T₁⟩ := x
  · exact ⟨T₁, hun, .inl rfl⟩
  · exact ⟨T₁, hun, .inr ⟨q, dir, hmem q dir rfl, rfl⟩⟩

/-- The lookup unlinks expired entries, and the one that is found goes to the front. -/
theorem lookupDynRuleLocked_spec (h : T.Tidy) :
    ∃ T₁, Unlinks {r | timeLeq (T.ent r).expire now} T T₁ ∧
      Alike T₁ (lookupDynRuleLocked pkt ack now T).2 := by
  obtain ⟨T₁, hun, heq | ⟨q, dir, hq, heq⟩⟩ :=
    @lookupDynRuleLocked_cases _ now pkt ack h
  · rw [heq]
    exact ⟨T₁, hun, .refl T₁⟩
  · rw [heq]
    exact ⟨T₁, hun, (toFront_alike hq).trans (dynHit_alike _ _)⟩

theorem lookupDynRuleLocked_shrinks (h : T.Tidy) :
    Shrinks T (lookupDynRuleLocked pkt ack now T).2 := by
  obtain ⟨T₁, hun, halike⟩ := lookupDynRuleLocked_spec h
  exact hun.shrinks.trans halike.shrinks

theorem lookupDynRuleLocked_tidy (h : T.Tidy) : (lookupDynRuleLocked pkt ack now T).2.Tidy := by
  obtain ⟨T₁, hun, halike⟩ := lookupDynRuleLocked_spec h
  exact halike.tidy (hun.tidy h)

theorem lookupDynRuleLocked_inv (h : T.Inv S) : (lookupDynRuleLocked pkt ack now T).2.Inv S := by
  obtain ⟨T₁, hun, halike⟩ := lookupDynRuleLocked_spec h.tidy
  exact halike.inv (hun.inv h)

end lookup

end Ipfw
