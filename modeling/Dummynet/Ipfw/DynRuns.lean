import Dummynet.Ipfw.DynTable
import Dummynet.Ipfw.Order
import Mathlib

/-!
# Removal and new entries

The removal of dynamic rules in up to two passes over the table, and new entries. Parents can go in the
second pass because the first one has removed all their sessions.

## Main results

* `removeDynChildren_inv`: the removal of the dynamic rules of a rule leaves no entry of the rule.
* `installState_inv`: new entries keep the invariant.
-/

namespace Ipfw

variable {S S' : Set RulePtr} {T T' : DynTable} {i n : ℕ} {p q : DynPtr} {qs : List DynPtr}
  {now : BitVec 32} {r : RulePtr}

/-! ### The removal -/

section removal

variable {rule : Option RulePtr} {keep : Option DynPtr} {force second : Bool}

theorem removeLoop_unlinks (hn : qs.Nodup) (hqs : ∀ r ∈ qs, r ∈ T.list i) :
    Unlinks {q | keep ≠ some q} T (removeLoop rule keep force now second i T qs).2 := by
  induction qs generalizing T with
  | nil => exact .refl T
  | cons q qs ih =>
    have htail : ∀ r ∈ qs, r ∈ T.list i := fun r hr => hqs r (List.mem_cons_of_mem _ hr)
    have hskip := ih hn.of_cons htail
    have hunlink : keep ≠ some q → ((T.ent q).dynType = .limitParent → (T.ent q).count = 0) →
        Unlinks {q | keep ≠ some q} T (removeLoop rule keep force now second i (T.unlink i q) qs).2 :=
      fun hkeep hfree => .step (hqs q List.mem_cons_self) hkeep hfree
        (ih hn.of_cons (mem_unlink_of_nodup hn hqs))
    unfold removeLoop
    dsimp only
    split_ifs with hother htype hfree hlive
    · exact hskip
    · exact hunlink (fun h => hother (.inl h)) fun _ => hfree.2
    · exact hskip
    · exact hskip
    · exact hunlink (fun h => hother (.inl h)) fun h => absurd h htype

theorem removePass_unlinks (h : T.Tidy) (n : ℕ) :
    Unlinks {q | keep ≠ some q} T (removePass rule keep force now second n T).2 := by
  induction n with
  | zero => exact .refl T
  | succ n ih =>
    unfold removePass
    exact ih.trans (removeLoop_unlinks ((ih.tidy h).nodup n) fun r hr => hr)

/-- `remove_dyn_rule` unlinks entries, but not the one to keep. -/
theorem removeDynRule_spec (h : T.Tidy) :
    ∃ T₁, Alike T T₁ ∧ Unlinks {q | keep ≠ some q} T₁ (removeDynRule rule keep force now T) := by
  unfold removeDynRule
  split_ifs with hempty hlast
  · exact ⟨T, .refl T, .refl T⟩
  · exact ⟨T, .refl T, .refl T⟩
  have halike : Alike T { T with lastRemove := now } :=
    ⟨rfl, rfl, rfl, id, rfl, fun _ => .refl _, fun _ => .refl _⟩
  have hfirst := @removePass_unlinks _ now rule keep force false (halike.tidy h) T.curr.toNat
  refine ⟨_, halike, ?_⟩
  dsimp only
  split_ifs
  · exact hfirst.trans (removePass_unlinks (hfirst.tidy (halike.tidy h)) _)
  · exact hfirst

theorem removeDynRule_shrinks (h : T.Tidy) : Shrinks T (removeDynRule rule keep force now T) := by
  obtain ⟨T₁, halike, hun⟩ := removeDynRule_spec h
  exact halike.shrinks.trans hun.shrinks

theorem removeDynRule_tidy (h : T.Tidy) : (removeDynRule rule keep force now T).Tidy := by
  obtain ⟨T₁, halike, hun⟩ := removeDynRule_spec h
  exact hun.tidy (halike.tidy h)

theorem removeDynRule_inv (h : T.Inv S) : (removeDynRule rule keep force now T).Inv S := by
  obtain ⟨T₁, halike, hun⟩ := removeDynRule_spec h.tidy
  exact hun.inv (halike.inv h)

end removal

/-! ### The forced removal of the entries of a rule -/

/-- The first pass leaves only parents, and notices them. -/
theorem removeLoop_first (hn : qs.Nodup) (hT : (T.list i).Nodup) (hqs : ∀ r ∈ qs, r ∈ T.list i) :
    ∀ q ∈ qs, q ∈ (removeLoop (some r) none true now false i T qs).2.list i →
      (T.ent q).rule = r → (T.ent q).dynType = .limitParent ∧
        (removeLoop (some r) none true now false i T qs).1 = true := by
  induction qs generalizing T with
  | nil => exact fun q hq => absurd hq List.not_mem_nil
  | cons q' qs ih =>
    have htail : ∀ r ∈ qs, r ∈ T.list i := fun r hr => hqs r (List.mem_cons_of_mem _ hr)
    intro q hq hmem hr
    unfold removeLoop at hmem ⊢
    simp only [reduceCtorEq, false_or, false_and, if_false, Option.some.injEq, Bool.not_true,
      Bool.false_eq_true] at hmem ⊢
    split_ifs at hmem ⊢ with hother htype
    · rcases List.mem_cons.1 hq with rfl | hq
      · exact ⟨htype, rfl⟩
      · exact ⟨(ih hn.of_cons hT htail q hq hmem hr).1, rfl⟩
    · have hun : Unlinks {q | (none : Option DynPtr) ≠ some q} (T.unlink i q')
          (removeLoop (some r) none true now false i (T.unlink i q') qs).2 :=
        removeLoop_unlinks hn.of_cons (mem_unlink_of_nodup hn hqs)
      have hmem' := hun.shrinks.mem i q hmem
      have hne : q ≠ q' := by
        rintro rfl
        exact not_mem_unlink hT hmem'
      have hT' : ((T.unlink i q').list i).Nodup := by
        rw [unlink_list, Function.update_self]
        exact hT.erase q'
      have := ih hn.of_cons hT' (mem_unlink_of_nodup hn hqs) q ((List.mem_cons.1 hq).resolve_left hne)
        hmem (by rw [unlink_ent]; exact hr)
      rwa [unlink_ent] at this
    · rcases List.mem_cons.1 hq with rfl | hq
      · exact absurd hr.symm hother
      · exact ih hn.of_cons hT htail q hq hmem hr

theorem removePass_first (h : T.Inv S) :
    ∀ i < n, ∀ q ∈ (removePass (some r) none true now false n T).2.list i,
      (T.ent q).rule = r → (T.ent q).dynType = .limitParent ∧
        (removePass (some r) none true now false n T).1 = true := by
  induction n with
  | zero => exact fun i hi => absurd hi (Nat.not_lt_zero i)
  | succ n ih =>
    intro i hi q hq hr
    have hun : Unlinks {q | (none : Option DynPtr) ≠ some q} T
        (removePass (some r) none true now false n T).2 := removePass_unlinks h.tidy n
    unfold removePass at hq ⊢
    dsimp only at hq ⊢
    generalize hp : removePass (some r) none true now false n T = x at hq ih hun ⊢
    obtain ⟨b, T₁⟩ := x
    dsimp only at hq ih hun ⊢
    have hnodup := (hun.inv h).nodup n
    have hloop : Unlinks {q | (none : Option DynPtr) ≠ some q} T₁
        (removeLoop (some r) none true now false n T₁ (T₁.list n)).2 :=
      removeLoop_unlinks hnodup fun r hr => hr
    rcases Nat.lt_succ_iff_lt_or_eq.1 hi with hlt | rfl
    · obtain ⟨htype, hb⟩ := ih i hlt q (hloop.shrinks.mem i q hq) hr
      exact ⟨htype, by rw [hb, Bool.true_or]⟩
    · have hlast := removeLoop_first hnodup hnodup (fun r hr => hr) q (hloop.shrinks.mem i q hq) hq
        (hun.shrinks.rule q ▸ hr)
      rw [hun.shrinks.dynType q] at hlast
      exact ⟨hlast.1, by rw [hlast.2, Bool.or_true]⟩

/-- Only parents are left of the rule. -/
def ParentsOnly (r : RulePtr) (T : DynTable) : Prop :=
  ∀ q ∈ T.entries, (T.ent q).rule = r → (T.ent q).dynType = .limitParent

theorem ParentsOnly.shrinks (h : ParentsOnly r T) (hs : Shrinks T T') : ParentsOnly r T' := by
  intro q hq hr
  rw [hs.dynType]
  exact h q (hs.entries hq) (hs.rule q ▸ hr)

/-- Parents of a rule without other entries have no sessions. -/
theorem ParentsOnly.count (h : ParentsOnly r T) (hT : T.Inv S) (hq : q ∈ T.entries)
    (hr : (T.ent q).rule = r) : (T.ent q).count = 0 := by
  have hs := hT.sessions q hq (h q hq hr)
  have hzero : T.sessions q = 0 := by
    refine List.countP_eq_zero.2 fun q' hq' hsess => ?_
    obtain ⟨htype, rfl⟩ := DynRule.sessionOf_iff.1 hsess
    have hrule := (hT.parent q' hq' htype).2.2
    rw [h q' hq' (hrule.symm.trans hr)] at htype
    cases htype
  rw [hzero] at hs
  exact BitVec.toNat_inj.1 hs

/-- The second pass leaves no entry of the rule. -/
theorem removeLoop_second (h : T.Inv S) (hp : ParentsOnly r T) (hn : qs.Nodup)
    (hqs : ∀ r ∈ qs, r ∈ T.list i) :
    ∀ q ∈ qs, q ∈ (removeLoop (some r) none true now true i T qs).2.list i →
      (T.ent q).rule ≠ r := by
  induction qs generalizing T with
  | nil => exact fun q hq => absurd hq List.not_mem_nil
  | cons q' qs ih =>
    have htail : ∀ r ∈ qs, r ∈ T.list i := fun r hr => hqs r (List.mem_cons_of_mem _ hr)
    intro q hq hmem hr
    have hq' : q' ∈ T.entries := h.mem (hqs q' List.mem_cons_self)
    unfold removeLoop at hmem
    dsimp only at hmem
    by_cases hr' : (T.ent q').rule = r
    · have hcount := hp.count h hq' hr'
      rw [if_neg (by simp [hr']), if_pos (hp q' hq' hr'), if_pos ⟨rfl, hcount⟩] at hmem
      have hun : Unlinks {q | (none : Option DynPtr) ≠ some q} (T.unlink i q')
          (removeLoop (some r) none true now true i (T.unlink i q') qs).2 :=
        removeLoop_unlinks hn.of_cons (mem_unlink_of_nodup hn hqs)
      have hne : q ≠ q' := by
        rintro rfl
        exact not_mem_unlink (h.nodup i) (hun.shrinks.mem i q hmem)
      exact ih (h.unlink (hqs q' List.mem_cons_self) fun _ => hcount)
        (hp.shrinks (.unlink T i q')) hn.of_cons (mem_unlink_of_nodup hn hqs) q
        ((List.mem_cons.1 hq).resolve_left hne) hmem (by rw [unlink_ent]; exact hr)
    · rw [if_pos (.inr (by simp [Ne.symm hr']))] at hmem
      rcases List.mem_cons.1 hq with rfl | hq
      · exact hr' hr
      · exact ih h hp hn.of_cons htail q hq hmem hr

theorem removePass_second (h : T.Inv S) (hp : ParentsOnly r T) :
    ∀ i < n, ∀ q ∈ (removePass (some r) none true now true n T).2.list i, (T.ent q).rule ≠ r := by
  induction n with
  | zero => exact fun i hi => absurd hi (Nat.not_lt_zero i)
  | succ n ih =>
    intro i hi q hq
    have hun : Unlinks {q | (none : Option DynPtr) ≠ some q} T
        (removePass (some r) none true now true n T).2 := removePass_unlinks h.tidy n
    unfold removePass at hq
    dsimp only at hq
    generalize removePass (some r) none true now true n T = x at hq ih hun
    obtain ⟨b, T₁⟩ := x
    dsimp only at hq ih hun
    have hT₁ := hun.inv h
    have hloop : Unlinks {q | (none : Option DynPtr) ≠ some q} T₁
        (removeLoop (some r) none true now true n T₁ (T₁.list n)).2 :=
      removeLoop_unlinks (hT₁.nodup n) fun r hr => hr
    rcases Nat.lt_succ_iff_lt_or_eq.1 hi with hlt | rfl
    · exact ih i hlt q (hloop.shrinks.mem i q hq)
    · rw [← hun.shrinks.rule q]
      exact removeLoop_second hT₁ (hp.shrinks hun.shrinks) (hT₁.nodup i) (fun r hr => hr) q
        (hloop.shrinks.mem i q hq) hq

/-- **`ipfw_remove_dyn_children`** leaves no entry of the rule. -/
theorem removeDynChildren_inv (h : T.Inv S) : (removeDynChildren r now T).Inv (S \ {r}) := by
  have hinv : (removeDynChildren r now T).Inv S := removeDynRule_inv h
  refine { hinv with rule := fun q hq => ⟨hinv.rule q hq, fun hr => ?_⟩ }
  rw [Set.mem_singleton_iff] at hr
  unfold removeDynChildren removeDynRule at hq hr
  simp only [Bool.not_true, Bool.false_eq_true, false_and, if_false] at hq hr
  split_ifs at hq hr with hempty hpass
  · rcases hempty with halloc | hcount
    · obtain ⟨i, -, hi⟩ := Buckets.mem_all.1 hq
      rw [h.alloc halloc i] at hi
      exact List.not_mem_nil hi
    · have hlen := h.count
      rw [hcount] at hlen
      exact List.length_pos_of_mem hq |>.ne hlen
  all_goals
    have halike : Alike T { T with lastRemove := now } :=
      ⟨rfl, rfl, rfl, id, rfl, fun _ => .refl _, fun _ => .refl _⟩
    generalize { T with lastRemove := now } = T₀ at hq hr hpass halike
    have hT₀ := halike.inv h
    have hfirst := @removePass_first _ _ T.curr.toNat now r hT₀
    have hun : Unlinks {q | (none : Option DynPtr) ≠ some q} T₀
        (removePass (some r) none true now false T.curr.toNat T₀).2 := removePass_unlinks hT₀.tidy _
    generalize removePass (some r) none true now false T.curr.toNat T₀ = x at hq hr hpass hfirst hun
    obtain ⟨b, T₁⟩ := x
    dsimp only at hq hr hpass hfirst hun
    have hcurr : T₁.curr = T.curr := hun.shrinks.curr.trans halike.curr
    have hpar : ∀ q ∈ T₁.entries, (T₁.ent q).rule = r →
        (T₁.ent q).dynType = .limitParent ∧ b = true := by
      intro q hq hr
      obtain ⟨i, hi, hmem⟩ := Buckets.mem_all.1 hq
      rw [hcurr] at hi
      rw [hun.shrinks.dynType]
      exact hfirst i hi q hmem (hun.shrinks.rule q ▸ hr)
  · have hT₁ := hun.inv hT₀
    have hsecond := @removePass_second _ _ T.curr.toNat now r hT₁
      fun q hq hr => (hpar q hq hr).1
    have hun' : Unlinks {q | (none : Option DynPtr) ≠ some q} T₁
        (removePass (some r) none true now true T.curr.toNat T₁).2 := removePass_unlinks hT₁.tidy _
    obtain ⟨i, hi, hmem⟩ := Buckets.mem_all.1 hq
    rw [hun'.shrinks.curr, hcurr] at hi
    exact hsecond i hi q hmem (hun'.shrinks.rule q ▸ hr)
  · exact hpass (hpar q hq hr).2

/-! ### New entries -/

/-- What a new entry needs: a rule, or a parent that is linked. -/
def DynOwner.Fits (S : Set RulePtr) (T : DynTable) (dynType : Opcode) : DynOwner → Prop
  | .rule f => f ∈ S ∧ dynType ≠ .limit
  | .parent p => dynType = .limit ∧ p ∈ T.entries ∧ (T.ent p).dynType = .limitParent

section link

variable {id : FlowId} {dynType : Opcode} {owner : DynOwner}

theorem link_frame : (T.link id dynType owner now).curr = T.curr ∧
    (T.link id dynType owner now).alloc = T.alloc ∧
    (T.link id dynType owner now).brk = T.brk + 1 ∧
    (T.link id dynType owner now).buckets = T.buckets ∧
    (T.link id dynType owner now).count = T.count + 1 := by
  cases owner <;> exact ⟨rfl, rfl, rfl, rfl, rfl⟩

theorem link_list : (T.link id dynType owner now).list = Function.update T.list
    (hashPacket T.curr id) (T.brk :: T.list (hashPacket T.curr id)) := by
  cases owner <;> rfl

theorem link_ent_brk :
    (T.link id dynType owner now).ent T.brk = newEntry T id dynType owner now := by
  cases owner <;> exact Function.update_self ..

theorem link_ent {p : DynPtr} (ho : owner.Fits S T dynType) (hp : p ≠ T.brk) :
    (T.link id dynType owner now).ent p =
      { T.ent p with count := if (newEntry T id dynType owner now).sessionOf p then
          (T.ent p).count + 1 else (T.ent p).count } := by
  cases owner with
  | rule f =>
    have hsess : (newEntry T id dynType (.rule f) now).sessionOf p = false := by
      rw [DynRule.sessionOf, newEntry, decide_eq_false ho.2, Bool.false_and]
    rw [hsess]
    exact Function.update_of_ne hp _ _
  | parent p' =>
    obtain ⟨rfl, -⟩ := ho
    unfold DynTable.link DynTable.modify DynRule.sessionOf newEntry
    dsimp only
    rw [Function.update_of_ne hp]
    by_cases hpp : p' = p
    · subst hpp
      simp
    · simp [Function.update_of_ne (Ne.symm hpp), hpp]

theorem link_id {p : DynPtr} (hp : p ≠ T.brk) :
    ((T.link id dynType owner now).ent p).id = (T.ent p).id ∧
      ((T.link id dynType owner now).ent p).dynType = (T.ent p).dynType := by
  cases owner with
  | rule f =>
    have heq : (T.link id dynType (.rule f) now).ent p = T.ent p := Function.update_of_ne hp ..
    rw [heq]
    exact ⟨rfl, rfl⟩
  | parent p' =>
    have heq : (T.link id dynType (.parent p') now).ent p =
        (T.modify p' fun e => { e with count := e.count + 1 }).ent p := Function.update_of_ne hp ..
    rw [heq]
    unfold DynTable.modify
    dsimp only
    by_cases hpp : p = p'
    · subst hpp
      rw [Function.update_self]
      exact ⟨rfl, rfl⟩
    · rw [Function.update_of_ne hpp]
      exact ⟨rfl, rfl⟩

namespace DynTable.Tidy

variable (h : T.Tidy)
include h

theorem brk_not_mem : T.brk ∉ T.entries := fun hmem => (h.lt _ hmem).false

theorem link_entries :
    ((T.link id dynType owner now).entries).Perm (T.brk :: T.entries) := by
  unfold DynTable.entries
  rw [link_frame.1, link_list]
  exact Buckets.all_update_cons (hashPacket_lt h.curr id) _

theorem link (halloc : T.alloc = true) : (T.link id dynType owner now).Tidy := by
  obtain ⟨hcurr, halloc', hbrk, hbuckets, -⟩ := @link_frame T now id dynType owner
  refine ⟨?_, ?_, fun ha => ?_, fun i => ?_, fun i q hq => ?_, fun q hq => ?_⟩
  · rw [hcurr]
    exact h.curr
  · rw [hbuckets]
    exact h.buckets
  · rw [halloc', halloc] at ha
    cases ha
  · rw [link_list]
    by_cases hi : i = hashPacket T.curr id
    · subst hi
      rw [Function.update_self]
      exact List.nodup_cons.2 ⟨fun hq => h.brk_not_mem (h.mem hq), h.nodup _⟩
    · rw [Function.update_of_ne hi]
      exact h.nodup i
  · have hlist : q = T.brk ∧ hashPacket T.curr id = i ∨ q ∈ T.list i := by
      rw [link_list] at hq
      by_cases hi : i = hashPacket T.curr id
      · subst hi
        rw [Function.update_self, List.mem_cons] at hq
        exact hq.imp_left fun heq => ⟨heq, rfl⟩
      · rw [Function.update_of_ne hi] at hq
        exact .inr hq
    rw [hcurr]
    rcases hlist with ⟨rfl, hi⟩ | hq
    · rw [link_ent_brk]
      exact hi
    · rw [(link_id (h.lt q (h.mem hq)).ne).1]
      exact h.bucket i q hq
  · rw [hbrk]
    rcases List.mem_cons.1 (h.link_entries.mem_iff.1 hq) with rfl | hq
    · exact Nat.lt_succ_self _
    · exact (h.lt q hq).trans (Nat.lt_succ_self _)

end DynTable.Tidy

namespace DynTable.Inv

variable (h : T.Inv S)
include h

theorem brk_not_mem : T.brk ∉ T.entries := h.tidy.brk_not_mem

theorem sessions_brk : T.sessions T.brk = 0 := by
  refine List.countP_eq_zero.2 fun q hq hsess => ?_
  obtain ⟨htype, hpar⟩ := DynRule.sessionOf_iff.1 hsess
  have hp := (h.parent q hq htype).1
  rw [hpar] at hp
  exact h.brk_not_mem hp

theorem link_entries :
    ((T.link id dynType owner now).entries).Perm (T.brk :: T.entries) := h.tidy.link_entries

theorem link_sessions (ho : owner.Fits S T dynType) (p : DynPtr) :
    (T.link id dynType owner now).sessions p =
      T.sessions p + if (newEntry T id dynType owner now).sessionOf p then 1 else 0 := by
  unfold DynTable.sessions
  rw [h.link_entries.countP_eq, List.countP_cons, link_ent_brk]
  congr 1
  refine List.countP_congr fun q hq => ?_
  have hne : q ≠ T.brk := (h.lt q hq).ne
  rw [link_ent ho hne]
  rfl

/-- **A new entry** keeps the invariant if its parent has room for one more session. -/
theorem link (ho : owner.Fits S T dynType) (halloc : T.alloc = true)
    (hlen : T.entries.length + 1 < 2 ^ 32)
    (hroom : ∀ p, (newEntry T id dynType owner now).sessionOf p = true →
      T.sessions p + 1 < 2 ^ 16) : (T.link id dynType owner now).Inv S := by
  obtain ⟨-, -, -, -, hcount⟩ := @link_frame T now id dynType owner
  have hperm := @DynTable.Inv.link_entries _ _ now id dynType owner h
  have hnew := @link_ent_brk T now id dynType owner
  have hold : ∀ q ∈ T.entries, (T.link id dynType owner now).ent q =
      { T.ent q with count := if (newEntry T id dynType owner now).sessionOf q then
          (T.ent q).count + 1 else (T.ent q).count } := fun q hq => link_ent ho (h.lt q hq).ne
  have hmem : ∀ q, q ∈ (T.link id dynType owner now).entries ↔ q = T.brk ∨ q ∈ T.entries :=
    fun q => by rw [hperm.mem_iff, List.mem_cons]
  obtain ⟨hcurr, hbuckets, halloc, hnodup, hbucket, hlt⟩ :=
    @DynTable.Tidy.link _ now id dynType owner h.tidy halloc
  refine ⟨hcurr, hbuckets, halloc, hnodup, hbucket, hlt, ?_, fun q hq => ?_,
    fun q hq htype => ?_, fun q hq htype => ?_⟩
  · have hc := h.count
    have h1 : (1 : BitVec 32).toNat = 1 := rfl
    rw [hcount, hperm.length_eq, List.length_cons, BitVec.toNat_add, h1, hc,
      Nat.mod_eq_of_lt hlen]
  · rcases (hmem q).1 hq with rfl | hq
    · rw [hnew]
      cases owner with
      | rule f => exact ho.1
      | parent p => exact h.rule p ho.2.1
    · rw [hold q hq]
      exact h.rule q hq
  · rcases (hmem q).1 hq with rfl | hq
    · rw [hnew] at htype ⊢
      cases owner with
      | rule f => exact absurd htype ho.2
      | parent p =>
        obtain ⟨-, hp, hptype⟩ := ho
        change p ∈ _ ∧ ((T.link id dynType (.parent p) now).ent p).dynType = _ ∧
          ((T.link id dynType (.parent p) now).ent p).rule = (T.ent p).rule
        rw [hold p hp]
        exact ⟨(hmem p).2 (.inr hp), hptype, rfl⟩
    · rw [hold q hq] at htype ⊢
      obtain ⟨hp, hp', hp''⟩ := h.parent q hq htype
      change (T.ent q).parent ∈ _ ∧
        ((T.link id dynType owner now).ent (T.ent q).parent).dynType = _ ∧
        ((T.link id dynType owner now).ent (T.ent q).parent).rule = (T.ent q).rule
      rw [hold _ hp]
      exact ⟨(hmem _).2 (.inr hp), hp', hp''⟩
  · rw [h.link_sessions ho]
    rcases (hmem q).1 hq with rfl | hq
    · rw [hnew] at htype ⊢
      have hsess : (newEntry T id dynType owner now).sessionOf T.brk = false := by
        rw [DynRule.sessionOf, htype]
        rfl
      rw [h.sessions_brk, hsess]
      rfl
    · rw [hold q hq] at htype ⊢
      have hs := h.sessions q hq htype
      dsimp only
      by_cases hsess : (newEntry T id dynType owner now).sessionOf q
      · have h1 : (1 : BitVec 16).toNat = 1 := rfl
        rw [if_pos hsess, if_pos hsess, BitVec.toNat_add, h1, hs, Nat.mod_eq_of_lt (hroom q hsess)]
      · rw [if_neg hsess, if_neg hsess, hs, Nat.add_zero]

end DynTable.Inv

/-! ### The table may be allocated anew -/

theorem reallocLoop_ne {malloc : BitVec 32 → Bool} {curr : BitVec 32} (h : curr ≠ 0) (n : ℕ) :
    (reallocLoop malloc n curr).2 ≠ 0 := by
  induction n generalizing curr with
  | zero => exact h
  | succ n ih =>
    unfold reallocLoop
    split_ifs with hstop
    · exact h
    · rw [not_or, BitVec.not_le, BitVec.lt_def] at hstop
      refine ih fun h0 => ?_
      have h2 : (2 : BitVec 32).toNat = 2 := rfl
      have hdiv := congrArg BitVec.toNat h0
      rw [BitVec.toNat_udiv, h2, show (0 : BitVec 32).toNat = 0 from rfl] at hdiv
      omega

/-- **`realloc_dynamic_table`** leaves the table as it is, or empty. -/
theorem reallocDynamicTable_tidy {malloc : BitVec 32 → Bool} (h : T.Tidy) :
    (reallocDynamicTable malloc T).Tidy ∧ (reallocDynamicTable malloc T).count = T.count ∧
      (Alike T (reallocDynamicTable malloc T) ∨ (reallocDynamicTable malloc T).entries = []) := by
  unfold reallocDynamicTable
  dsimp only
  generalize hb : (if 65536 < T.buckets then 1024 else T.buckets) = buckets
  have hb0 : buckets ≠ 0 := by
    rw [← hb]
    split_ifs
    · decide
    · exact h.buckets
  split_ifs
  · exact ⟨{ h with buckets := h.curr }, rfl,
      .inl ⟨rfl, rfl, rfl, fun _ => h.curr, rfl, fun _ => .refl _, fun _ => .refl _⟩⟩
  · have hall : Buckets.all (reallocLoop malloc 32 buckets).2.toNat (fun _ => ([] : List DynPtr)) =
        [] := Buckets.all_nil fun _ => rfl
    refine ⟨⟨reallocLoop_ne hb0 32, hb0, fun _ _ => rfl, fun _ => List.nodup_nil,
      fun i q hq => absurd hq List.not_mem_nil, fun q hq => ?_⟩, rfl, .inr hall⟩
    obtain ⟨i, -, hi⟩ := Buckets.mem_all.1 hq
    exact absurd hi List.not_mem_nil

/-- `realloc_dynamic_table`, which is called when no entry is linked. -/
theorem reallocDynamicTable_inv {malloc : BitVec 32 → Bool} (h : T.Inv S) (hempty : T.entries = []) :
    (reallocDynamicTable malloc T).Inv S ∧ (reallocDynamicTable malloc T).entries = [] := by
  obtain ⟨htidy, hcount, hsame⟩ := @reallocDynamicTable_tidy _ malloc h.tidy
  have hnil : (reallocDynamicTable malloc T).entries = [] := by
    rcases hsame with halike | hnil
    · exact List.Perm.eq_nil (hempty ▸ halike.entries)
    · exact hnil
  have hnone : ∀ q, q ∉ (reallocDynamicTable malloc T).entries := fun q hq => by
    rw [hnil] at hq
    exact List.not_mem_nil hq
  obtain ⟨hcurr, hbuckets, halloc, hnodup, hbucket, hlt⟩ := htidy
  refine ⟨⟨hcurr, hbuckets, halloc, hnodup, hbucket, hlt, ?_, fun q hq => absurd hq (hnone q),
    fun q hq => absurd hq (hnone q), fun q hq => absurd hq (hnone q)⟩, hnil⟩
  rw [hcount, hnil, h.count, hempty]

/-- `add_dyn_rule` may allocate an empty table anew, and then it fails or links a new entry. -/
theorem addDynRule_cases {malloc : BitVec 32 → Bool} {zalloc : Bool} (h : T.Inv S) :
    ∃ T₀, T₀.Inv S ∧ (T₀ = T ∨ T.entries = [] ∧ T₀.entries = []) ∧
      (addDynRule malloc zalloc id dynType owner now T = (none, T₀) ∨ T₀.alloc = true ∧
        addDynRule malloc zalloc id dynType owner now T =
          (some T₀.brk, T₀.link id dynType owner now)) := by
  unfold addDynRule
  dsimp only
  generalize hT₀ : (if T.alloc = false ∨ T.count = 0 ∧ T.buckets ≠ T.curr then
    reallocDynamicTable malloc T else T) = T₀
  refine ⟨T₀, ?_⟩
  have hcases : T₀.Inv S ∧ (T₀ = T ∨ T.entries = [] ∧ T₀.entries = []) := by
    rw [← hT₀]
    split_ifs with hre
    · have hempty : T.entries = [] := by
        rcases hre with halloc | ⟨hcount, -⟩
        · exact Buckets.all_nil (h.alloc halloc)
        · have hc := h.count
          rw [hcount] at hc
          exact List.eq_nil_of_length_eq_zero hc.symm
      obtain ⟨hinv, hempty'⟩ := @reallocDynamicTable_inv _ _ malloc h hempty
      exact ⟨hinv, .inr ⟨hempty, hempty'⟩⟩
    · exact ⟨h, .inl rfl⟩
  refine ⟨hcases.1, hcases.2, ?_⟩
  split_ifs with halloc hmem
  · exact .inl rfl
  · exact .inl rfl
  · exact .inr ⟨by simpa using halloc, rfl⟩

end link

/-- There is room for the sessions of each parent in its count, and for all entries in `dyn_count`:
so many entries do not fit in memory. -/
structure DynTable.Bounded (T : DynTable) : Prop where
  entries : T.entries.length < 2 ^ 32
  sessions : ∀ p, T.sessions p < 2 ^ 16

theorem DynTable.Inv.sessions_lt (h : T.Inv S) (p : DynPtr) : T.sessions p < 2 ^ 16 := by
  rcases Nat.eq_zero_or_pos (T.sessions p) with hzero | hpos
  · rw [hzero]
    decide
  · obtain ⟨q, hq, hsess⟩ := List.countP_pos_iff.1 hpos
    obtain ⟨htype, rfl⟩ := DynRule.sessionOf_iff.1 hsess
    obtain ⟨hp, hptype, -⟩ := h.parent q hq htype
    rw [← h.sessions _ hp hptype]
    exact (T.ent (T.ent q).parent).count.isLt

section install

variable {M : DynMem} {pkt junk : FlowId} {cmd tablearg : BitVec 32} {op : Opcode}

/-- A new entry of a rule. -/
theorem addDynRule_rule {malloc : BitVec 32 → Bool} {zalloc : Bool} {id : FlowId}
    {dynType : Opcode} (h : T.Inv S) (hr : r ∈ S) (htype : dynType ≠ .limit)
    (hlen : T.entries.length + 1 < 2 ^ 32) :
    (addDynRule malloc zalloc id dynType (.rule r) now T).2.Inv S ∧
      ∀ q, (addDynRule malloc zalloc id dynType (.rule r) now T).1 = some q →
        q ∈ (addDynRule malloc zalloc id dynType (.rule r) now T).2.entries ∧
          ((addDynRule malloc zalloc id dynType (.rule r) now T).2.ent q).dynType = dynType ∧
          ((addDynRule malloc zalloc id dynType (.rule r) now T).2.ent q).rule = r := by
  obtain ⟨T₀, hT₀, hsame, hadd | ⟨halloc, hadd⟩⟩ :=
    @addDynRule_cases _ _ now id dynType (.rule r) malloc zalloc h
  · rw [hadd]
    exact ⟨hT₀, fun q hq => by cases hq⟩
  · rw [hadd]
    have hlen₀ : T₀.entries.length + 1 < 2 ^ 32 := by
      rcases hsame with rfl | ⟨-, hnil⟩
      · exact hlen
      · rw [hnil]
        decide
    have ho : DynOwner.Fits S T₀ dynType (.rule r) := ⟨hr, htype⟩
    refine ⟨hT₀.link ho halloc hlen₀
      fun p hsess => absurd (DynRule.sessionOf_iff.1 hsess).1 htype, ?_⟩
    rintro q hq
    obtain rfl := Option.some.inj hq
    refine ⟨hT₀.link_entries.mem_iff.2 List.mem_cons_self, ?_⟩
    rw [link_ent_brk]
    exact ⟨rfl, rfl⟩

/-- A new session of a linked parent. -/
theorem addDynRule_parent {malloc : BitVec 32 → Bool} {zalloc : Bool} {id : FlowId}
    (h : T.Inv S) (hp : p ∈ T.entries) (htype : (T.ent p).dynType = .limitParent)
    (hb : (addDynRule malloc zalloc id .limit (.parent p) now T).2.Bounded) :
    (addDynRule malloc zalloc id .limit (.parent p) now T).2.Inv S := by
  obtain ⟨T₀, hT₀, rfl | ⟨hnil, -⟩, hadd⟩ :=
    @addDynRule_cases _ _ now id .limit (.parent p) malloc zalloc h
  · rcases hadd with hadd | ⟨halloc, hadd⟩
    · rw [hadd]
      exact hT₀
    · rw [hadd] at hb ⊢
      have hlen : T₀.entries.length + 1 < 2 ^ 32 := by
        have hlen := hb.entries
        rwa [h.link_entries.length_eq, List.length_cons] at hlen
      have ho : DynOwner.Fits S T₀ .limit (.parent p) := ⟨rfl, hp, htype⟩
      refine h.link ho halloc hlen fun p' hsess => ?_
      have hroom := hb.sessions p'
      rwa [h.link_sessions ho, if_pos hsess] at hroom
  · rw [hnil] at hp
    exact absurd hp List.not_mem_nil

/-- `lookup_dyn_parent` finds or makes a parent of the rule. -/
theorem lookupDynParent_spec {id : FlowId} (h : T.Inv S) (hr : r ∈ S)
    (hlen : T.entries.length + 1 < 2 ^ 32) :
    (lookupDynParent M id r now T).2.Inv S ∧
      ∀ q, (lookupDynParent M id r now T).1 = some q →
        q ∈ (lookupDynParent M id r now T).2.entries ∧
          ((lookupDynParent M id r now T).2.ent q).dynType = .limitParent ∧
          ((lookupDynParent M id r now T).2.ent q).rule = r := by
  unfold lookupDynParent
  split
  next q hfind =>
    split_ifs at hfind
    have hq := h.mem (List.mem_of_find?_eq_some hfind)
    have hpar := List.find?_some hfind
    simp only [isParent, Bool.and_eq_true, decide_eq_true_eq] at hpar
    obtain ⟨⟨⟨⟨⟨htype, hrule⟩, -⟩, -⟩, -⟩, -⟩ := hpar
    have halike : Alike T (T.modify q fun e => { e with expire := now + T.shortLifetime }) := by
      refine .modify (fun e => ?_) T q
      exact ⟨rfl, rfl, rfl, rfl, rfl⟩
    refine ⟨halike.inv h, ?_⟩
    rintro q' hq'
    obtain rfl := Option.some.inj hq'
    refine ⟨halike.entries.mem_iff.2 hq, ?_, ?_⟩
    · rw [(halike.ent q).dynType]
      exact htype
    · rw [(halike.ent q).rule]
      exact hrule.symm
  next => exact addDynRule_rule h hr (by decide) hlen

/-- An `O_LIMIT` fails, or it makes a session of a parent that has fewer than the limit. -/
theorem installLimit_cases (h : T.Inv S) (hr : r ∈ S) (hlen : T.entries.length + 1 < 2 ^ 32) :
    ∃ T₂, T₂.Inv S ∧
      Shrinks (lookupDynParent M (maskedFlow (cmd.extractLsb' 8 8) pkt junk) r now T).2 T₂ ∧
      (installLimit M r cmd tablearg pkt junk now T = (true, T₂) ∨
        ∃ p, (lookupDynParent M (maskedFlow (cmd.extractLsb' 8 8) pkt junk) r now T).1 = some p ∧
          p ∈ T₂.entries ∧ (T₂.ent p).dynType = .limitParent ∧ (T₂.ent p).rule = r ∧
          (T₂.ent p).count.toNat < (connLimit cmd tablearg).toNat ∧
          installLimit M r cmd tablearg pkt junk now T =
            (false, (addDynRule M.malloc M.zalloc pkt .limit (.parent p) now T₂).2)) := by
  unfold installLimit
  dsimp only
  have hspec :=
    @lookupDynParent_spec _ _ now _ M (maskedFlow (cmd.extractLsb' 8 8) pkt junk) h hr hlen
  generalize lookupDynParent M (maskedFlow (cmd.extractLsb' 8 8) pkt junk) r now T = x at hspec ⊢
  obtain ⟨o, T₁⟩ := x
  dsimp only at hspec
  obtain ⟨hT₁, hparent⟩ := hspec
  cases o with
  | none => exact ⟨T₁, hT₁, .refl T₁, .inl rfl⟩
  | some p =>
    obtain ⟨hp, htype, hrule⟩ := hparent p rfl
    dsimp only
    generalize hT₂ : (if connLimit cmd tablearg ≤ (T₁.ent p).count.setWidth 32 then
      removeDynRule (some r) (some p) false now T₁ else T₁) = T₂
    -- The parent stays where it is while expired entries go.
    have hkeep : T₂.Inv S ∧ Shrinks T₁ T₂ ∧ p ∈ T₂.entries := by
      rw [← hT₂]
      split_ifs
      · obtain ⟨T', halike, hun⟩ := @removeDynRule_spec _ now (some r) (some p) false hT₁.tidy
        exact ⟨hun.inv (halike.inv hT₁), halike.shrinks.trans hun.shrinks,
          hun.entries (fun h => h rfl) (halike.entries.mem_iff.2 hp)⟩
      · exact ⟨hT₁, .refl T₁, hp⟩
    obtain ⟨hT₂, hshrinks, hp⟩ := hkeep
    refine ⟨T₂, hT₂, hshrinks, ?_⟩
    split_ifs with hfull
    · exact .inl rfl
    · refine .inr ⟨p, rfl, hp, ?_, ?_, ?_, rfl⟩
      · rw [hshrinks.dynType]
        exact htype
      · rw [hshrinks.rule]
        exact hrule
      · rw [BitVec.not_le, BitVec.lt_def, BitVec.toNat_setWidth] at hfull
        have := (T₂.ent p).count.isLt
        omega

/-- `ipfw_install_state` fails, or it makes an entry of the kind of its instruction. -/
theorem installEntry_cases (h : T.Inv S) :
    ∃ T₁, T₁.Inv S ∧ Shrinks T T₁ ∧
      (installEntry M r op cmd tablearg pkt junk now T = (true, T₁) ∨
        T₁.entries.length + 1 < 2 ^ 32 ∧
          (op = .keepState ∧ installEntry M r op cmd tablearg pkt junk now T =
              (false, (addDynRule M.malloc M.zalloc pkt .keepState (.rule r) now T₁).2) ∨
            op = .limit ∧ installEntry M r op cmd tablearg pkt junk now T =
              installLimit M r cmd tablearg pkt junk now T₁)) := by
  unfold installEntry
  dsimp only
  generalize hT₁ : (if T.max ≤ T.count then removeDynRule none none false now T else T) = T₁
  have hinv : T₁.Inv S ∧ Shrinks T T₁ := by
    rw [← hT₁]
    split_ifs
    · exact ⟨removeDynRule_inv h, removeDynRule_shrinks h.tidy⟩
    · exact ⟨h, .refl T⟩
  refine ⟨T₁, hinv.1, hinv.2, ?_⟩
  split_ifs with hmax hkeep hlimit
  · exact .inl rfl
  all_goals
    have hlen : T₁.entries.length + 1 < 2 ^ 32 := by
      rw [BitVec.not_le, BitVec.lt_def, hinv.1.count] at hmax
      have := T₁.max.isLt
      omega
  · exact .inr ⟨hlen, .inl ⟨hkeep, rfl⟩⟩
  · exact .inr ⟨hlen, .inr ⟨hlimit, rfl⟩⟩
  · exact .inl rfl

theorem installEntry_inv (h : T.Inv S) (hr : r ∈ S)
    (hb : (installEntry M r op cmd tablearg pkt junk now T).2.Bounded) :
    (installEntry M r op cmd tablearg pkt junk now T).2.Inv S := by
  obtain ⟨T₁, hT₁, -, heq | ⟨hlen, ⟨-, heq⟩ | ⟨-, heq⟩⟩⟩ :=
    @installEntry_cases _ _ now r M pkt junk cmd tablearg op h
  · rw [heq]
    exact hT₁
  · rw [heq]
    exact (addDynRule_rule hT₁ hr (by decide) hlen).1
  · rw [heq] at hb ⊢
    obtain ⟨T₂, hT₂, -, heq | ⟨p, -, hp, htype, -, -, heq⟩⟩ :=
      @installLimit_cases _ _ now _ M pkt junk cmd tablearg hT₁ hr hlen
    · rw [heq]
      exact hT₂
    · rw [heq] at hb ⊢
      exact addDynRule_parent hT₂ hp htype hb

/-- A packet leaves room if the limit fits in the count of a parent, and the entries in memory. -/
theorem installEntry_bounded (h : T.Inv S) (hr : r ∈ S)
    (hlimit : op = .limit → (connLimit cmd tablearg).toNat < 2 ^ 16)
    (hlen : (installEntry M r op cmd tablearg pkt junk now T).2.entries.length < 2 ^ 32) :
    (installEntry M r op cmd tablearg pkt junk now T).2.Bounded := by
  refine ⟨hlen, ?_⟩
  obtain ⟨T₁, hT₁, -, heq | ⟨hlen₁, ⟨-, heq⟩ | ⟨hop, heq⟩⟩⟩ :=
    @installEntry_cases _ _ now r M pkt junk cmd tablearg op h
  · rw [heq]
    exact hT₁.sessions_lt
  · rw [heq]
    exact (addDynRule_rule hT₁ hr (by decide) hlen₁).1.sessions_lt
  · rw [heq]
    obtain ⟨T₂, hT₂, -, heq | ⟨p, -, hp, htype, -, hroom, heq⟩⟩ :=
      @installLimit_cases _ _ now _ M pkt junk cmd tablearg hT₁ hr hlen₁
    · rw [heq]
      exact hT₂.sessions_lt
    · rw [heq]
      obtain ⟨T₀, hT₀, hsame, hadd⟩ :=
        @addDynRule_cases _ _ now pkt .limit (.parent p) M.malloc M.zalloc hT₂
      obtain rfl : T₀ = T₂ := by
        refine hsame.resolve_right fun hnil => ?_
        rw [hnil.1] at hp
        exact List.not_mem_nil hp
      rcases hadd with hadd | ⟨-, hadd⟩
      · rw [hadd]
        exact hT₂.sessions_lt
      · rw [hadd]
        have ho : DynOwner.Fits S T₀ .limit (.parent p) := ⟨rfl, hp, htype⟩
        intro p'
        rw [hT₂.link_sessions ho]
        split_ifs with hsess
        · obtain ⟨-, hpp⟩ := DynRule.sessionOf_iff.1 hsess
          change p = p' at hpp
          subst hpp
          rw [← hT₂.sessions p hp htype]
          exact Nat.lt_of_le_of_lt hroom (hlimit hop)
        · exact hT₂.sessions_lt p'

/-- A packet that makes a new entry leaves room. -/
def InstallBounded (M : DynMem) (r : RulePtr) (op : Opcode) (cmd tablearg : BitVec 32)
    (pkt junk : FlowId) (now : BitVec 32) (T : DynTable) : Prop :=
  (lookupDynRuleLocked pkt none now T).1 = none →
    (installEntry M r op cmd tablearg pkt junk now (lookupDynRuleLocked pkt none now T).2).2.Bounded

/-- **`ipfw_install_state`** keeps the invariant. -/
theorem installState_inv (h : T.Inv S) (hr : r ∈ S)
    (hb : InstallBounded M r op cmd tablearg pkt junk now T) :
    (installState M r op cmd tablearg pkt junk now T).2.Inv S := by
  unfold installState
  unfold InstallBounded at hb
  have hlook := @lookupDynRuleLocked_inv _ _ now pkt none h
  generalize lookupDynRuleLocked pkt none now T = x at hb hlook ⊢
  obtain ⟨o, T₁⟩ := x
  cases o with
  | some x => exact hlook
  | none =>
    have hinv := installEntry_inv hlook hr (hb rfl)
    dsimp only at hinv ⊢
    split_ifs
    · exact hinv
    · exact lookupDynRuleLocked_inv hinv

end install

end Ipfw
