import Dummynet.Ipfw.Ruleset

/-!
# The order of the rules

In every reachable ruleset the rules are in the order of their numbers and ids, with the default rule
at the end.

## Main definitions

* `Ruleset.Inv`: what the operations keep.
* `Inserted`: where `ipfw_add_rule` puts a rule.
* `Ruleset.InOrder`: the order of the rules, and what it means for lookups and new rules.

## Main results

* `ipfwAddRule_inserted`, `delEntry_cases`: the operations.
* `Ruleset.Reach.inOrder`: every reachable ruleset is in order.
-/

namespace Ipfw

variable {s t : Ruleset} {C : Chain} {f g d : RulePtr} {key : ℕ} {id : BitVec 32} {i j : ℕ}
  {r : IpFw} {l : List RulePtr} {err : ℕ}

/-- The memory that the rules of a list take. -/
def Chain.size (C : Chain) (l : List RulePtr) : ℕ := (l.map fun f => (C.rule f).ruleSize).sum

/-- The rules are in order, the default rule is the last one, ids are not ahead of the generation,
and `static_len` counts the memory of the rules. -/
structure Ruleset.Inv (s : Ruleset) : Prop where
  sorted : s.chain.Sorted
  last : ∃ l, s.chain.map = l ++ [s.defaultRule] ∧
    ∀ f ∈ l, (s.chain.rule f).rulenum.toNat < ipfwDefaultRule
  default : (s.chain.rule s.defaultRule).rulenum.toNat = ipfwDefaultRule
  ids : ∀ f ∈ s.chain.map, (s.chain.rule f).id ≤ s.chain.id
  lt : ∀ f ∈ s.chain.map, f < s.brk
  staticLen : s.staticLen = BitVec.ofNat 32 (s.chain.size s.chain.map)

/-! ### Lookups -/

theorem Chain.mem_take (hf : f ∈ C.map.take i) : ∃ j < i, j < C.nRules ∧ C.at j = f := by
  obtain ⟨j, hj, rfl⟩ := List.mem_iff_getElem.1 hf
  rw [List.length_take] at hj
  refine ⟨j, by omega, by unfold Chain.nRules; omega, ?_⟩
  rw [List.getElem_take]
  unfold Chain.at
  rw [List.getD_eq_getElem _ _ (by omega)]

theorem Chain.mem_drop (hf : f ∈ C.map.drop i) : ∃ j, i ≤ j ∧ j < C.nRules ∧ C.at j = f := by
  obtain ⟨j, hj, rfl⟩ := List.mem_iff_getElem.1 hf
  rw [List.length_drop] at hj
  refine ⟨i + j, by omega, by unfold Chain.nRules; omega, ?_⟩
  rw [List.getElem_drop]
  unfold Chain.at
  rw [List.getD_eq_getElem _ _ (by omega)]

/-- The rules before the position that is found. -/
theorem Chain.Sorted.below_of_take (hs : C.Sorted) (hf : f ∈ C.map.take (ipfwFindRule C key id)) :
    (C.rule f).Below key id := by
  obtain ⟨j, hj, -, rfl⟩ := Chain.mem_take hf
  exact (ipfwFindRule_spec hs key id).2.1 j hj

theorem Chain.at_last (hmap : C.map = l ++ [d]) : C.at (C.nRules - 1) = d := by
  unfold Chain.at Chain.nRules
  rw [hmap, List.getD_eq_getElem _ _ (by simp)]
  simp

/-- The rules from the position on that is found, if the last rule does not come before the key. -/
theorem Chain.Sorted.not_below_of_drop (hs : C.Sorted) (hmap : C.map = l ++ [d])
    (hd : ¬ (C.rule d).Below key id) (hf : f ∈ C.map.drop (ipfwFindRule C key id)) :
    ¬ (C.rule f).Below key id := by
  obtain ⟨j, hj, hlt, rfl⟩ := Chain.mem_drop hf
  obtain ⟨hle, -, hlast⟩ := ipfwFindRule_spec hs key id
  have hfirst : ¬ (C.rule (C.at (ipfwFindRule C key id))).Below key id := by
    rcases hle.eq_or_lt with heq | hlt'
    · rw [heq, Chain.at_last hmap]
      exact hd
    · exact hlast hlt'
  intro hb
  rcases hj.eq_or_lt with rfl | hlt'
  · exact hfirst hb
  · exact hfirst ((hs.before hlt' hlt).below hb)

/-! ### New rules -/

/-- The rule `r` is inserted with the number `num`, after the rules with smaller and equal numbers. -/
structure Inserted (s t : Ruleset) (r : IpFw) (num : BitVec 16) (before after : List RulePtr) :
    Prop where
  map : s.chain.map = before ++ after
  map' : t.chain.map = before ++ s.brk :: after
  given : r.rulenum ≠ 0 → num = r.rulenum
  lt : num.toNat < ipfwDefaultRule
  le : ∀ g ∈ before, (s.chain.rule g).rulenum ≤ num
  gt : ∀ g ∈ after, num < (s.chain.rule g).rulenum
  rule : t.chain.rule = Function.update s.chain.rule s.brk
    ⟨r.actOfs, r.cmdLen, num, r.set, s.chain.id + 1⟩
  gen : t.chain.id = s.chain.id + 1
  default : t.defaultRule = s.defaultRule
  brk : t.brk = s.brk + 1
  staticLen : t.staticLen = s.staticLen + BitVec.ofNat 32 r.ruleSize

theorem boundStep_mem (step : ℤ) : 1 ≤ boundStep step ∧ boundStep step ≤ 1000 := by
  unfold boundStep
  split_ifs <;> omega

theorem autoNumber_spec {prev : BitVec 16} (hprev : prev.toNat < ipfwDefaultRule) (step : ℤ) :
    prev ≤ autoNumber prev (boundStep step) ∧
      (autoNumber prev (boundStep step)).toNat < ipfwDefaultRule := by
  obtain ⟨hlo, hhi⟩ := boundStep_mem step
  unfold autoNumber
  split_ifs with hlt
  · obtain ⟨m, hm⟩ := Int.eq_ofNat_of_zero_le (by omega : 0 ≤ boundStep step)
    rw [hm] at hlt hlo hhi ⊢
    rw [BitVec.ofInt_natCast, BitVec.le_def, BitVec.toNat_add, BitVec.toNat_ofNat]
    simp only [ipfwDefaultRule] at *
    omega
  · exact ⟨BitVec.le_refl _, hprev⟩

/-- **`ipfw_add_rule`.** -/
theorem ipfwAddRule_inserted {ruleOk mapOk : Bool} (hs : s.Inv)
    (h : ipfwAddRule s r ruleOk mapOk = (err, t)) :
    err ≠ 0 ∧ t = s ∨ err = 0 ∧ ∃ num before after, Inserted s t r num before after := by
  unfold ipfwAddRule at h
  dsimp only at h
  split at h
  · obtain ⟨rfl, rfl⟩ := Prod.mk.inj h
    exact .inl ⟨by decide, rfl⟩
  next hbig =>
  split at h
  · obtain ⟨rfl, rfl⟩ := Prod.mk.inj h
    exact .inl ⟨by decide, rfl⟩
  split at h
  · obtain ⟨rfl, rfl⟩ := Prod.mk.inj h
    exact .inl ⟨by decide, rfl⟩
  obtain ⟨rfl, rfl⟩ := Prod.mk.inj h
  obtain ⟨l, hl, hlt⟩ := hs.last
  refine .inr ⟨rfl, ?_⟩
  by_cases hzero : r.rulenum = 0
  · -- before the default rule, with a number from the rule before it
    rw [if_neg (not_not.2 hzero), if_pos hzero]
    set i := ipfwFindRule s.chain ipfwDefaultRule 0 with hi
    set prev := if 0 < i then (s.chain.rule (s.chain.at (i - 1))).rulenum else 0 with hprev
    have htake : ∀ g ∈ s.chain.map.take i, (s.chain.rule g).rulenum.toNat < ipfwDefaultRule :=
      fun g hg => Rule.below_zero.1 (hs.sorted.below_of_take hg)
    have hdrop : ∀ g ∈ s.chain.map.drop i, ¬ (s.chain.rule g).rulenum.toNat < ipfwDefaultRule :=
      fun g hg => fun hb => hs.sorted.not_below_of_drop hl
        (by rw [Rule.below_zero, hs.default]; exact lt_irrefl _) hg (Rule.below_zero.2 hb)
    have hle : ∀ j < i, (s.chain.rule (s.chain.at j)).rulenum ≤ prev := by
      intro j hj
      have hn := (ipfwFindRule_spec hs.sorted ipfwDefaultRule 0).1
      rw [hprev, if_pos (by omega)]
      rcases Nat.lt_or_ge j (i - 1) with hlt' | hge
      · rcases hs.sorted.before hlt' (by omega) with hb | ⟨hb, -⟩
        · exact BitVec.le_of_lt hb
        · exact hb ▸ BitVec.le_refl _
      · obtain rfl : j = i - 1 := by omega
        exact BitVec.le_refl _
    have hprevlt : prev.toNat < ipfwDefaultRule := by
      rw [hprev]
      split_ifs with hpos
      · exact Rule.below_zero.1 ((ipfwFindRule_spec hs.sorted ipfwDefaultRule 0).2.1 _ (by omega))
      · decide
    obtain ⟨hge, hnum⟩ := autoNumber_spec hprevlt s.autoincStep
    refine ⟨_, s.chain.map.take i, s.chain.map.drop i, (List.take_append_drop ..).symm, rfl,
      fun h => absurd hzero h, hnum, fun g hg => ?_, fun g hg => ?_, rfl, rfl, rfl, rfl, rfl⟩
    · obtain ⟨j, hj, -, rfl⟩ := Chain.mem_take hg
      exact BitVec.le_trans (hle j hj) hge
    · exact BitVec.lt_def.2 (hnum.trans_le (not_lt.1 (hdrop g hg)))
  · rw [if_pos hzero, if_neg hzero]
    have hmax : r.rulenum.toNat < ipfwDefaultRule := by
      simp only [ipfwDefaultRule] at *
      omega
    refine ⟨_, _, _, (List.take_append_drop (ipfwFindRule s.chain (r.rulenum.toNat + 1) 0) _).symm,
      rfl, fun _ => rfl, hmax, fun g hg => ?_, fun g hg => ?_, rfl, rfl, rfl, rfl, rfl⟩
    · have hb := Rule.below_zero.1 (hs.sorted.below_of_take hg)
      exact BitVec.le_def.2 (by omega)
    · have hb := hs.sorted.not_below_of_drop hl
        (by rw [Rule.below_zero, hs.default]; omega) hg
      rw [Rule.below_zero] at hb
      exact BitVec.lt_def.2 (by omega)

theorem Chain.size_append (C : Chain) (l l' : List RulePtr) :
    C.size (l ++ l') = C.size l + C.size l' := by
  unfold Chain.size
  rw [List.map_append, List.sum_append]

theorem Chain.size_cons (C : Chain) (f : RulePtr) (l : List RulePtr) :
    C.size (f :: l) = (C.rule f).ruleSize + C.size l := by
  unfold Chain.size
  rw [List.map_cons, List.sum_cons]

theorem Chain.size_filter (C : Chain) (keep : RulePtr → Bool) (l : List RulePtr) :
    C.size l = C.size (l.filter keep) + C.size (l.filter fun f => !keep f) := by
  induction l with
  | nil => rfl
  | cons f fs ih =>
    rw [Chain.size_cons, List.filter_cons, List.filter_cons]
    cases keep f
    · rw [if_neg (by simp), if_pos (by simp), Chain.size_cons]
      omega
    · rw [if_pos rfl, if_neg (by simp), Chain.size_cons]
      omega

theorem Chain.size_congr {C' : Chain} (h : ∀ f ∈ l, (C'.rule f).ruleSize = (C.rule f).ruleSize) :
    C'.size l = C.size l :=
  congrArg List.sum (List.map_congr_left h)

namespace Inserted

variable {num : BitVec 16} {before after : List RulePtr}

theorem rule_old (h : Inserted s t r num before after) (hs : s.Inv) (hg : g ∈ s.chain.map) :
    t.chain.rule g = s.chain.rule g := by
  rw [h.rule, Function.update_of_ne (hs.lt g hg).ne]

theorem rule_new (h : Inserted s t r num before after) :
    t.chain.rule s.brk = ⟨r.actOfs, r.cmdLen, num, r.set, s.chain.id + 1⟩ := by
  rw [h.rule, Function.update_self]

/-- The new rule has the largest id. -/
theorem inv (h : Inserted s t r num before after) (hs : s.Inv) (hid : s.chain.id ≤ t.chain.id) :
    t.Inv := by
  obtain ⟨l, hl, hlt⟩ := hs.last
  have hgen : s.chain.id < t.chain.id := by
    rw [h.gen] at hid ⊢
    rcases Nat.lt_or_eq_of_le (BitVec.le_def.1 hid) with hlt | heq
    · exact BitVec.lt_def.2 hlt
    · exact absurd (BitVec.eq_of_toNat_eq heq) (by simp)
  have hmem : ∀ g ∈ before ++ after, g ∈ s.chain.map := fun g hg => h.map ▸ hg
  have hbefore : ∀ g ∈ before, g ∈ s.chain.map := fun g hg => hmem g (List.mem_append_left _ hg)
  have hafter : ∀ g ∈ after, g ∈ s.chain.map := fun g hg => hmem g (List.mem_append_right _ hg)
  have hsorted := hs.sorted
  unfold Chain.Sorted at hsorted
  rw [h.map, List.pairwise_append] at hsorted
  obtain ⟨hb, ha, hba⟩ := hsorted
  have hnew : ∀ g ∈ before, (s.chain.rule g).Before (t.chain.rule s.brk) := by
    intro g hg
    rw [h.rule_new]
    rcases Nat.lt_or_eq_of_le (BitVec.le_def.1 (h.le g hg)) with hlt | heq
    · exact .inl (BitVec.lt_def.2 hlt)
    · refine .inr ⟨BitVec.eq_of_toNat_eq heq, ?_⟩
      rw [← h.gen]
      exact BitVec.lt_def.2 ((BitVec.le_def.1 (hs.ids g (hbefore g hg))).trans_lt
        (BitVec.lt_def.1 hgen))
  refine ⟨?_, ?_, ?_, fun f hf => ?_, fun f hf => ?_, ?_⟩
  · unfold Chain.Sorted
    rw [h.map', List.pairwise_append, List.pairwise_cons]
    refine ⟨hb.imp_of_mem fun hf hg hfg => ?_, ⟨fun g hg => ?_, ha.imp_of_mem fun hf hg hfg => ?_⟩,
      fun f hf g hg => ?_⟩
    · rwa [h.rule_old hs (hbefore _ hf), h.rule_old hs (hbefore _ hg)]
    · rw [h.rule_new, h.rule_old hs (hafter _ hg)]
      exact .inl (h.gt g hg)
    · rwa [h.rule_old hs (hafter _ hf), h.rule_old hs (hafter _ hg)]
    · rw [h.rule_old hs (hbefore _ hf)]
      rcases List.mem_cons.1 hg with rfl | hg
      · exact hnew f hf
      · rw [h.rule_old hs (hafter _ hg)]
        exact hba f hf g hg
  · -- the default rule has a larger number than the new one
    have hd : s.defaultRule ∈ after := by
      have hin : s.defaultRule ∈ before ++ after := by
        rw [← h.map, hl]
        simp
      rcases List.mem_append.1 hin with hin | hin
      · have hle := BitVec.le_def.1 (h.le _ hin)
        rw [hs.default] at hle
        exact absurd h.lt (not_lt.2 hle)
      · exact hin
    obtain ⟨after', hafter'⟩ : ∃ after', after = after' ++ [s.defaultRule] := by
      rcases List.eq_nil_or_concat after with rfl | ⟨after', x, rfl⟩
      · exact absurd hd List.not_mem_nil
      · refine ⟨after', ?_⟩
        have hend := h.map.symm.trans hl
        rw [List.concat_eq_append, ← List.append_assoc] at hend
        rw [List.concat_eq_append, (List.append_inj' hend rfl).2]
    refine ⟨before ++ s.brk :: after', ?_, fun f hf => ?_⟩
    · rw [h.map', h.default, hafter', List.append_assoc]
      rfl
    · rcases List.mem_append.1 hf with hf | hf
      · rw [h.rule_old hs (hbefore f hf)]
        exact (BitVec.le_def.1 (h.le f hf)).trans_lt h.lt
      · rcases List.mem_cons.1 hf with rfl | hf
        · rw [h.rule_new]
          exact h.lt
        · have hin : f ∈ s.chain.map := hafter f (by rw [hafter']; exact List.mem_append_left _ hf)
          rw [h.rule_old hs hin]
          refine hlt f ?_
          have hend := h.map.symm.trans hl
          rw [hafter', ← List.append_assoc] at hend
          rw [← (List.append_inj' hend rfl).1]
          exact List.mem_append_right _ hf
  · rw [h.default, h.rule_old hs (by rw [hl]; simp)]
    exact hs.default
  · rw [h.map'] at hf
    rcases List.mem_append.1 hf with hf | hf
    · rw [h.rule_old hs (hbefore f hf)]
      exact BitVec.le_trans (hs.ids f (hbefore f hf)) hid
    · rcases List.mem_cons.1 hf with rfl | hf
      · rw [h.rule_new, h.gen]
        exact BitVec.le_refl _
      · rw [h.rule_old hs (hafter f hf)]
        exact BitVec.le_trans (hs.ids f (hafter f hf)) hid
  · rw [h.map'] at hf
    rw [h.brk]
    rcases List.mem_append.1 hf with hf | hf
    · exact (hs.lt f (hbefore f hf)).trans (Nat.lt_succ_self _)
    · rcases List.mem_cons.1 hf with rfl | hf
      · exact Nat.lt_succ_self _
      · exact (hs.lt f (hafter f hf)).trans (Nat.lt_succ_self _)
  · have hold : ∀ l : List RulePtr, (∀ f ∈ l, f ∈ s.chain.map) →
        t.chain.size l = s.chain.size l :=
      fun l hl => Chain.size_congr fun f hf => by rw [h.rule_old hs (hl f hf)]
    have hsize : (t.chain.rule s.brk).ruleSize = r.ruleSize := by
      rw [h.rule_new]
      rfl
    rw [h.staticLen, hs.staticLen, h.map, h.map', Chain.size_append, Chain.size_append,
      Chain.size_cons, hsize, hold before hbefore, hold after hafter, ← BitVec.ofNat_add]
    congr 1
    omega

end Inserted

/-! ### Rules go -/

/-- Some rules are deleted, but not the default rule. -/
structure Thinned (s t : Ruleset) (reap : List RulePtr) : Prop where
  rule : t.chain.rule = s.chain.rule
  sub : t.chain.map.Sublist s.chain.map
  keep : s.defaultRule ∈ t.chain.map
  gen : t.chain.id = s.chain.id + 1
  default : t.defaultRule = s.defaultRule
  brk : t.brk = s.brk
  words : t.words = s.words
  cache : t.cache = s.cache
  setDisable : t.setDisable = s.setDisable
  size : s.chain.size s.chain.map = s.chain.size t.chain.map + s.chain.size reap
  staticLen : t.staticLen = s.staticLen - BitVec.ofNat 32 (s.chain.size reap)

theorem Thinned.inv {reap : List RulePtr} (h : Thinned s t reap) (hs : s.Inv)
    (hid : s.chain.id ≤ t.chain.id) : t.Inv := by
  obtain ⟨l, hl, hlt⟩ := hs.last
  have hmem : ∀ f ∈ t.chain.map, f ∈ s.chain.map := fun f hf => h.sub.subset hf
  refine ⟨?_, ?_, ?_, fun f hf => ?_, fun f hf => ?_, ?_⟩
  · unfold Chain.Sorted
    rw [h.rule]
    exact hs.sorted.sublist h.sub
  · have hsub := h.sub
    rw [hl] at hsub
    obtain ⟨l₁, l₂, hmap, hl₁, hl₂⟩ := List.sublist_append_iff.1 hsub
    rcases List.sublist_singleton.1 hl₂ with rfl | rfl
    · have hd := h.keep
      rw [hmap, List.append_nil] at hd
      exact absurd hs.default (hlt _ (hl₁.subset hd)).ne
    · refine ⟨l₁, by rw [hmap, h.default], fun f hf => ?_⟩
      rw [h.rule]
      exact hlt f (hl₁.subset hf)
  · rw [h.rule, h.default]
    exact hs.default
  · rw [h.rule]
    exact BitVec.le_trans (hs.ids f (hmem f hf)) hid
  · rw [h.brk]
    exact hs.lt f (hmem f hf)
  · have hsize : t.chain.size t.chain.map = s.chain.size t.chain.map := by
      unfold Chain.size
      rw [h.rule]
    rw [h.staticLen, hs.staticLen, h.size, hsize, BitVec.ofNat_add]
    exact BitVec.add_sub_cancel ..

theorem keepRule_default {r : Rule} (h : r.rulenum.toNat = ipfwDefaultRule) (cmd set : BitVec 8)
    (n : ℕ) : keepRule r cmd set n = true := by
  unfold keepRule
  rw [decide_eq_true h]
  rfl

theorem scanSet_le {keep : RulePtr → Bool} {p : Span} (h : p.start ≤ p.stop) (hi : p.start ≤ i) :
    (scanSet keep i l p).start ≤ (scanSet keep i l p).stop := by
  induction l generalizing i p with
  | nil => exact h
  | cons f fs ih =>
    unfold scanSet
    split_ifs
    · exact ih h (by omega)
    · refine ih ?_ ?_ <;> dsimp only <;> omega
    · refine ih ?_ ?_ <;> dsimp only <;> omega

theorem scanNum_le {keep : RulePtr → Bool} {num : ℕ} {p : Span} (h : p.start ≤ p.stop) :
    (scanNum C keep num l p).start ≤ (scanNum C keep num l p).stop := by
  induction l generalizing p with
  | nil => exact h
  | cons f fs ih =>
    unfold scanNum
    split_ifs
    · exact h
    · exact ih (h.trans (Nat.le_succ _))
    · exact ih (h.trans (Nat.le_succ _))

/-- A list in three pieces. -/
theorem take_drop_pieces (l : List RulePtr) (h : i ≤ j) :
    l.take i ++ ((l.drop i).take (j - i) ++ l.drop j) = l := by
  have hdrop : l.drop j = (l.drop i).drop (j - i) := by rw [List.drop_drop, Nat.add_sub_cancel' h]
  rw [hdrop, List.take_append_drop]
  exact List.take_append_drop ..

/-- **Rules are deleted**, or nothing changes. -/
theorem deleteSpan_cases {keep : RulePtr → Bool} {p : Span} {all mapOk : Bool} (hs : s.Inv)
    (hkeep : keep s.defaultRule = true) (hp : p.start ≤ p.stop)
    (h : deleteSpan s keep p all mapOk = (err, t)) :
    t = s ∨ ∃ reap, Thinned s t reap := by
  unfold deleteSpan at h
  dsimp only at h
  split at h
  · obtain ⟨-, rfl⟩ := Prod.mk.inj h
    exact .inl rfl
  split at h
  · obtain ⟨-, rfl⟩ := Prod.mk.inj h
    exact .inl rfl
  obtain ⟨-, rfl⟩ := Prod.mk.inj h
  -- the map in three pieces
  set a := s.chain.map.take p.start with ha
  set b := (s.chain.map.drop p.start).take (p.stop - p.start) with hb
  set c := s.chain.map.drop p.stop with hc
  have hmap : s.chain.map = a ++ (b ++ c) := (take_drop_pieces _ hp).symm
  refine .inr ⟨b.filter fun f => !keep f, rfl, ?_, ?_, rfl, rfl, rfl, rfl, rfl, rfl, ?_, rfl⟩
  · rw [hmap]
    change (a ++ b.filter keep ++ c).Sublist _
    rw [List.append_assoc]
    exact (List.Sublist.refl a).append (List.filter_sublist.append (.refl c))
  · obtain ⟨l, hl, -⟩ := hs.last
    have hd : s.defaultRule ∈ a ++ (b ++ c) := by
      rw [← hmap, hl]
      simp
    change s.defaultRule ∈ a ++ b.filter keep ++ c
    simp only [List.mem_append, List.mem_filter] at hd ⊢
    rcases hd with hd | hd | hd
    · exact .inl (.inl hd)
    · exact .inl (.inr ⟨hd, hkeep⟩)
    · exact .inr hd
  · have hsplit := s.chain.size_filter keep b
    change s.chain.size s.chain.map = s.chain.size (a ++ b.filter keep ++ c) + _
    rw [hmap]
    simp only [Chain.size_append]
    omega

/-- Sets change, and nothing else. -/
theorem mapSets_inv (hs : s.Inv) (k : Rule → BitVec 8) :
    ({ s with chain := s.chain.mapSets k } : Ruleset).Inv := by
  have hrule : ∀ f, ((s.chain.mapSets k).rule f).rulenum = (s.chain.rule f).rulenum ∧
      ((s.chain.mapSets k).rule f).id = (s.chain.rule f).id ∧
      ((s.chain.mapSets k).rule f).ruleSize = (s.chain.rule f).ruleSize := by
    intro f
    unfold Chain.mapSets
    dsimp only
    split_ifs
    · exact ⟨rfl, rfl, rfl⟩
    · exact ⟨rfl, rfl, rfl⟩
  obtain ⟨l, hl, hlt⟩ := hs.last
  refine ⟨hs.sorted.imp fun {f g} hfg => ?_, ⟨l, hl, fun f hf => ?_⟩, ?_, fun f hf => ?_, hs.lt,
    ?_⟩
  · unfold Rule.Before
    rw [(hrule f).1, (hrule f).2.1, (hrule g).1, (hrule g).2.1]
    exact hfg
  · rw [(hrule f).1]
    exact hlt f hf
  · rw [(hrule _).1]
    exact hs.default
  · rw [(hrule f).2.1]
    exact hs.ids f hf
  · rw [hs.staticLen]
    exact congrArg _ (Chain.size_congr fun f _ => (hrule f).2.2).symm

/-- **`del_entry`** deletes rules, changes sets, or does nothing. -/
theorem delEntry_cases {arg : BitVec 32} {mapOk : Bool} (hs : s.Inv)
    (h : delEntry s arg mapOk = (err, t)) :
    t = s ∨ (∃ reap, Thinned s t reap) ∨ ∃ k, t = { s with chain := s.chain.mapSets k } := by
  have hspan : ∀ {keep : RulePtr → Bool} {p : Span}, keep s.defaultRule = true →
      p.start ≤ p.stop → deleteSpan s keep p (arg = 0) mapOk = (err, t) →
      t = s ∨ (∃ reap, Thinned s t reap) ∨ ∃ k, t = { s with chain := s.chain.mapSets k } := by
    intro keep p hkeep hp hdel
    rcases deleteSpan_cases hs hkeep hp hdel with rfl | ht
    · exact .inl rfl
    · exact .inr (.inl ht)
  have hsets : ∀ {k : Rule → BitVec 8}, (0, { s with chain := s.chain.mapSets k }) = (err, t) →
      t = s ∨ (∃ reap, Thinned s t reap) ∨ ∃ k, t = { s with chain := s.chain.mapSets k } := by
    intro k he
    exact .inr (.inr ⟨k, (Prod.mk.inj he).2.symm⟩)
  have hskip : (einval, s) = (err, t) →
      t = s ∨ (∃ reap, Thinned s t reap) ∨ ∃ k, t = { s with chain := s.chain.mapSets k } :=
    fun he => .inl (Prod.mk.inj he).2.symm
  unfold delEntry at h
  dsimp only at h
  split at h
  · exact hskip h
  split at h
  · exact hskip h
  split at h
  · exact hskip h
  split at h
  · refine hspan ?_ ?_ h
    · exact keepRule_default hs.default _ _ _
    · exact scanSet_le (p := ⟨0, 0, 0⟩) le_rfl le_rfl
  split at h
  · exact hsets h
  split at h
  · exact hsets h
  split at h
  · exact hsets h
  · refine hspan ?_ ?_ h
    · exact keepRule_default hs.default _ _ _
    · exact scanNum_le (p := ⟨_, _, _⟩) le_rfl

/-! ### Runs -/

theorem Ruleset.Inv.init (b : Bool) : (Ruleset.init b).Inv where
  sorted := List.pairwise_singleton ..
  last := ⟨[], rfl, by simp⟩
  default := rfl
  ids f _ := BitVec.le_refl _
  lt f hf := by
    obtain rfl := List.mem_singleton.1 hf
    exact Nat.zero_lt_one
  staticLen := rfl

/-- **One operation** keeps the invariant. -/
theorem Ruleset.Inv.step (hs : s.Inv) {op : RuleOp} (hid : s.chain.id ≤ (s.step op).chain.id) :
    (s.step op).Inv := by
  cases op with
  | add r ruleOk mapOk =>
    obtain ⟨err, t, ht⟩ : ∃ err t, ipfwAddRule s r ruleOk mapOk = (err, t) := ⟨_, _, rfl⟩
    change s.chain.id ≤ (ipfwAddRule s r ruleOk mapOk).2.chain.id at hid
    change (ipfwAddRule s r ruleOk mapOk).2.Inv
    rw [ht] at hid ⊢
    rcases ipfwAddRule_inserted hs ht with ⟨-, rfl⟩ | ⟨-, num, before, after, hins⟩
    · exact hs
    · exact hins.inv hs hid
  | del arg mapOk =>
    obtain ⟨err, t, ht⟩ : ∃ err t, delEntry s arg mapOk = (err, t) := ⟨_, _, rfl⟩
    change s.chain.id ≤ (delEntry s arg mapOk).2.chain.id at hid
    change (delEntry s arg mapOk).2.Inv
    rw [ht] at hid ⊢
    rcases delEntry_cases hs ht with rfl | ⟨reap, hthin⟩ | ⟨k, rfl⟩
    · exact hs
    · exact hthin.inv hs hid
    · exact mapSets_inv hs k
  | sets disable enable => exact { hs with }
  | autoinc step => exact { hs with }

theorem Ruleset.Reach.inv (h : s.Reach) : s.Inv := by
  induction h with
  | init b => exact .init b
  | step op _ hid ih => exact ih.step hid

/-- The rules are strictly increasing in their numbers and ids; the last one is the default rule, and
no other rule has its number; `static_len` is the memory that the rules take; a new rule is put after
the rules with smaller and equal numbers and before the others; and a lookup finds the first rule from
the key and the id on, or the default rule if there is none. -/
structure Ruleset.InOrder (s : Ruleset) : Prop where
  increasing : s.chain.map.Pairwise fun f g => (s.chain.rule f).Before (s.chain.rule g)
  last : s.chain.map.getLast? = some s.defaultRule
  default : ∀ f ∈ s.chain.map,
    (s.chain.rule f).rulenum.toNat = ipfwDefaultRule ↔ f = s.defaultRule
  staticLen : s.staticLen = BitVec.ofNat 32 (s.chain.map.map fun f => (s.chain.rule f).ruleSize).sum
  add : ∀ r ruleOk mapOk t, ipfwAddRule s r ruleOk mapOk = (0, t) →
    ∃ num before after, Inserted s t r num before after
  find : ∀ key id, ipfwFindRule s.chain key id < s.chain.nRules ∧
    (∀ j < ipfwFindRule s.chain key id, (s.chain.rule (s.chain.at j)).Below key id) ∧
    (¬ (s.chain.rule (s.chain.at (ipfwFindRule s.chain key id))).Below key id ∨
      s.chain.at (ipfwFindRule s.chain key id) = s.defaultRule ∧
        ∀ f ∈ s.chain.map, (s.chain.rule f).Below key id)

/-- **The order of the rules** in every reachable ruleset. -/
theorem Ruleset.Reach.inOrder (h : s.Reach) : s.InOrder := by
  have hs := h.inv
  obtain ⟨l, hl, hlt⟩ := hs.last
  have hpos : 0 < s.chain.nRules := by
    unfold Chain.nRules
    rw [hl]
    simp
  refine ⟨hs.sorted, by rw [hl, List.getLast?_concat], fun f hf => ⟨fun hnum => ?_, ?_⟩, hs.staticLen,
    fun r ruleOk mapOk t ht => ?_, fun key id => ?_⟩
  · rw [hl, List.mem_append, List.mem_singleton] at hf
    exact hf.resolve_left fun hf => (hlt f hf).ne hnum
  · rintro rfl
    exact hs.default
  · exact ((ipfwAddRule_inserted hs ht).resolve_left fun h => h.1 rfl).2
  · obtain ⟨hle, hall, hfirst⟩ := ipfwFindRule_spec hs.sorted key id
    refine ⟨by omega, hall, ?_⟩
    rcases hle.eq_or_lt with heq | hlt'
    · rw [heq, Chain.at_last hl]
      by_cases hb : (s.chain.rule s.defaultRule).Below key id
      · refine .inr ⟨rfl, fun f hf => ?_⟩
        rw [hl, List.mem_append, List.mem_singleton] at hf
        rcases hf with hf | rfl
        · have hsorted := hs.sorted
          unfold Chain.Sorted at hsorted
          rw [hl, List.pairwise_append] at hsorted
          exact (hsorted.2.2 f hf _ List.mem_cons_self).below hb
        · exact hb
      · exact .inl hb
    · exact .inl (hfirst hlt')

/-- Two rules are added, and the first one is deleted again. -/
theorem inOrder_of_three :
    ((((Ruleset.init false).step (.add default true true)).step (.add default true true)).step
      (.del 100 true)).InOrder :=
  Ruleset.Reach.inOrder (.step _ (.step _ (.step _ (.init false) (by decide)) (by decide))
    (by decide))

end Ipfw
