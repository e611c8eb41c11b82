import Dummynet.Ipfw.Order

/-!
# Deletion

`del_entry` finds the first rule to delete and the one after the last, and counts the rules to
delete in between. It copies the other rules into a map that has the size of what is left, and puts the
rules that go on the list `chain->reap`. These are exactly the rules that `keep_rule` does not
protect.

## Main definitions

* `delRules`: `del_entry` with the copies into the new map and with `chain->reap`.
* `Span.Exact`: a span covers the rules to delete, and counts them.
* `Deletes`: the rules that are selected go, and no other ones.

## Main results

* `delRules_delEntry`: what `delEntry` says is what the copies give.
* `delRules_deletes`: deletion removes exactly the rules that are selected.
-/

namespace Ipfw

variable {s t : Ruleset} {C : Chain} {f d : RulePtr} {key : ℕ} {i : ℕ} {l : List RulePtr} {err : ℕ}

/-! ### The copies -/

/-- A copy into the new map; `none` stands for one beyond its end. -/
def bcopyAt (src : List RulePtr) (ofs : ℕ) (map : List RulePtr) : Option (List RulePtr) :=
  if ofs + src.length ≤ map.length then
    some (map.take ofs ++ src ++ map.drop (ofs + src.length))
  else none

/-- Step 2: the active rules between `start` and `end`. -/
def copyActive (keep : RulePtr → Bool) :
    List RulePtr → ℕ → List RulePtr → Option (ℕ × List RulePtr)
  | [], ofs, map => some (ofs, map)
  | f :: fs, ofs, map =>
    if keep f then (bcopyAt [f] ofs map).bind (copyActive keep fs (ofs + 1))
    else copyActive keep fs ofs map

/-- Steps 1 to 3: the initial part of the map, the active rules and the final part. -/
def fillMap (C : Chain) (keep : RulePtr → Bool) (p : Span) (map : List RulePtr) :
    Option (List RulePtr) :=
  if C.nRules < p.stop then none
  else
    (bcopyAt (C.map.take p.start) 0 map).bind fun map =>
      (copyActive keep ((C.map.drop p.start).take (p.stop - p.start)) p.start map).bind
        fun (ofs, map) => bcopyAt (C.map.drop p.stop) ofs map

/-- Step 5: the rules that go leave `static_len` and are put on `chain->reap`. -/
def reapRules (C : Chain) (keep : RulePtr → Bool) :
    List RulePtr → BitVec 32 → List RulePtr → BitVec 32 × List RulePtr
  | [], len, reap => (len, reap)
  | f :: fs, len, reap =>
    if keep f then reapRules C keep fs len reap
    else reapRules C keep fs (len - BitVec.ofNat 32 (C.rule f).ruleSize) (f :: reap)

/-! ### The argument -/

/-- The command, in the top 8 bits. -/
def delCmd (arg : BitVec 32) : BitVec 8 := arg.extractLsb' 24 8

/-- The rule or set number, in the low 16 bits. -/
def delNum (arg : BitVec 32) : ℕ := (arg.extractLsb' 0 16).toNat

/-- The set of the rules to delete: command 1 has it in the low bits. -/
def delSet (arg : BitVec 32) : BitVec 8 :=
  if delCmd arg = 1 then BitVec.ofNat 8 (delNum arg) else arg.extractLsb' 16 8

/-- The checks of the argument. -/
def DelChecked (arg : BitVec 32) : Prop :=
  ¬ (5 < (delCmd arg).toNat ∨ resvdSet.toNat < (arg.extractLsb' 16 8).toNat) ∧
    if delCmd arg = 0 ∨ delCmd arg = 2 ∨ delCmd arg = 5 then delNum arg < ipfwDefaultRule
    else delNum arg ≤ resvdSet.toNat

instance (arg : BitVec 32) : Decidable (DelChecked arg) := inferInstanceAs (Decidable (_ ∧ _))

/-- `keep_rule`, as the copies ask for it. -/
def delKeep (C : Chain) (arg : BitVec 32) (f : RulePtr) : Bool :=
  keepRule (C.rule f) (delCmd arg) (delSet arg) (delNum arg)

/-- The rules to delete: their first position, the one after the last, their number. -/
def delSpan (C : Chain) (arg : BitVec 32) : Span :=
  if delCmd arg = 1 then
    scanSet (fun f => keepRule (C.rule f) (delCmd arg) (delSet arg) 0) 0 C.map ⟨0, 0, 0⟩
  else
    let start := ipfwFindRule C (delNum arg) 0
    scanNum C (delKeep C arg) (delNum arg) (C.map.drop start) ⟨start, start, 0⟩

/-- The commands 0, 1 and 5 of `del_entry`, with the copies into the new map and the list
`chain->reap`; `none` stands for a copy beyond the end of a map. The flag is the result of `malloc`
for the map. -/
def delRules (s : Ruleset) (arg : BitVec 32) (mapOk : Bool) :
    Option (ℕ × Ruleset × List RulePtr) :=
  let C := s.chain
  if ¬ DelChecked arg then some (einval, s, [])
  else
    let p := delSpan C arg
    if p.n = 0 then some (if arg = 0 then 0 else einval, s, [])
    else if !mapOk then some (einval, s, [])
    else
      (fillMap C (delKeep C arg) p (List.replicate (C.nRules - p.n) 0)).map fun map =>
        let out := reapRules C (delKeep C arg) ((C.map.drop p.start).take (p.stop - p.start))
          s.staticLen []
        (0, { s with chain := C.swapMap map, staticLen := out.1 }, out.2)

/-! ### What it says -/

/-- The rules are in the order of their numbers, and the default rule is the last one. -/
structure Chain.Numbered (C : Chain) : Prop where
  le : C.map.Pairwise fun f g => (C.rule f).rulenum.toNat ≤ (C.rule g).rulenum.toNat
  last : ∃ l d, C.map = l ++ [d] ∧ (C.rule d).rulenum.toNat = ipfwDefaultRule

/-- The rules that `keep_rule` does not protect. -/
def Chain.selected (C : Chain) (arg : BitVec 32) : List RulePtr :=
  C.map.filter fun f => !delKeep C arg f

/-- **The rules that are selected go**, and no other ones. -/
structure Deletes (s : Ruleset) (arg : BitVec 32) (err : ℕ) (t : Ruleset) (reap : List RulePtr) :
    Prop where
  quiet : s.chain.selected arg = [] → err = (if arg = 0 then 0 else einval) ∧ t = s ∧ reap = []
  deleted : s.chain.selected arg ≠ [] →
    err = 0 ∧
      t = { s with
        chain := s.chain.swapMap (s.chain.map.filter (delKeep s.chain arg))
        staticLen := s.staticLen - BitVec.ofNat 32 (s.chain.size (s.chain.selected arg)) } ∧
      reap = (s.chain.selected arg).reverse
  default : ∀ f ∈ s.chain.map, (s.chain.rule f).rulenum.toNat = ipfwDefaultRule → f ∈ t.chain.map

/-! ### The span -/

/-- The span covers the rules of the list that are not kept, and counts them. -/
structure Span.Exact (p : Span) (keep : RulePtr → Bool) (l : List RulePtr) : Prop where
  le : p.start ≤ p.stop
  stop_le : p.stop ≤ l.length
  n : p.n = (l.filter fun f => !keep f).length
  before : ∀ f ∈ l.take p.start, keep f = true
  after : ∀ f ∈ l.drop p.stop, keep f = true

variable {keep : RulePtr → Bool} {p : Span} {done : List RulePtr} {arg : BitVec 32}

/-- A rule that is kept. -/
theorem Span.Exact.skip (h : p.Exact keep done) (hf : keep f = true) :
    p.Exact keep (done ++ [f]) where
  le := h.le
  stop_le := by
    rw [List.length_append]
    exact h.stop_le.trans (Nat.le_add_right _ _)
  n := by
    rw [h.n, List.filter_append, List.filter_cons_of_neg (by simp [hf]), List.filter_nil,
      List.append_nil]
  before := by
    rw [List.take_append_of_le_length (h.le.trans h.stop_le)]
    exact h.before
  after := by
    intro g hg
    rw [List.drop_append_of_le_length h.stop_le] at hg
    rcases List.mem_append.1 hg with hg | hg
    · exact h.after g hg
    · rw [List.mem_singleton.1 hg]
      exact hf

theorem Span.Exact.skip_all (h : p.Exact keep done) (hl : ∀ f ∈ l, keep f = true) :
    p.Exact keep (done ++ l) := by
  induction l generalizing done with
  | nil =>
    rw [List.append_nil]
    exact h
  | cons f fs ih =>
    rw [List.append_cons]
    exact ih (h.skip (hl f List.mem_cons_self)) fun g hg => hl g (List.mem_cons_of_mem _ hg)

/-- A rule to delete, at the end of the span. -/
theorem Span.Exact.take (h : p.Exact keep done) (hf : keep f = false) {start : ℕ}
    (hstart : start ≤ done.length) (hbefore : ∀ f ∈ done.take start, keep f = true) :
    Span.Exact ⟨start, done.length + 1, p.n + 1⟩ keep (done ++ [f]) where
  le := hstart.trans (Nat.le_succ _)
  stop_le := by
    rw [List.length_append]
    exact le_rfl
  n := by
    change p.n + 1 = _
    rw [h.n, List.filter_append, List.filter_cons_of_pos (by simp [hf]), List.filter_nil,
      List.length_append]
    rfl
  before := by
    rw [List.take_append_of_le_length hstart]
    exact hbefore
  after := by
    intro g hg
    rw [List.drop_of_length_le (by rw [List.length_append]; exact le_rfl)] at hg
    exact absurd hg List.not_mem_nil

theorem scanSet_exact (h : p.Exact keep done) :
    (scanSet keep done.length l p).Exact keep (done ++ l) := by
  induction l generalizing done p with
  | nil =>
    rw [List.append_nil]
    exact h
  | cons f fs ih =>
    have hlen : (done ++ [f]).length = done.length + 1 := List.length_append
    unfold scanSet
    rw [List.append_cons, ← hlen]
    by_cases hf : keep f = true
    · rw [if_pos hf]
      exact ih (h.skip hf)
    rw [if_neg hf]
    rw [Bool.not_eq_true] at hf
    by_cases hn : p.n = 0
    · rw [if_pos hn]
      refine ih (hlen ▸ h.take hf le_rfl ?_)
      -- so far all rules are kept
      intro g hg
      rw [List.take_length] at hg
      by_contra hkeep
      have hmem : g ∈ done.filter fun f => !keep f :=
        List.mem_filter.2 ⟨hg, by simp [hkeep]⟩
      rw [List.length_eq_zero_iff.1 (h.n.symm.trans hn)] at hmem
      exact List.not_mem_nil hmem
    · rw [if_neg hn]
      exact ih (hlen ▸ h.take hf (h.le.trans h.stop_le) h.before)

/-- The rules with a number are next to each other, and the other ones are kept. -/
theorem scanNum_exact {num : ℕ} (h : p.Exact keep done) (hstop : p.stop = done.length)
    (hle : l.Pairwise fun f g => (C.rule f).rulenum.toNat ≤ (C.rule g).rulenum.toNat)
    (hnum : ∀ f ∈ l, num ≤ (C.rule f).rulenum.toNat)
    (hkeep : ∀ f ∈ l, 0 < num → (C.rule f).rulenum.toNat ≠ num → keep f = true) :
    (scanNum C keep num l p).Exact keep (done ++ l) := by
  induction l generalizing done p with
  | nil =>
    rw [List.append_nil]
    exact h
  | cons f fs ih =>
    have hlen : (done ++ [f]).length = done.length + 1 := List.length_append
    obtain ⟨hf, hfs⟩ := List.pairwise_cons.1 hle
    have hnum' : ∀ g ∈ fs, num ≤ (C.rule g).rulenum.toNat :=
      fun g hg => hnum g (List.mem_cons_of_mem _ hg)
    have hkeep' : ∀ g ∈ fs, 0 < num → (C.rule g).rulenum.toNat ≠ num → keep g = true :=
      fun g hg => hkeep g (List.mem_cons_of_mem _ hg)
    unfold scanNum
    by_cases hend : 0 < num ∧ (C.rule f).rulenum.toNat ≠ num
    · rw [if_pos hend]
      -- this rule and the ones after it have larger numbers
      have hrest : ∀ g ∈ f :: fs, keep g = true := by
        intro g hg
        have hge := hnum f List.mem_cons_self
        refine hkeep g hg hend.1 fun heq => ?_
        rcases List.mem_cons.1 hg with rfl | hg
        · exact hend.2 heq
        · have := hf g hg
          omega
      exact h.skip_all hrest
    rw [if_neg hend, List.append_cons]
    refine ih ?_ (by rw [hstop, hlen]) hfs hnum' hkeep'
    rw [hstop]
    by_cases hfk : keep f = true
    · rw [if_pos hfk]
      have hskip := h.skip hfk
      exact ⟨hskip.le.trans (by rw [hstop]; exact Nat.le_succ _), hlen.ge, hskip.n, hskip.before,
        fun g hg => by
          rw [List.drop_of_length_le hlen.le] at hg
          exact absurd hg List.not_mem_nil⟩
    · rw [if_neg hfk]
      exact h.take (Bool.not_eq_true _ ▸ hfk) (h.le.trans h.stop_le) h.before

/-! ### Rules with a number -/

theorem Ruleset.Inv.numbered (hs : s.Inv) : s.chain.Numbered where
  le := by
    refine hs.sorted.imp fun {f g} hfg => ?_
    rcases hfg with hlt | ⟨heq, -⟩
    · exact (BitVec.lt_def.1 hlt).le
    · exact (congrArg BitVec.toNat heq).le
  last := by
    obtain ⟨l, hl, -⟩ := hs.last
    exact ⟨l, _, hl, hs.default⟩

/-- **`ipfw_find_rule`** for a number: the rules before the position have smaller numbers, and the
ones from it on do not. -/
theorem Chain.Numbered.find (h : C.Numbered) (hkey : key ≤ ipfwDefaultRule) :
    ipfwFindRule C key 0 ≤ C.nRules ∧
      (∀ f ∈ C.map.take (ipfwFindRule C key 0), (C.rule f).rulenum.toNat < key) ∧
      ∀ f ∈ C.map.drop (ipfwFindRule C key 0), key ≤ (C.rule f).rulenum.toNat := by
  have hle : ∀ i j, i ≤ j → j < C.nRules →
      (C.rule (C.at i)).rulenum.toNat ≤ (C.rule (C.at j)).rulenum.toNat := by
    intro i j hij hj
    rcases hij.eq_or_lt with rfl | hlt
    · exact le_rfl
    · unfold Chain.at
      rw [List.getD_eq_getElem _ _ hj, List.getD_eq_getElem _ _ (hlt.trans hj)]
      exact List.pairwise_iff_getElem.1 h.le i j _ hj hlt
  have hmono : ∀ i j, i ≤ j → j < C.nRules - 1 →
      decide ((C.rule (C.at j)).Below key 0) = true →
      decide ((C.rule (C.at i)).Below key 0) = true := by
    intro i j hij hj hb
    rw [decide_eq_true_iff, Rule.below_zero] at hb ⊢
    exact (hle i j hij (by omega)).trans_lt hb
  obtain ⟨hfind, hall, hlast⟩ := binarySearch_spec (Nat.zero_le _) (Nat.sub_le _ 0) hmono (by simp)
  rw [← ipfwFindLoop_eq] at hfind hall hlast
  change ipfwFindRule C key 0 ≤ _ at hfind
  change ∀ i < ipfwFindRule C key 0, _ at hall
  change ipfwFindRule C key 0 < _ → decide ((C.rule (C.at (ipfwFindRule C key 0))).Below _ _) = _
    at hlast
  refine ⟨hfind.trans (Nat.sub_le _ _), fun f hf => ?_, fun f hf => ?_⟩
  · obtain ⟨j, hj, -, rfl⟩ := Chain.mem_take hf
    exact Rule.below_zero.1 (of_decide_eq_true (hall j hj))
  · obtain ⟨j, hj, hlt, rfl⟩ := Chain.mem_drop hf
    refine le_trans ?_ (hle _ j hj hlt)
    rcases hfind.eq_or_lt with heq | hlt'
    · obtain ⟨l, d, hmap, hd⟩ := h.last
      rw [heq, Chain.at_last hmap, hd]
      exact hkey
    · have hnot := of_decide_eq_false (hlast hlt')
      rw [Rule.below_zero] at hnot
      exact not_lt.1 hnot

/-- A rule with another number is kept. -/
theorem delKeep_of_ne (hcmd : delCmd arg ≠ 1) (hpos : 0 < delNum arg)
    (hne : (C.rule f).rulenum.toNat ≠ delNum arg) : delKeep C arg f = true := by
  unfold delKeep keepRule
  rw [beq_eq_false_iff_ne.2 hcmd, beq_eq_false_iff_ne.2 hpos.ne', beq_eq_false_iff_ne.2 hne.symm]
  simp

/-- The rule number does not count for a set. -/
theorem keepRule_set {r : Rule} (set : BitVec 8) (n m : ℕ) :
    keepRule r 1 set n = keepRule r 1 set m := by
  unfold keepRule
  simp

/-- **The span is exact.** -/
theorem delSpan_exact (h : C.Numbered) (harg : DelChecked arg)
    (hcmd : delCmd arg = 0 ∨ delCmd arg = 1 ∨ delCmd arg = 5) :
    (delSpan C arg).Exact (delKeep C arg) C.map := by
  unfold delSpan
  have hempty : Span.Exact ⟨0, 0, 0⟩ (delKeep C arg) [] :=
    ⟨le_rfl, le_rfl, rfl, fun f hf => absurd hf List.not_mem_nil,
      fun f hf => absurd hf List.not_mem_nil⟩
  by_cases hset : delCmd arg = 1
  · rw [if_pos hset]
    have hkeep : (fun f => keepRule (C.rule f) (delCmd arg) (delSet arg) 0) = delKeep C arg := by
      funext f
      unfold delKeep
      rw [hset]
      exact keepRule_set ..
    rw [hkeep]
    exact scanSet_exact hempty
  · rw [if_neg hset]
    dsimp only
    have hnum : delNum arg < ipfwDefaultRule := by
      have hchk := harg.2
      rw [if_pos (by tauto)] at hchk
      exact hchk
    obtain ⟨hlen, hlt, hge⟩ := h.find hnum.le
    set i := ipfwFindRule C (delNum arg) 0
    have hlen' : (C.map.take i).length = i := by
      rw [List.length_take]
      exact min_eq_left hlen
    have hstart : Span.Exact ⟨i, i, 0⟩ (delKeep C arg) (C.map.take i) := by
      have hkeep : ∀ f ∈ C.map.take i, delKeep C arg f = true := fun f hf =>
        delKeep_of_ne hset ((Nat.zero_le _).trans_lt (hlt f hf)) (hlt f hf).ne
      refine ⟨le_rfl, hlen'.ge, ?_, fun f hf => hkeep f (List.mem_of_mem_take hf), fun f hf => ?_⟩
      · rw [List.filter_eq_nil_iff.2 fun f hf => by simp [hkeep f hf]]
        rfl
      · rw [List.drop_of_length_le hlen'.le] at hf
        exact absurd hf List.not_mem_nil
    have hexact := scanNum_exact (C := C) (l := C.map.drop i) hstart
      hlen'.symm (h.le.sublist (List.drop_sublist ..)) hge
      fun f _ hpos hne => delKeep_of_ne hset hpos hne
    rwa [List.take_append_drop] at hexact

/-! ### The new map -/

theorem bcopyAt_done (done src mem : List RulePtr)
    (h : done.length + src.length ≤ (done ++ mem).length) :
    bcopyAt src done.length (done ++ mem) = some (done ++ src ++ mem.drop src.length) := by
  unfold bcopyAt
  rw [if_pos h, List.take_left, List.drop_append, Nat.add_sub_cancel_left,
    List.drop_of_length_le (Nat.le_add_right _ _), List.nil_append]

theorem copyActive_spec (keep : RulePtr → Bool) (l done mem : List RulePtr)
    (h : (l.filter keep).length ≤ mem.length) :
    copyActive keep l done.length (done ++ mem) =
      some ((done ++ l.filter keep).length,
        done ++ l.filter keep ++ mem.drop (l.filter keep).length) := by
  induction l generalizing done mem with
  | nil =>
    unfold copyActive
    rw [List.filter_nil, List.append_nil]
    rfl
  | cons f fs ih =>
    unfold copyActive
    by_cases hf : keep f = true
    · rw [List.filter_cons_of_pos hf, List.length_cons] at h
      have hcopy := bcopyAt_done done [f] mem
        (by rw [List.length_append, List.length_singleton]; omega)
      have hlen : (done ++ [f]).length = done.length + 1 := List.length_append
      rw [if_pos hf, hcopy, Option.bind_some, List.filter_cons_of_pos hf, ← hlen,
        ih _ _ (by rw [List.length_drop, List.length_singleton]; omega), List.drop_drop,
        List.length_singleton, List.length_cons, Nat.add_comm 1, ← List.append_cons]
    · rw [if_neg hf, List.filter_cons_of_neg hf]
      rw [List.filter_cons_of_neg hf] at h
      exact ih done mem h

/-- The rules that are kept, in three pieces. -/
theorem Span.Exact.filter (h : p.Exact keep l) :
    l.filter keep = l.take p.start ++
      (((l.drop p.start).take (p.stop - p.start)).filter keep ++ l.drop p.stop) := by
  conv_lhs => rw [← take_drop_pieces l h.le, List.filter_append, List.filter_append]
  rw [List.filter_eq_self.2 h.before, List.filter_eq_self.2 h.after]

/-- The rules to delete are in the span. -/
theorem Span.Exact.filter_not (h : p.Exact keep l) :
    (l.filter fun f => !keep f) =
      ((l.drop p.start).take (p.stop - p.start)).filter fun f => !keep f := by
  conv_lhs => rw [← take_drop_pieces l h.le, List.filter_append, List.filter_append]
  have hbefore : ((l.take p.start).filter fun f => !keep f) = [] :=
    List.filter_eq_nil_iff.2 fun f hf => by simp [h.before f hf]
  have hafter : ((l.drop p.stop).filter fun f => !keep f) = [] :=
    List.filter_eq_nil_iff.2 fun f hf => by simp [h.after f hf]
  rw [hbefore, hafter, List.nil_append, List.append_nil]

/-- **The copies give the rules that are kept**, and fill the new map. -/
theorem fillMap_spec (h : p.Exact keep C.map) (mem : List RulePtr)
    (hmem : mem.length = C.nRules - p.n) : fillMap C keep p mem = some (C.map.filter keep) := by
  have hcount : (C.map.filter keep).length = mem.length := by
    have hsum := C.map.length_eq_length_filter_add keep
    rw [hmem, h.n]
    unfold Chain.nRules
    omega
  have hfilter := h.filter
  set b := (C.map.drop p.start).take (p.stop - p.start)
  have hlen := hcount
  rw [hfilter, List.length_append, List.length_append] at hlen
  have hstart : (C.map.take p.start).length = p.start := by
    rw [List.length_take]
    exact min_eq_left (h.le.trans h.stop_le)
  unfold fillMap
  rw [if_neg (show ¬ C.nRules < p.stop from not_lt.2 h.stop_le)]
  have hfirst := bcopyAt_done [] (C.map.take p.start) mem
    (by rw [List.nil_append, List.length_nil]; omega)
  rw [List.nil_append, List.nil_append, List.length_nil] at hfirst
  have hactive := copyActive_spec keep b (C.map.take p.start) (mem.drop (C.map.take p.start).length)
    (by rw [List.length_drop]; omega)
  rw [hstart] at hactive
  have hlast := bcopyAt_done (C.map.take p.start ++ b.filter keep) (C.map.drop p.stop)
    ((mem.drop p.start).drop (b.filter keep).length)
    (by simp only [List.length_append, List.length_drop] at hlen ⊢; omega)
  -- the new map is full
  have hfull : ((mem.drop p.start).drop (b.filter keep).length).drop (C.map.drop p.stop).length =
      [] := by
    refine List.drop_of_length_le ?_
    rw [List.length_drop, List.length_drop]
    omega
  rw [hfirst, Option.bind_some, hstart, hactive, Option.bind_some]
  dsimp only
  rw [hlast, hfull, List.append_nil, hfilter, List.append_assoc]

theorem reapRules_spec (len : BitVec 32) (reap : List RulePtr) :
    reapRules C keep l len reap =
      (len - BitVec.ofNat 32 (C.size (l.filter fun f => !keep f)),
        (l.filter fun f => !keep f).reverse ++ reap) := by
  induction l generalizing len reap with
  | nil =>
    unfold reapRules Chain.size
    simp
  | cons f fs ih =>
    unfold reapRules
    by_cases hf : keep f = true
    · rw [if_pos hf, ih, List.filter_cons_of_neg (by simp [hf])]
    · rw [if_neg hf, ih, List.filter_cons_of_pos (by simp [hf]), Chain.size_cons, BitVec.ofNat_add,
        List.reverse_cons, List.append_assoc, BitVec.sub_sub]
      rfl

/-! ### Deletion -/

/-- `del_entry`, with the lists of rules in place of the copies. -/
theorem delRules_eq (h : s.chain.Numbered) (hcmd : delCmd arg = 0 ∨ delCmd arg = 1 ∨ delCmd arg = 5)
    (harg : DelChecked arg) (mapOk : Bool) :
    delRules s arg mapOk = some
      (if s.chain.selected arg = [] then (if arg = 0 then 0 else einval, s, [])
      else if !mapOk then (einval, s, [])
      else (0, { s with
        chain := s.chain.swapMap (s.chain.map.filter (delKeep s.chain arg))
        staticLen := s.staticLen - BitVec.ofNat 32 (s.chain.size (s.chain.selected arg)) },
        (s.chain.selected arg).reverse)) := by
  have hspan := delSpan_exact h harg hcmd
  have hn : (delSpan s.chain arg).n = 0 ↔ s.chain.selected arg = [] := by
    rw [hspan.n, List.length_eq_zero_iff]
    rfl
  unfold delRules
  dsimp only
  rw [if_neg (not_not.2 harg), fillMap_spec hspan _ List.length_replicate, reapRules_spec,
    ← hspan.filter_not, List.append_nil, Option.map_some]
  by_cases hsel : s.chain.selected arg = []
  · rw [if_pos (hn.2 hsel), if_pos hsel]
  · rw [if_neg (mt hn.1 hsel), if_neg hsel]
    cases mapOk
    · rfl
    · rfl

/-- The span of `delEntry` is the same. -/
theorem deleteSpan_eq (h : p.Exact keep s.chain.map) (all mapOk : Bool) :
    deleteSpan s keep p all mapOk =
      if (s.chain.map.filter fun f => !keep f) = [] then (if all then 0 else einval, s)
      else if !mapOk then (einval, s)
      else (0, { s with
        chain := s.chain.swapMap (s.chain.map.filter keep)
        staticLen := s.staticLen -
          BitVec.ofNat 32 (s.chain.size (s.chain.map.filter fun f => !keep f)) }) := by
  have hn : p.n = 0 ↔ (s.chain.map.filter fun f => !keep f) = [] := by
    rw [h.n, List.length_eq_zero_iff]
  unfold deleteSpan
  dsimp only
  rw [h.filter_not, h.filter, List.append_assoc]
  rw [h.filter_not] at hn
  by_cases hsel :
      (((s.chain.map.drop p.start).take (p.stop - p.start)).filter fun f => !keep f) = []
  · rw [if_pos (hn.2 hsel), if_pos hsel]
  · rw [if_neg (mt hn.1 hsel), if_neg hsel]
    rfl

/-- **`delEntry` is what the copies give.** -/
theorem delRules_delEntry (h : s.chain.Numbered)
    (hcmd : delCmd arg = 0 ∨ delCmd arg = 1 ∨ delCmd arg = 5) (mapOk : Bool) :
    (delRules s arg mapOk).map (fun out => (out.1, out.2.1)) = some (delEntry s arg mapOk) := by
  by_cases harg : DelChecked arg
  · have hspan := delSpan_exact h harg hcmd
    have hentry : delEntry s arg mapOk =
        deleteSpan s (delKeep s.chain arg) (delSpan s.chain arg) (arg = 0) mapOk := by
      unfold delEntry
      dsimp only
      obtain ⟨hsize, hnum⟩ := harg
      refine (if_neg hsize).trans ?_
      by_cases hset : delCmd arg = 1
      · have hold : ¬ (delCmd arg = 0 ∨ delCmd arg = 2 ∨ delCmd arg = 5) := by
          rw [hset]
          decide
        rw [if_neg hold] at hnum
        refine (if_neg fun hc => hold hc.1).trans ((if_neg fun hc => not_lt.2 hnum hc.2).trans ?_)
        refine (if_pos hset).trans ?_
        unfold delKeep delSpan delSet
        rw [if_pos hset, if_pos hset]
        rfl
      · have hold : delCmd arg = 0 ∨ delCmd arg = 2 ∨ delCmd arg = 5 := by tauto
        rw [if_pos hold] at hnum
        have hother : ∀ c : BitVec 8, c ≠ 0 → c ≠ 1 → c ≠ 5 → delCmd arg ≠ c := by
          rintro c h0 h1 h5 rfl
          tauto
        refine (if_neg fun hc => not_le.2 hnum hc.2).trans ((if_neg fun hc => hc.1 hold).trans ?_)
        refine (if_neg hset).trans ?_
        refine (if_neg (hother 2 (by decide) (by decide) (by decide))).trans ?_
        refine (if_neg (hother 3 (by decide) (by decide) (by decide))).trans ?_
        refine (if_neg (hother 4 (by decide) (by decide) (by decide))).trans ?_
        unfold delSpan
        rw [if_neg hset]
        have hkeep : delKeep s.chain arg = fun f =>
            keepRule (s.chain.rule f) (delCmd arg) (arg.extractLsb' 16 8) (delNum arg) := by
          funext f
          unfold delKeep delSet
          rw [if_neg hset]
        rw [hkeep]
        rfl
    rw [delRules_eq h hcmd harg, hentry, deleteSpan_eq hspan, Option.map_some]
    change _ = some (if s.chain.selected arg = [] then _ else _)
    by_cases hsel : s.chain.selected arg = []
    · rw [if_pos hsel, if_pos hsel]
      simp only [decide_eq_true_eq]
    · rw [if_neg hsel, if_neg hsel]
      cases mapOk
      · rfl
      · rfl
  · unfold delRules delEntry
    dsimp only
    rw [if_pos harg, Option.map_some]
    unfold DelChecked at harg
    rw [not_and_or, not_not] at harg
    refine congrArg some (Eq.symm ?_)
    by_cases hsize : 5 < (delCmd arg).toNat ∨ resvdSet.toNat < (arg.extractLsb' 16 8).toNat
    · exact if_pos hsize
    refine (if_neg hsize).trans ?_
    have hnum := harg.resolve_left hsize
    by_cases hold : delCmd arg = 0 ∨ delCmd arg = 2 ∨ delCmd arg = 5
    · rw [if_pos hold] at hnum
      exact if_pos ⟨hold, not_lt.1 hnum⟩
    · rw [if_neg hold] at hnum
      exact (if_neg fun hc => hold hc.1).trans (if_pos ⟨hold, not_le.1 hnum⟩)

theorem delKeep_default (hf : (C.rule f).rulenum.toNat = ipfwDefaultRule) :
    delKeep C arg f = true :=
  keepRule_default hf ..

/-- **Deletion removes exactly the rules that are selected**, where the argument passes the checks
and the new map can be allocated; otherwise nothing changes. -/
theorem delRules_deletes (h : s.chain.Numbered)
    (hcmd : delCmd arg = 0 ∨ delCmd arg = 1 ∨ delCmd arg = 5) (mapOk : Bool) :
    ∃ err t reap, delRules s arg mapOk = some (err, t, reap) ∧
      (DelChecked arg ∧ (mapOk = true ∨ s.chain.selected arg = []) → Deletes s arg err t reap) ∧
      (¬ (DelChecked arg ∧ (mapOk = true ∨ s.chain.selected arg = [])) →
        err = einval ∧ t = s ∧ reap = []) := by
  by_cases harg : DelChecked arg
  · rw [delRules_eq h hcmd harg mapOk]
    by_cases hsel : s.chain.selected arg = []
    · rw [if_pos hsel]
      exact ⟨_, _, _, rfl, fun _ => ⟨fun _ => ⟨rfl, rfl, rfl⟩, fun hne => absurd hsel hne,
        fun _ hf _ => hf⟩, fun hnot => absurd ⟨harg, .inr hsel⟩ hnot⟩
    rw [if_neg hsel]
    cases mapOk with
    | false =>
      refine ⟨_, _, _, rfl, fun hok => ?_, fun _ => ⟨rfl, rfl, rfl⟩⟩
      rcases hok.2 with hfalse | hnone
      · exact absurd hfalse Bool.false_ne_true
      · exact absurd hnone hsel
    | true =>
      refine ⟨_, _, _, rfl, fun _ => ⟨fun hnone => absurd hnone hsel, fun _ => ⟨rfl, rfl, rfl⟩,
        fun f hf hd => List.mem_filter.2 ⟨hf, delKeep_default hd⟩⟩,
        fun hnot => absurd ⟨harg, .inl rfl⟩ hnot⟩
  · refine ⟨einval, s, [], ?_, fun hok => absurd hok.1 harg, fun _ => ⟨rfl, rfl, rfl⟩⟩
    unfold delRules
    dsimp only
    rw [if_pos harg]

/-- A rule is added, with the number 100. -/
theorem delRules_deletes_one :
    let s := (Ruleset.init false).step (.add default true true)
    ∃ err t reap, delRules s 100 true = some (err, t, reap) ∧
      (DelChecked 100 ∧ (true = true ∨ s.chain.selected 100 = []) → Deletes s 100 err t reap) ∧
      (¬ (DelChecked 100 ∧ (true = true ∨ s.chain.selected 100 = [])) →
        err = einval ∧ t = s ∧ reap = []) :=
  delRules_deletes (Ruleset.Reach.inv (.step _ (.init false) (by decide))).numbered
    (.inl (by decide)) true

/-- Rule 100 stays where the argument names the set 40, which is not checked against the rule but is
out of range, and where there is no memory for the new map. -/
theorem not_delRules_deletes :
    (¬ ∀ s : Ruleset, s.chain.Numbered → ∀ arg,
      (delCmd arg = 0 ∨ delCmd arg = 1 ∨ delCmd arg = 5) →
        ∃ err t reap, delRules s arg true = some (err, t, reap) ∧ Deletes s arg err t reap) ∧
    ¬ ∀ s : Ruleset, s.chain.Numbered → ∀ arg, DelChecked arg →
      (delCmd arg = 0 ∨ delCmd arg = 1 ∨ delCmd arg = 5) → ∀ mapOk,
        ∃ err t reap, delRules s arg mapOk = some (err, t, reap) ∧ Deletes s arg err t reap := by
  have hs : ((Ruleset.init false).step (.add default true true)).chain.Numbered :=
    (Ruleset.Reach.inv (.step _ (.init false) (by decide))).numbered
  have hrefuses : ∀ arg mapOk err t reap,
      ((delRules ((Ruleset.init false).step (.add default true true)) arg mapOk).any fun out =>
        decide (out.1 = einval)) = true →
      ((Ruleset.init false).step (.add default true true)).chain.selected arg ≠ [] →
      delRules ((Ruleset.init false).step (.add default true true)) arg mapOk =
        some (err, t, reap) →
      ¬ Deletes ((Ruleset.init false).step (.add default true true)) arg err t reap := by
    intro arg mapOk err t reap heinval hsel hrun hdel
    rw [hrun, Option.any_some, decide_eq_true_iff] at heinval
    exact absurd (heinval.symm.trans (hdel.deleted hsel).1) (by decide)
  refine ⟨fun h => ?_, fun h => ?_⟩
  · obtain ⟨err, t, reap, hrun, hdel⟩ := h _ hs (40#32 <<< 16 ||| 100#32) (.inl (by decide))
    exact hrefuses _ _ _ _ _ (by decide +kernel) (by decide +kernel) hrun hdel
  · obtain ⟨err, t, reap, hrun, hdel⟩ := h _ hs 100#32 (by decide) (.inl (by decide)) false
    exact hrefuses _ _ _ _ _ (by decide +kernel) (by decide +kernel) hrun hdel

end Ipfw
