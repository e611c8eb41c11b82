import Mathlib
import Dummynet.Tool.Listing

/-!
# What a listing shows

The static rules of a reply are in increasing order, and a listing of ranges may leave its loop at
the first rule behind the range. The dynamic entries are in no order, but their loop is left at the
first entry with a larger number than the start of the range; and the number that it compares with
the range is the one of the rule at which the last loop over the static rules was left.

## Main definitions

* `StaticRecord`, `DynRecord`, `Reply`: a well-formed reply.
* `Reply.selected`: the records of the ranges.
* `Reply.leftNumber`: the number that the dynamic entries are taken for.

## Main results

* `runLoop_select`: a loop that puts some records out, up to the first one at which it is left.
* `ipfwList_eq`: what is shown; nothing outside the reply is read.
* `ipfwList_iff`: when this is what the ranges select.
-/

namespace Dummynet.Tool

/-! ### Loops over a list -/

section RunLoop

variable {α σ : Type}

/-- A loop over a list. It yields the elements that are left, with the first one at the loop's
exit. -/
def runLoop (f : α → σ → σ × Bool) : List α → σ → List α × σ
  | [], s => ([], s)
  | x :: xs, s => if (f x s).2 then runLoop f xs (f x s).1 else (x :: xs, (f x s).1)

/-- A body that puts the elements with `keep` out, and leaves the loop at `stop`. -/
def selectBody (stop keep : α → Bool) (put : σ → α → σ) (x : α) (s : σ) : σ × Bool :=
  if stop x then (s, false) else (if keep x then put s x else s, true)

theorem runLoop_select (stop keep : α → Bool) (put : σ → α → σ) (xs : List α) (s : σ) :
    runLoop (selectBody stop keep put) xs s = (xs.dropWhile fun x => !stop x,
      ((xs.takeWhile fun x => !stop x).filter keep).foldl put s) := by
  induction xs generalizing s with
  | nil => rfl
  | cons x xs ih =>
    rw [runLoop, selectBody]
    cases hs : stop x with
    | true => simp [hs]
    | false =>
      rw [List.dropWhile_cons, List.takeWhile_cons]
      cases hk : keep x <;> simp [hs, hk, ih]

theorem runLoop_select_all (keep : α → Bool) (put : σ → α → σ) (xs : List α) (s : σ) :
    (runLoop (selectBody (fun _ => false) keep put) xs s).2 = (xs.filter keep).foldl put s := by
  rw [runLoop_select]
  change ((xs.takeWhile fun _ => true).filter keep).foldl put s = _
  rw [List.takeWhile_eq_self_iff.2 fun _ _ => rfl]

/-- A loop that is never left. -/
theorem runLoop_all (f : α → σ → σ × Bool) (hf : ∀ x s, (f x s).2 = true) (xs : List α) (s : σ) :
    (runLoop f xs s).1 = [] := by
  induction xs generalizing s with
  | nil => rfl
  | cons x xs ih => rw [runLoop, if_pos (hf x s), ih]

end RunLoop

/-! ### Replies -/

/-- A rule in a reply. -/
structure StaticRecord where
  bytes : List (BitVec 8)
  length_eq : bytes.length = ruleSize (Buffer.field bytes cmdLenOfs 2)

/-- A dynamic entry in a reply. -/
structure DynRecord where
  bytes : List (BitVec 8)
  length_eq : bytes.length = dynSizeof

namespace StaticRecord

variable (r : StaticRecord)

def rulenum : ℕ := Buffer.field r.bytes rulenumOfs 2

def set : ℕ := Buffer.field r.bytes ruleSetOfs 1

theorem le_length : 52 ≤ r.bytes.length := by
  rw [r.length_eq, ruleSize, ruleSizeof]
  omega

end StaticRecord

namespace DynRecord

variable (d : DynRecord)

def rulenum : ℕ := Buffer.field d.bytes dynRuleOfs 2

def set : ℕ := Buffer.field d.bytes (dynRuleOfs + 2) 1

end DynRecord

/-- A reply: the rules in increasing order, the default rule, and the dynamic entries. -/
structure Reply where
  rules : List StaticRecord
  default : StaticRecord
  dyn : List DynRecord
  sorted : rules.Pairwise fun a b => a.rulenum ≤ b.rulenum
  rules_lt : ∀ r ∈ rules, r.rulenum < ipfwDefaultRule
  default_eq : default.rulenum = ipfwDefaultRule

namespace Reply

variable (R : Reply) (co : ListOpts)

/-- The static rules. -/
def static : List StaticRecord := R.rules ++ [R.default]

/-- The bytes of the dynamic entries. -/
def dynBytes : List (BitVec 8) := R.dyn.flatMap (·.bytes)

/-- The bytes of the reply. -/
def bytes : List (BitVec 8) := R.static.flatMap (·.bytes) ++ R.dynBytes

theorem static_sorted : R.static.Pairwise fun a b => a.rulenum ≤ b.rulenum := by
  rw [static, List.pairwise_append]
  refine ⟨R.sorted, List.pairwise_singleton _ _, fun a ha b hb => ?_⟩
  rw [List.mem_singleton.1 hb, R.default_eq]
  exact (R.rules_lt a ha).le

/-! ### What is selected -/

/-- The static rules with a property whose set is selected. -/
def selectRules (p : ℕ → Bool) : List (List (BitVec 8)) :=
  (R.static.filter fun r => !co.skips r.set && p r.rulenum).map (·.bytes)

/-- The dynamic entries with a property whose set is selected, if they are asked for. -/
def selectDyn (p : ℕ → Bool) : List (List (BitVec 8)) :=
  if co.doDynamic then (R.dyn.filter fun d => !co.skips d.set && p d.rulenum).map (·.bytes) else []

/-- The records that the arguments select; without arguments these are all of them. -/
def selected (args : List (List Char)) : List (List (List (BitVec 8)) × List (List (BitVec 8))) :=
  if args = [] then [(R.selectRules co fun _ => true, R.selectDyn co fun _ => true)]
  else args.map fun arg => match parseRange arg with
    | none => ([], [])
    | some (rnum, last) =>
      (R.selectRules co fun n => rnum ≤ n && n ≤ last, R.selectDyn co fun n => rnum ≤ n && n ≤ last)

/-! ### What is shown -/

/-- The number at the offset of `rulenum` in the first record that is left, a rule or a dynamic
entry. -/
def numberAt : List StaticRecord → ℕ
  | r :: _ => r.rulenum
  | [] => (R.dyn.head?.elim 0 fun d => Buffer.field d.bytes rulenumOfs 2)

/-- The number that the dynamic entries are taken for: the first number of a rule behind the last
range, or the bytes of a dynamic entry if there is no such rule or no range. -/
def leftNumber (args : List (List Char)) : ℕ :=
  R.numberAt ((args.filterMap parseRange).getLast?.elim [] fun p =>
    R.static.dropWhile fun r => r.rulenum ≤ p.2)

/-- The dynamic entries that are shown for a range. -/
def shownDyn (number rnum last : ℕ) : List (List (BitVec 8)) :=
  if co.doDynamic then
    ((R.dyn.takeWhile fun d => d.rulenum ≤ rnum).filter fun d =>
      !co.skips d.set && (rnum ≤ number && number ≤ last)).map (·.bytes)
  else []

/-- What is shown. -/
def shown (args : List (List Char)) : List Shown :=
  if args = [] then
    [{ rules := R.selectRules co fun _ => true, dyn := R.selectDyn co fun _ => true }]
  else args.map fun arg => match parseRange arg with
    | none => { invalid := true }
    | some (rnum, last) =>
      { rules := R.selectRules co fun n => rnum ≤ n && n ≤ last
        noRule := (R.selectRules co fun n => rnum ≤ n && n ≤ last).isEmpty
        dyn := R.shownDyn co (R.leftNumber args) rnum last }

end Reply

/-! ### The loops over the reply -/

section Loops

variable {data tail : List (BitVec 8)} {p : ℕ} {σ : Type}

theorem StaticRecord.next {r : StaticRecord} {l : List (BitVec 8)}
    (h : Buffer.At data p (r.bytes ++ l)) :
    nextRule data p = some (p + r.bytes.length) := by
  have hlen := r.le_length
  rw [nextRule, h.read (by rw [cmdLenOfs]; omega), r.length_eq]
  rfl

theorem StaticRecord.read_rulenum {r : StaticRecord} {l : List (BitVec 8)}
    (h : Buffer.At data p (r.bytes ++ l)) :
    Buffer.read data (p + rulenumOfs) 2 = some r.rulenum := by
  have hlen := r.le_length
  exact h.read (by rw [rulenumOfs]; omega)

theorem StaticRecord.read_set {r : StaticRecord} {l : List (BitVec 8)}
    (h : Buffer.At data p (r.bytes ++ l)) :
    Buffer.read data (p + ruleSetOfs) 1 = some r.set := by
  have hlen := r.le_length
  exact h.read (by rw [ruleSetOfs]; omega)

theorem StaticRecord.show_eq {r : StaticRecord} {l : List (BitVec 8)}
    (h : Buffer.At data p (r.bytes ++ l)) : showIpfw data p = some r.bytes := by
  have hlen := r.le_length
  rw [showIpfw, h.read (by rw [cmdLenOfs]; omega)]
  change Buffer.slice data p (ruleSize (Buffer.field r.bytes cmdLenOfs 2)) = _
  rw [← r.length_eq, h.slice_all]

theorem DynRecord.read_rulenum {d : DynRecord} {l : List (BitVec 8)}
    (h : Buffer.At data p (d.bytes ++ l)) :
    Buffer.read data (p + dynRuleOfs) 2 = some d.rulenum :=
  h.read (by rw [d.length_eq]; decide)

theorem DynRecord.read_set {d : DynRecord} {l : List (BitVec 8)}
    (h : Buffer.At data p (d.bytes ++ l)) :
    Buffer.read data (p + dynRuleOfs + 2) 1 = some d.set := by
  rw [Nat.add_assoc]
  exact h.read (by rw [d.length_eq]; decide)

theorem DynRecord.show_eq {d : DynRecord} {l : List (BitVec 8)}
    (h : Buffer.At data p (d.bytes ++ l)) : showDynIpfw data p = some d.bytes := by
  rw [showDynIpfw, ← d.length_eq, h.slice_all]

/-- The loop over the static rules. -/
theorem forRules_eq {body : ℕ → σ → Option (σ × Bool)} {f : StaticRecord → σ → σ × Bool}
    (hbody : ∀ r p l s, Buffer.At data p (r.bytes ++ l) → body p s = some (f r s))
    (rs : List StaticRecord) (h : Buffer.At data p (rs.flatMap (·.bytes) ++ tail)) (s : σ) :
    ∃ q, forRules data body rs.length p s = some (q, (runLoop f rs s).2) ∧
      Buffer.At data q ((runLoop f rs s).1.flatMap (·.bytes) ++ tail) := by
  induction rs generalizing p s with
  | nil => exact ⟨p, rfl, h⟩
  | cons r rs ih =>
    rw [List.flatMap_cons, List.append_assoc] at h
    rw [List.length_cons, forRules, hbody r p _ s h, runLoop]
    cases hf : (f r s).2 with
    | false =>
      refine ⟨p, ?_, ?_⟩
      · simp [hf]
      · simpa using h
    | true =>
      obtain ⟨q, hq, hAt⟩ := ih h.advance (f r s).1
      refine ⟨q, ?_, hAt⟩
      simp [hf, StaticRecord.next h, hq]

/-- The loop over the dynamic entries. -/
theorem forDyn_eq {body : ℕ → σ → Option (σ × Bool)} {f : DynRecord → σ → σ × Bool}
    (hbody : ∀ d p l s, Buffer.At data p (d.bytes ++ l) → body p s = some (f d s))
    (ds : List DynRecord) (h : Buffer.At data p (ds.flatMap (·.bytes))) (s : σ) :
    forDyn body ds.length p s = some (runLoop f ds s).2 := by
  induction ds generalizing p s with
  | nil => rfl
  | cons d ds ih =>
    rw [List.flatMap_cons] at h
    rw [List.length_cons, forDyn, hbody d p _ s h, runLoop]
    cases hf : (f d s).2 with
    | false => simp [hf]
    | true =>
      have hnext := ih (d.length_eq ▸ h.advance) (f d s).1
      simp [hf, hnext]

/-- The loop that counts the static rules. -/
theorem countStatic_eq (R : Reply) (rs : List StaticRecord) (hrs : ∀ r ∈ rs, r.rulenum < 65535)
    (h : Buffer.At data p ((rs ++ [R.default]).flatMap (·.bytes) ++ tail)) {fuel : ℕ}
    (hfuel : rs.length < fuel) (nstat : ℕ) :
    ∃ q, countStatic data fuel nstat p = some (nstat + rs.length, q) ∧
      Buffer.At data q (R.default.bytes ++ tail) := by
  induction rs generalizing p fuel nstat with
  | nil =>
    obtain ⟨fuel, rfl⟩ : ∃ f, fuel = f + 1 := ⟨fuel - 1, by simp at hfuel; omega⟩
    have hAt : Buffer.At data p (R.default.bytes ++ tail) := by simpa using h
    refine ⟨p, ?_, hAt⟩
    rw [countStatic, StaticRecord.read_rulenum hAt, R.default_eq]
    rfl
  | cons r rs ih =>
    obtain ⟨fuel, rfl⟩ : ∃ f, fuel = f + 1 := ⟨fuel - 1, by simp at hfuel; omega⟩
    rw [List.cons_append, List.flatMap_cons, List.append_assoc] at h
    have hlen := r.le_length
    have hp : p < data.length := by
      have := h.length
      rw [List.length_append] at this
      omega
    obtain ⟨q, hq, hAt⟩ := ih (fun r' hr' => hrs r' (List.mem_cons_of_mem _ hr')) h.advance
      (by simpa using hfuel) (nstat + 1)
    refine ⟨q, ?_, hAt⟩
    have hlt : r.rulenum < ipfwDefaultRule ∧ p < data.length :=
      ⟨hrs r List.mem_cons_self, hp⟩
    rw [countStatic, StaticRecord.read_rulenum h]
    simp only [Option.bind_eq_bind, Option.bind_some, if_pos hlt, StaticRecord.next h, hq,
      List.length_cons]
    rw [Nat.add_assoc, Nat.add_comm 1]

end Loops

/-! ### The bodies -/

section Bodies

variable (co : ListOpts) {data : List (BitVec 8)}

/-- Puts a rule out. -/
def Shown.putRule (out : Shown) (r : StaticRecord) : Shown :=
  { out with rules := out.rules ++ [r.bytes] }

/-- Puts a dynamic entry out. -/
def Shown.putDyn (out : Shown) (d : DynRecord) : Shown := { out with dyn := out.dyn ++ [d.bytes] }

theorem foldl_putRule (rs : List StaticRecord) (out : Shown) :
    rs.foldl Shown.putRule out = { out with rules := out.rules ++ rs.map (·.bytes) } := by
  induction rs generalizing out with
  | nil => simp
  | cons r rs ih => simp [ih, Shown.putRule]

theorem foldl_putDyn (ds : List DynRecord) (out : Shown) :
    ds.foldl Shown.putDyn out = { out with dyn := out.dyn ++ ds.map (·.bytes) } := by
  induction ds generalizing out with
  | nil => simp
  | cons d ds ih => simp [ih, Shown.putDyn]

/-- What a static rule does to the widths. -/
def widenRule (co : ListOpts) (r : StaticRecord) (w : Widths) : Widths × Bool :=
  (if co.skips r.set then w
    else w.widen (Buffer.field r.bytes rulePcntOfs 8) (Buffer.field r.bytes ruleBcntOfs 8), true)

/-- What a dynamic entry does to the widths. -/
def widenDyn (co : ListOpts) (d : DynRecord) (w : Widths) : Widths × Bool :=
  (if co.skips d.set then w
    else w.widen (Buffer.field d.bytes dynPcntOfs 8) (Buffer.field d.bytes dynBcntOfs 8), true)

theorem ruleWidths_eq (r : StaticRecord) (p : ℕ) (l : List (BitVec 8)) (w : Widths)
    (h : Buffer.At data p (r.bytes ++ l)) : ruleWidths co data p w = some (widenRule co r w) := by
  have hlen := r.le_length
  have hpcnt := h.read (k := rulePcntOfs) (n := 8) (by rw [rulePcntOfs]; omega)
  have hbcnt := h.read (k := ruleBcntOfs) (n := 8) (by rw [ruleBcntOfs]; omega)
  rw [ruleWidths, widenRule, StaticRecord.read_set h, hpcnt, hbcnt]
  cases hs : co.skips r.set <;> simp [hs]

/-- The set of a dynamic entry is read only if one is selected. -/
theorem skips_of_useSet {co : ListOpts} {set : ℕ} (h : co.useSet = 0) : co.skips set = false := by
  simp [ListOpts.skips, h]

theorem dynWidths_eq (d : DynRecord) (p : ℕ) (l : List (BitVec 8)) (w : Widths)
    (h : Buffer.At data p (d.bytes ++ l)) : dynWidths co data p w = some (widenDyn co d w) := by
  have hpcnt := h.read (k := dynPcntOfs) (n := 8) (by rw [d.length_eq]; decide)
  have hbcnt := h.read (k := dynBcntOfs) (n := 8) (by rw [d.length_eq]; decide)
  rw [dynWidths, widenDyn, DynRecord.read_set h, hpcnt, hbcnt]
  by_cases hu : co.useSet = 0
  · simp [hu, skips_of_useSet hu]
  · cases hs : co.skips d.set <;> simp [hu, hs]

theorem listRule_eq (r : StaticRecord) (p : ℕ) (l : List (BitVec 8)) (out : Shown)
    (h : Buffer.At data p (r.bytes ++ l)) :
    listRule co data p out = some (selectBody (fun _ => false) (fun r => !co.skips r.set)
      Shown.putRule r out) := by
  rw [listRule, StaticRecord.read_set h, StaticRecord.show_eq h, selectBody]
  cases hs : co.skips r.set <;> simp [hs, Shown.putRule]

theorem listDyn_eq (d : DynRecord) (p : ℕ) (l : List (BitVec 8)) (out : Shown)
    (h : Buffer.At data p (d.bytes ++ l)) :
    listDyn co data p out = some (selectBody (fun _ => false) (fun d => !co.skips d.set)
      Shown.putDyn d out) := by
  rw [listDyn, DynRecord.read_set h, DynRecord.show_eq h, selectBody]
  by_cases hu : co.useSet = 0
  · simp [hu, skips_of_useSet hu, Shown.putDyn]
  · cases hs : co.skips d.set <;> simp [hu, hs, Shown.putDyn]

theorem rangeRule_eq (rnum last : ℕ) (r : StaticRecord) (p : ℕ) (l : List (BitVec 8))
    (out : Shown) (h : Buffer.At data p (r.bytes ++ l)) :
    rangeRule co data rnum last p out = some (selectBody (fun r => decide (last < r.rulenum))
      (fun r => !co.skips r.set && (rnum ≤ r.rulenum && r.rulenum ≤ last))
      Shown.putRule r out) := by
  rw [rangeRule, StaticRecord.read_rulenum h, StaticRecord.read_set h, StaticRecord.show_eq h,
    selectBody]
  by_cases hl : last < r.rulenum
  · simp [hl]
  · cases hs : co.skips r.set
    · by_cases hr : rnum ≤ r.rulenum ∧ r.rulenum ≤ last
      · simp [hl, hs, hr, Shown.putRule]
      · simp [hl, hs, hr]
    · simp [hl, hs]

theorem rangeDyn_eq (rnum last : ℕ) {r number : ℕ}
    (hnum : Buffer.read data (r + rulenumOfs) 2 = some number) (d : DynRecord) (p : ℕ)
    (l : List (BitVec 8)) (out : Shown) (h : Buffer.At data p (d.bytes ++ l)) :
    rangeDyn co data r rnum last p out = some (selectBody (fun d => decide (rnum < d.rulenum))
      (fun d => !co.skips d.set && (rnum ≤ number && number ≤ last)) Shown.putDyn d out) := by
  rw [rangeDyn, DynRecord.read_rulenum h, DynRecord.read_set h, DynRecord.show_eq h, hnum,
    selectBody]
  by_cases hl : rnum < d.rulenum
  · simp [hl]
  · cases hs : co.skips d.set
    · by_cases hr : rnum ≤ number ∧ number ≤ last
      · by_cases hu : co.useSet = 0 <;> simp [hl, hs, hr, hu, Shown.putDyn]
      · by_cases hu : co.useSet = 0 <;> simp [hl, hr, hu]
    · have hu : co.useSet ≠ 0 := fun hu => by simp [skips_of_useSet hu] at hs
      simp [hl, hs, hu]

end Bodies

/-! ### The listing -/

namespace Reply

variable (R : Reply) (co : ListOpts) {q r : ℕ}

theorem length_le_flatMap (rs : List StaticRecord) : rs.length ≤ (rs.flatMap (·.bytes)).length := by
  induction rs with
  | nil => exact le_rfl
  | cons r rs ih =>
    have hlen := r.le_length
    rw [List.flatMap_cons, List.length_append, List.length_cons]
    omega

theorem length_dynBytes : R.dynBytes.length = R.dyn.length * dynSizeof := by
  rw [dynBytes]
  induction R.dyn with
  | nil => rfl
  | cons d ds ih =>
    rw [List.flatMap_cons, List.length_append, ih, d.length_eq, List.length_cons]
    ring

/-- A loop over all static rules. -/
theorem forRules_static {σ : Type} {body : ℕ → σ → Option (σ × Bool)}
    {f : StaticRecord → σ → σ × Bool}
    (hbody : ∀ r p l s, Buffer.At R.bytes p (r.bytes ++ l) → body p s = some (f r s)) (s : σ) :
    ∃ q, forRules R.bytes body (1 + R.rules.length) 0 s = some (q, (runLoop f R.static s).2) ∧
      Buffer.At R.bytes q ((runLoop f R.static s).1.flatMap (·.bytes) ++ R.dynBytes) := by
  have hlen : 1 + R.rules.length = R.static.length := by
    rw [static, List.length_append, List.length_singleton, Nat.add_comm]
  rw [hlen]
  exact forRules_eq hbody R.static (Buffer.At.start R.bytes) s

/-- In the order of the rules none is missed behind the first one with a larger number. -/
theorem filter_takeWhile (keep : StaticRecord → Bool) {last : ℕ}
    (hkeep : ∀ r, keep r = true → r.rulenum ≤ last) :
    (R.static.takeWhile fun r => !decide (last < r.rulenum)).filter keep =
      R.static.filter keep := by
  have hsorted := R.static_sorted
  generalize R.static = rs at hsorted ⊢
  induction rs with
  | nil => rfl
  | cons r rs ih =>
    rw [List.pairwise_cons] at hsorted
    rw [List.takeWhile_cons]
    by_cases hl : last < r.rulenum
    · rw [if_neg (by simpa using hl), List.filter_nil]
      refine (List.filter_eq_nil_iff.2 fun r' hr' hk => ?_).symm
      rcases List.mem_cons.1 hr' with rfl | hr'
      · exact absurd (hkeep _ hk) (not_le.2 hl)
      · exact absurd ((hsorted.1 r' hr').trans (hkeep _ hk)) (not_le.2 hl)
    · rw [if_pos (by simpa using hl), List.filter_cons, List.filter_cons, ih hsorted.2]

/-- The number at the address where a loop over the static rules was left. -/
theorem read_numberAt (hdyn : R.dyn ≠ []) {left : List StaticRecord}
    (h : Buffer.At R.bytes q (left.flatMap (·.bytes) ++ R.dynBytes)) :
    Buffer.read R.bytes (q + rulenumOfs) 2 = some (R.numberAt left) := by
  cases left with
  | cons r left =>
    rw [List.flatMap_cons, List.append_assoc] at h
    exact StaticRecord.read_rulenum h
  | nil =>
    obtain ⟨d, ds, hd⟩ := List.exists_cons_of_ne_nil hdyn
    rw [dynBytes, hd, List.flatMap_nil, List.nil_append, List.flatMap_cons] at h
    rw [numberAt, hd]
    exact h.read (by rw [d.length_eq]; decide)

/-- What the static rules show for an argument. -/
def shownStatic (arg : List Char) : Shown :=
  match parseRange arg with
  | none => { invalid := true }
  | some (rnum, last) =>
    { rules := R.selectRules co fun n => rnum ≤ n && n ≤ last
      noRule := (R.selectRules co fun n => rnum ≤ n && n ≤ last).isEmpty }

/-- The rules that are left by the last range. -/
def leftRules (left : List StaticRecord) (args : List (List Char)) : List StaticRecord :=
  (args.filterMap parseRange).getLast?.elim left fun p => R.static.dropWhile fun r =>
    r.rulenum ≤ p.2

theorem leftRules_cons {arg : List Char} {rnum last : ℕ} (h : parseRange arg = some (rnum, last))
    (left : List StaticRecord) (args : List (List Char)) :
    R.leftRules left (arg :: args) =
      R.leftRules (R.static.dropWhile fun r => r.rulenum ≤ last) args := by
  rw [leftRules, leftRules, List.filterMap_cons_some h, List.getLast?_cons]
  cases (args.filterMap parseRange).getLast? <;> rfl

/-- The loops over the static rules, one for each range. -/
theorem listRanges_eq (args : List (List Char)) (left : List StaticRecord)
    (h : Buffer.At R.bytes q (left.flatMap (·.bytes) ++ R.dynBytes)) :
    ∃ r, listRanges co R.bytes (1 + R.rules.length) args q =
        some (r, args.map (R.shownStatic co)) ∧
      Buffer.At R.bytes r ((R.leftRules left args).flatMap (·.bytes) ++ R.dynBytes) := by
  induction args generalizing q left with
  | nil => exact ⟨q, rfl, h⟩
  | cons arg args ih =>
    rw [listRanges, List.map_cons, shownStatic]
    cases hp : parseRange arg with
    | none =>
      obtain ⟨r, hr, hAt⟩ := ih left h
      refine ⟨r, by simp [hr], ?_⟩
      rwa [leftRules, List.filterMap_cons_none hp]
    | some range =>
      obtain ⟨rnum, last⟩ := range
      obtain ⟨q', hq', hAt'⟩ := R.forRules_static
        (rangeRule_eq co rnum last) {}
      have hleft : (R.static.dropWhile fun r => !decide (last < r.rulenum)) =
          R.static.dropWhile fun r => decide (r.rulenum ≤ last) := by
        simp only [← not_lt, decide_not]
      rw [runLoop_select, R.filter_takeWhile _ (fun r hr => by simp at hr; exact hr.2.2),
        foldl_putRule] at hq'
      rw [runLoop_select, hleft] at hAt'
      obtain ⟨r, hr, hAt⟩ := ih _ hAt'
      refine ⟨r, ?_, ?_⟩
      · simp [hq', hr, selectRules]
      · rwa [R.leftRules_cons hp]

/-- The loops over the dynamic entries, one for each range. -/
theorem listDynRanges_eq {number d : ℕ} (hd : Buffer.At R.bytes d R.dynBytes)
    (hnum : Buffer.read R.bytes (r + rulenumOfs) 2 = some number) (args : List (List Char)) :
    listDynRanges co R.bytes R.dyn.length d r args (args.map (R.shownStatic co)) =
      some (args.map fun arg => { R.shownStatic co arg with
        dyn := (parseRange arg).elim [] fun p =>
          ((R.dyn.takeWhile fun d => d.rulenum ≤ p.1).filter fun d =>
            !co.skips d.set && (p.1 ≤ number && number ≤ p.2)).map (·.bytes) }) := by
  induction args with
  | nil => rfl
  | cons arg args ih =>
    rw [List.map_cons, listDynRanges, ih, List.map_cons, shownStatic]
    cases hp : parseRange arg with
    | none => rfl
    | some range =>
      obtain ⟨rnum, last⟩ := range
      have hrun := forDyn_eq (rangeDyn_eq co rnum last hnum) R.dyn hd
      have htake : (R.dyn.takeWhile fun d => !decide (rnum < d.rulenum)) =
          R.dyn.takeWhile fun d => decide (d.rulenum ≤ rnum) := by
        simp only [← not_lt, decide_not]
      simp [hrun, runLoop_select, htake, foldl_putDyn]

/-- The loops for the widths read nothing outside the reply. -/
theorem listWidths_eq {d : ℕ} (hd : Buffer.At R.bytes d R.dynBytes) :
    ∃ r w, listWidths co R.bytes (1 + R.rules.length) R.dyn.length d = some (r, w) ∧
      Buffer.At R.bytes r R.dynBytes := by
  obtain ⟨r, w, hwidth, hr⟩ : ∃ r w, (if co.showCounters = true then
      forRules R.bytes (ruleWidths co R.bytes) (1 + R.rules.length) 0 {}
      else some (d, {})) = some (r, w) ∧ Buffer.At R.bytes r R.dynBytes := by
    by_cases hc : co.showCounters = true
    · obtain ⟨r, hrun, hr⟩ := R.forRules_static (ruleWidths_eq co) {}
      rw [runLoop_all _ (fun _ _ => rfl)] at hr
      exact ⟨r, _, by rw [if_pos hc, hrun], by simpa using hr⟩
    · exact ⟨d, {}, by rw [if_neg hc], hd⟩
  have hdyn := forDyn_eq (dynWidths_eq co) R.dyn hd w
  rw [listWidths, hwidth]
  by_cases hc : co.doDynamic = true ∧ R.dyn.length ≠ 0
  · exact ⟨r, _, by simp only [Option.bind_eq_bind, Option.bind_some, if_pos hc, hdyn]; rfl, hr⟩
  · exact ⟨r, w, by simp only [Option.bind_eq_bind, Option.bind_some, if_neg hc]; rfl, hr⟩

theorem listAll_eq {d : ℕ} (hd : Buffer.At R.bytes d R.dynBytes) :
    listAll co R.bytes (1 + R.rules.length) R.dyn.length d = some (R.shown co []) := by
  obtain ⟨_, hall, -⟩ := R.forRules_static (listRule_eq co) {}
  have hdyn := forDyn_eq (listDyn_eq co) R.dyn hd
  simp only [runLoop_select_all, foldl_putRule, foldl_putDyn] at hall hdyn
  rw [listAll, hall, shown, if_pos rfl]
  by_cases hc : co.doDynamic = true ∧ R.dyn.length ≠ 0
  · simp [hc, hdyn, selectRules, selectDyn]
  · by_cases hdo : co.doDynamic = true
    · have hnil : R.dyn = [] := by simpa [hdo] using hc
      simp [hnil, selectRules, selectDyn]
    · simp [hdo, selectRules, selectDyn]

theorem listArgs_eq {d : ℕ} (hd : Buffer.At R.bytes d R.dynBytes)
    (hr : Buffer.At R.bytes r R.dynBytes) {args : List (List Char)} (hargs : args ≠ []) :
    listArgs co R.bytes (1 + R.rules.length) R.dyn.length d r args = some (R.shown co args) := by
  obtain ⟨q, hranges, hq⟩ := R.listRanges_eq co args [] (by simpa using hr)
  rw [listArgs, hranges, shown, if_neg hargs]
  change (if co.doDynamic = true ∧ R.dyn.length ≠ 0 then _ else _) = _
  by_cases hc : co.doDynamic = true ∧ R.dyn.length ≠ 0
  · rw [if_pos hc, R.listDynRanges_eq co hd (R.read_numberAt (by simpa using hc.2) hq)]
    congr 1
    refine List.map_congr_left fun arg _ => ?_
    rw [shownStatic]
    cases hp : parseRange arg with
    | none => rfl
    | some range => simp [shownDyn, hc.1, leftNumber, leftRules]
  · rw [if_neg hc]
    congr 1
    refine List.map_congr_left fun arg _ => ?_
    rw [shownStatic]
    cases hp : parseRange arg with
    | none => rfl
    | some range =>
      by_cases hdo : co.doDynamic = true
      · have hnil : R.dyn = [] := by simpa [hdo] using hc
        simp [shownDyn, hnil]
      · simp [shownDyn, hdo]

/-- **What a listing shows.** Nothing outside the reply is read. -/
theorem ipfwList_eq (args : List (List Char)) :
    ∃ w, ipfwList co R.bytes args = some (w, R.shown co args) := by
  obtain ⟨q, hcount, hq⟩ := countStatic_eq R R.rules R.rules_lt (Buffer.At.start R.bytes)
    (show R.rules.length < R.bytes.length + 1 by
      have h := length_le_flatMap R.static
      rw [static, List.length_append, List.length_singleton] at h
      rw [bytes, List.length_append, static]
      omega) 1
  have hnext := StaticRecord.next hq
  have hd := hq.advance
  generalize q + R.default.bytes.length = d at hnext hd
  have hndyn : (R.bytes.length - d) / dynSizeof = R.dyn.length := by
    have h := hd.length
    rw [R.length_dynBytes] at h
    rw [← h, Nat.add_sub_cancel_left, Nat.mul_div_cancel _ (by decide)]
  obtain ⟨r, w, hwidth, hr⟩ := R.listWidths_eq co hd
  refine ⟨w, ?_⟩
  rw [ipfwList, hcount]
  simp only [Option.bind_eq_bind, Option.bind_some, hnext, hndyn, hwidth]
  by_cases hargs : args = []
  · rw [if_pos hargs, R.listAll_eq co hd, hargs]
    rfl
  · rw [if_neg hargs, R.listArgs_eq co hd hr hargs]
    rfl

/-! ### When the dynamic entries are the selected ones -/

/-- The dynamic entries of a range are shown exactly. If the number that they are taken for is in
the range, then the ones up to the first one with a larger number than `rnum` are shown: among these
there must be no other number than `rnum`, and behind them no number of the range. Otherwise nothing
is shown, and there must be no entry of the range. -/
def RangeExact (number rnum last : ℕ) : Prop :=
  if rnum ≤ number ∧ number ≤ last then
    (∀ d ∈ R.dyn.takeWhile fun d => d.rulenum ≤ rnum, co.skips d.set = false → d.rulenum = rnum) ∧
      ∀ d ∈ R.dyn.dropWhile fun d => d.rulenum ≤ rnum, co.skips d.set = false →
        ¬ (rnum ≤ d.rulenum ∧ d.rulenum ≤ last)
  else ∀ d ∈ R.dyn, co.skips d.set = false → ¬ (rnum ≤ d.rulenum ∧ d.rulenum ≤ last)

theorem map_bytes_inj {ds es : List DynRecord} (h : ds.map (·.bytes) = es.map (·.bytes)) :
    ds = es := by
  refine List.map_injective_iff.2 (fun d e hde => ?_) h
  cases d
  cases e
  cases hde
  rfl

/-- Two filters, of which the first one is for the first part of a list only. -/
theorem filter_eq_filter_append_iff {α : Type} (p q : α → Bool) (hqp : ∀ x, q x = true → p x = true)
    (xs ys : List α) :
    xs.filter p = (xs ++ ys).filter q ↔
      (∀ x ∈ xs, p x = true → q x = true) ∧ ∀ y ∈ ys, q y = false := by
  constructor
  · intro h
    have hq : ∀ x ∈ xs, p x = true → q x = true := fun x hx hp =>
      (List.mem_filter.1 (h ▸ List.mem_filter.2 ⟨hx, hp⟩)).2
    have hxs : xs.filter p = xs.filter q :=
      List.filter_congr fun x hx => Bool.eq_iff_iff.2 ⟨hq x hx, hqp x⟩
    rw [List.filter_append, hxs, List.self_eq_append_right, List.filter_eq_nil_iff] at h
    exact ⟨hq, fun y hy => by simpa using h y hy⟩
  · rintro ⟨hxs, hys⟩
    have hnil : ys.filter q = [] := List.filter_eq_nil_iff.2 fun y hy => by simp [hys y hy]
    rw [List.filter_append, hnil, List.append_nil]
    exact List.filter_congr fun x hx => Bool.eq_iff_iff.2 ⟨hxs x hx, hqp x⟩

theorem shownDyn_eq_iff (hdo : co.doDynamic = true) (number rnum last : ℕ) :
    R.shownDyn co number rnum last = R.selectDyn co (fun n => rnum ≤ n && n ≤ last) ↔
      R.RangeExact co number rnum last := by
  rw [shownDyn, selectDyn, if_pos hdo, if_pos hdo, RangeExact]
  by_cases hr : rnum ≤ number ∧ number ≤ last
  · rw [if_pos hr]
    have hsplit := filter_eq_filter_append_iff (fun d : DynRecord => !co.skips d.set)
      (fun d => !co.skips d.set && (decide (rnum ≤ d.rulenum) && decide (d.rulenum ≤ last)))
      (fun d hd => (Bool.and_eq_true_iff.1 hd).1) (R.dyn.takeWhile fun d => d.rulenum ≤ rnum)
      (R.dyn.dropWhile fun d => d.rulenum ≤ rnum)
    rw [List.takeWhile_append_dropWhile] at hsplit
    have hmap : ∀ ds es : List DynRecord, ds.map (·.bytes) = es.map (·.bytes) ↔ ds = es :=
      fun ds es => ⟨map_bytes_inj, fun h => h ▸ rfl⟩
    simp only [hr.1, hr.2, decide_true, Bool.and_true, hmap, hsplit]
    refine and_congr (forall₂_congr fun d hd => ?_) (forall₂_congr fun d _ => ?_)
    · -- The numbers up to there are at most the start of the range.
      have hle : d.rulenum ≤ rnum := by simpa using List.mem_takeWhile_imp hd
      cases hs : co.skips d.set
      · simp
        omega
      · simp
    · cases hs : co.skips d.set <;> simp [not_and, -not_le]
  · rw [if_neg hr]
    have hnone : (decide (rnum ≤ number) && decide (number ≤ last)) = false :=
      Bool.eq_false_iff.2 fun h => hr (by simpa using h)
    simp only [hnone, Bool.and_false, List.filter_false, List.map_nil]
    rw [eq_comm, List.map_eq_nil_iff, List.filter_eq_nil_iff]
    refine forall₂_congr fun d _ => ?_
    cases hs : co.skips d.set <;> simp [-not_le]

end Reply

/-- A rule with some number. -/
def exampleRule (number : BitVec 8 × BitVec 8) : StaticRecord where
  bytes := List.replicate 18 0 ++ [1, 0] ++ [number.1, number.2] ++ List.replicate 34 0
  length_eq := by
    simp only [List.length_append, List.length_replicate, List.length_cons, List.length_nil,
      Buffer.field, cmdLenOfs]
    rfl

/-- A dynamic entry of the rule with the number 100. -/
def exampleDyn : DynRecord where
  bytes := List.replicate 8 0 ++ [100] ++ List.replicate 111 0
  length_eq := by simp [dynSizeof]

/-- A reply with the rule 100 and an entry of it. -/
def exampleReply : Reply where
  rules := [exampleRule (100, 0)]
  default := exampleRule (255, 255)
  dyn := [exampleDyn]
  sorted := List.pairwise_singleton _ _
  rules_lt := by decide +kernel
  default_eq := by decide +kernel

end Dummynet.Tool
