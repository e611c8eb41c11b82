import Dummynet.Ipfw.Chk
import Mathlib

/-!
# The action part of a rule

The action part of a rule is a sequence of modifiers (`O_LOG`, `O_ALTQ`, `O_TAG`) with an action at
its end. The modifiers go through the same epilogue as the tests of the pattern.

## Main definitions

* `ActionPart`: the modifiers and the action from an instruction on.
* `executed`: the instructions that are executed until the rule is left.
* `Insn.Carries`, `CarriesAll`: the flags of a modifier let the evaluation go on.

## Main results

* `executed_actionPart_iff`: when the modifiers and the action are all executed.
-/

namespace Ipfw

variable {Δ : Type} {E : Env Δ} {k : Hdr} {C : Chain} {s t : Chk Δ} {c : Insn}

/-- The modifiers of an action. -/
def Insn.IsModifier (c : Insn) : Prop :=
  c.opcode = some .log ∨ c.opcode = some .altq ∨ c.opcode = some .tag

/-- From `p` up to the end `e` of the rule there are the modifiers at the positions `ms` and then
the action at `a`, all as the check accepts them. -/
inductive ActionPart (K : Kernel) (w : ℕ → BitVec 32) (e : ℕ) : ℕ → List ℕ → ℕ → Prop
  | action {p : ℕ} : checkInsn K (.ofWord (w p)) = .ok .action →
      p + (Insn.ofWord (w p)).fLen = e → ActionPart K w e p [] p
  | modifier {p : ℕ} {ms : List ℕ} {a : ℕ} : (Insn.ofWord (w p)).IsModifier →
      checkInsn K (.ofWord (w p)) = .ok .pattern →
      ActionPart K w e (p + (Insn.ofWord (w p)).fLen) ms a → ActionPart K w e p (p :: ms) a

/-- The instructions, by their rules and positions, whose cases of the switch are executed in `n`
rounds of the inner loop, unless it is left before. -/
def executed (E : Env Δ) (k : Hdr) (C : Chain) : ℕ → Chk Δ → List (RulePtr × ℕ)
  | 0, _ => []
  | n + 1, s =>
    if s.pc = .inner ∧ 0 < s.l then
      (if s.skipOr then [] else [(s.f, s.cmd)]) ++ executed E k C n ((step E k C s).val s)
    else []

/-! ### The loop body -/

@[simp]
theorem val_insnAt (w : RulePtr → ℕ → BitVec 32) (f : RulePtr) (p : ℕ) :
    (insnAt w f p : Ev Δ Insn).val s = .ofWord (w f p) := (rfl)

/-- `match` after `F_NOT`. -/
def Chk.result (s : Chk Δ) (c : Insn) : Bool := s.matched ^^ c.fNot

theorem result_eq : s.result c = if c.fNot then !s.matched else s.matched := by
  unfold Chk.result
  cases c.fNot <;> simp

/-- The evaluation goes on with the next instruction. -/
theorem close_next (h : s.result c = !c.fOr) :
    s.close c = { s with matched := !c.fOr }.advance := by
  rw [result_eq] at h
  unfold Chk.close
  simp only [h]
  cases c.fOr <;> rfl

/-- The rest of an or-block is skipped. -/
theorem close_skip (h : s.result c = true) (hor : c.fOr = true) :
    s.close c = { s with matched := true, skipOr := true }.advance := by
  rw [result_eq] at h
  unfold Chk.close
  simp only [h, hor, if_true]

/-- The rule fails. -/
theorem close_fail (h : s.result c = false) (hor : c.fOr = false) :
    s.close c = { s with matched := false }.leave := by
  rw [result_eq] at h
  unfold Chk.close
  simp only [h, hor, Bool.false_eq_true, if_false]

theorem epilogue_val : (epilogue t).val s = t.close (.ofWord (t.words t.f t.cmd)) := rfl

/-- A round of the inner loop. -/
theorem step_inner (hpc : s.pc = .inner) (hl : 0 < s.l) : step E k C s = body E k C s := by
  simp only [step, hpc, hl, if_true]

/-- A round in which an instruction is skipped. -/
theorem step_skip (hpc : s.pc = .inner) (hl : 0 < s.l) (hs : s.skipOr = true)
    (hc : Insn.ofWord (s.words s.f s.cmd) = c) :
    (step E k C s).val s =
      (if c.fOr then { s with cmdlen := c.fLen }
        else { s with cmdlen := c.fLen, skipOr := false }).advance := by
  rw [step_inner hpc hl, body, Reads.val_bind, val_insnAt, hc, if_pos hs, Reads.val_pure]

/-- A round in which an instruction is executed and the switch is left by `break`. -/
theorem step_brk (hpc : s.pc = .inner) (hl : 0 < s.l) (hs : s.skipOr = false)
    (hc : Insn.ofWord (s.words s.f s.cmd) = c)
    (he : (exec E k C c { s with cmdlen := c.fLen, matched := false }).val s = (.brk, t)) :
    (step E k C s).val s = (epilogue t).val s := by
  rw [step_inner hpc hl, body, Reads.val_bind, val_insnAt, hc,
    if_neg (show ¬ s.skipOr = true by simp [hs]), Reads.val_bind, he]

/-- A round in which an instruction leaves the switch by `continue`. -/
theorem step_cont (hpc : s.pc = .inner) (hl : 0 < s.l) (hs : s.skipOr = false)
    (hc : Insn.ofWord (s.words s.f s.cmd) = c)
    (he : (exec E k C c { s with cmdlen := c.fLen, matched := false }).val s = (.cont, t)) :
    (step E k C s).val s = t.advance := by
  rw [step_inner hpc hl, body, Reads.val_bind, val_insnAt, hc,
    if_neg (show ¬ s.skipOr = true by simp [hs]), Reads.val_bind, he]
  rfl

/-! ### Modifiers -/

/-- The tags of the packet after a modifier. -/
def tagsAfter (E : Env Δ) (tablearg : BitVec 32) (tick : ℕ) (tags : List MTag) (c : Insn) :
    List MTag :=
  let tag := if c.arg1 = ipFwTablearg then tablearg else c.arg1.setWidth 32
  if c.opcode = some .tag ∧ c.fNot = false ∧ mTagLocate tags mtagIpfw tag = none ∧ E.malloc tick
  then mTagAlloc mtagIpfw tag :: tags else tags

/-- The packet has the tag of an instruction. -/
def Insn.present (c : Insn) (tablearg : BitVec 32) (tags : List MTag) : Bool :=
  (mTagLocate tags mtagIpfw
    (if c.arg1 = ipFwTablearg then tablearg else c.arg1.setWidth 32)).isSome

/-- The flags of a modifier let the evaluation go on with the next instruction: `untag` has no
`F_OR`, a tag has `F_OR` exactly if the packet has the tag already, and the others have both flags
or none. -/
def Insn.Carries (c : Insn) (tablearg : BitVec 32) (tags : List MTag) : Prop :=
  if c.opcode = some .tag then
    if c.fNot then c.fOr = false else c.fOr = c.present tablearg tags
  else c.fNot = c.fOr

instance (c : Insn) (tablearg : BitVec 32) (tags : List MTag) :
    Decidable (c.Carries tablearg tags) := by
  unfold Insn.Carries
  infer_instance

/-- The flags of all modifiers at the positions `ms` let the evaluation go on. -/
def CarriesAll (E : Env Δ) (w : ℕ → BitVec 32) (tablearg : BitVec 32) :
    ℕ → List MTag → List ℕ → Prop
  | _, _, [] => True
  | tick, tags, p :: ms =>
    (Insn.ofWord (w p)).Carries tablearg tags ∧
      CarriesAll E w tablearg (tick + 1) (tagsAfter E tablearg tick tags (.ofWord (w p))) ms

/-- What a modifier leaves as it is, except for its tags and the word that `ipfw_log` writes. -/
structure Modifies (C : Chain) (s t : Chk Δ) : Prop where
  pc : t.pc = s.pc
  f : t.f = s.f
  cmd : t.cmd = s.cmd
  l : t.l = s.l
  cmdlen : t.cmdlen = s.cmdlen
  skipOr : t.skipOr = s.skipOr
  tablearg : t.tablearg = s.tablearg
  tick : t.tick = s.tick
  words : ∀ p, p ≠ (C.rule s.f).actOfs.toNat + 2 → t.words s.f p = s.words s.f p
  flags : (Insn.ofWord (s.words s.f s.cmd)).opcode ≠ some .nop →
    (Insn.ofWord (t.words s.f s.cmd)).len = (Insn.ofWord (s.words s.f s.cmd)).len

theorem Modifies.of_words (h : t.pc = s.pc ∧ t.f = s.f ∧ t.cmd = s.cmd ∧ t.l = s.l ∧
    t.cmdlen = s.cmdlen ∧ t.skipOr = s.skipOr ∧ t.tablearg = s.tablearg ∧ t.tick = s.tick)
    (hw : t.words = s.words) : Modifies C s t := by
  obtain ⟨h1, h2, h3, h4, h5, h6, h7, h8⟩ := h
  exact ⟨h1, h2, h3, h4, h5, h6, h7, h8, fun p _ => by rw [hw], fun _ => by rw [hw]⟩

/-- Counting down a word whose first byte is not zero leaves its second byte as it is. -/
theorem extractLsb'_sub_one {w : BitVec 32} (hw : w.extractLsb' 0 8 ≠ 0#8) :
    (w - 1).extractLsb' 8 8 = w.extractLsb' 8 8 := by
  have h0 : w.toNat % 256 ≠ 0 := by
    intro h
    apply hw
    apply BitVec.eq_of_toNat_eq
    rw [BitVec.extractLsb'_toNat]
    simpa using h
  apply BitVec.eq_of_toNat_eq
  rw [BitVec.extractLsb'_toNat, BitVec.extractLsb'_toNat]
  have := w.isLt
  have hsub : (w - 1).toNat = w.toNat - 1 := by
    rw [BitVec.toNat_sub]
    simp
    omega
  rw [hsub]
  simp only [Nat.shiftRight_eq_div_pow, Nat.reducePow]
  omega

/-- `ipfw_log` counts down one word. -/
theorem ipfwLog_modifies (s₀ : Chk Δ) : Modifies C s ((ipfwLog E C s).val s₀) ∧
    ((ipfwLog E C s).val s₀).tags = s.tags := by
  have hself : Modifies C s s := .of_words ⟨rfl, rfl, rfl, rfl, rfl, rfl, rfl, rfl⟩ rfl
  simp only [ipfwLog, Reads.val_ite, Reads.val_bind, Reads.val_pure, wordAt, Reads.val_read]
  split_ifs with hv hlog
  · exact ⟨hself, rfl⟩
  · exact ⟨hself, rfl⟩
  · refine ⟨⟨rfl, rfl, rfl, rfl, rfl, rfl, rfl, rfl, fun p hp => ?_, fun hop => ?_⟩, rfl⟩
    · simp only [Function.update_self]
      exact Function.update_of_ne hp _ _
    · simp only [Function.update_self]
      rcases eq_or_ne s.cmd ((C.rule s.f).actOfs.toNat + 2) with he | he
      · rw [← he, Function.update_self]
        refine extractLsb'_sub_one fun h0 => hop ?_
        simp only [Insn.ofWord]
        rw [h0]
        rfl
      · rw [Function.update_of_ne he]

/-- Whether a modifier has set `match`. -/
def Insn.modMatch (c : Insn) (tablearg : BitVec 32) (tags : List MTag) : Bool :=
  if c.opcode = some .tag then !c.fNot && !c.present tablearg tags else true

/-- The evaluation goes on after a modifier exactly if `match`, inverted if `F_NOT` is set, is set
without `F_OR` or clear with it. -/
theorem carries_iff {tablearg : BitVec 32} {tags : List MTag} :
    c.Carries tablearg tags ↔ (c.modMatch tablearg tags ^^ c.fNot) = !c.fOr := by
  unfold Insn.Carries Insn.modMatch
  by_cases hop : c.opcode = some .tag
  · cases hn : c.fNot <;> cases ho : c.fOr <;> cases hp : c.present tablearg tags <;> simp [hop]
  · cases hn : c.fNot <;> cases ho : c.fOr <;> simp [hop]

/-- **Modifiers.** A modifier changes the tags and one word, and leaves the switch by `break`. -/
theorem exec_modifier (hc : c.IsModifier) (s₀ : Chk Δ) :
    ∃ t, (exec E k C c s).val s₀ = (.brk, t) ∧ Modifies C s t ∧
      t.tags = tagsAfter E s.tablearg s.tick s.tags c ∧
      t.matched = c.modMatch s.tablearg s.tags ∧ (c.opcode ≠ some .log → t.words = s.words) := by
  rcases hc with hc | hc | hc
  · have hlog : Modifies C s ((ipfwLog E C s).val s₀) ∧ _ := ipfwLog_modifies s₀
    refine ⟨{ (ipfwLog E C s).val s₀ with matched := true }, ?_, ?_, ?_, ?_, fun h => absurd hc h⟩
    · simp only [exec, hc]
      rfl
    · exact { hlog.1 with }
    · simp [tagsAfter, hc, hlog.2]
    · simp [Insn.modMatch, hc]
  · have hself : ∀ q m, Modifies C s { s with altq := q, matched := m } :=
      fun q m => .of_words ⟨rfl, rfl, rfl, rfl, rfl, rfl, rfl, rfl⟩ rfl
    simp only [exec, hc, execAltq, Reads.val_ite, Reads.val_bind, Reads.val_pure]
    split_ifs with h
    · exact ⟨_, rfl, hself s.altq true, by simp [tagsAfter, hc], by simp [Insn.modMatch, hc],
        fun _ => rfl⟩
    · exact ⟨_, rfl, hself _ true, by simp [tagsAfter, hc], by simp [Insn.modMatch, hc],
        fun _ => rfl⟩
  · have hself : ∀ tags m, Modifies C s { s with tags := tags, matched := m } :=
      fun tags m => .of_words ⟨rfl, rfl, rfl, rfl, rfl, rfl, rfl, rfl⟩ rfl
    simp only [exec, hc, Reads.val_pure, execTag, Chk.arg]
    unfold tagsAfter Insn.modMatch Insn.present
    cases hloc : mTagLocate s.tags mtagIpfw
        (if c.arg1 = ipFwTablearg then s.tablearg else c.arg1.setWidth 32) with
    | some mtag =>
      cases hn : c.fNot
      · exact ⟨_, rfl, hself s.tags false, by simp [hloc], by simp [hc], fun _ => rfl⟩
      · exact ⟨_, rfl, hself s.tags false, by simp [mTagDelete], by simp [hc], fun _ => rfl⟩
    | none =>
      cases hn : c.fNot
      · cases hm : E.malloc s.tick
        · exact ⟨_, rfl, hself s.tags true, by simp, by simp [hc], fun _ => rfl⟩
        · exact ⟨_, rfl, hself _ true, by simp [hc, hloc], by simp [hc], fun _ => rfl⟩
      · exact ⟨_, rfl, hself s.tags false, by simp, by simp [hc], fun _ => rfl⟩

/-- Only the flags of the instruction matter in the epilogue. -/
theorem close_congr {c' : Insn} (h : c'.len = c.len) : s.close c' = s.close c := by
  have hn : c'.fNot = c.fNot := by rw [Insn.fNot, h, Insn.fNot]
  have ho : c'.fOr = c.fOr := by rw [Insn.fOr, h, Insn.fOr]
  rw [Chk.close, hn, ho, Chk.close]

theorem Insn.IsModifier.opcode_ne_nop (h : c.IsModifier) : c.opcode ≠ some .nop := by
  rcases h with h | h | h <;> rw [h] <;> simp

/-- A round at a modifier. -/
theorem step_modifier (hpc : s.pc = .inner) (hl : 0 < s.l) (hs : s.skipOr = false)
    (hc : Insn.ofWord (s.words s.f s.cmd) = c) (hmod : c.IsModifier) :
    ∃ t, (step E k C s).val s = t.close c ∧
      Modifies C { s with cmdlen := c.fLen, matched := false } t ∧
      t.tags = tagsAfter E s.tablearg s.tick s.tags c ∧
      t.matched = c.modMatch s.tablearg s.tags ∧ (c.opcode ≠ some .log → t.words = s.words) := by
  obtain ⟨t, he, hm, htags, hmatched, hw⟩ :=
    exec_modifier (E := E) (k := k) (C := C) (s := { s with cmdlen := c.fLen, matched := false })
      hmod s
  refine ⟨t, ?_, hm, htags, hmatched, hw⟩
  rw [step_brk hpc hl hs hc he, epilogue_val, hm.f, hm.cmd]
  refine close_congr ?_
  have := hm.flags
  dsimp only at this
  rw [hc] at this
  exact this hmod.opcode_ne_nop

/-! ### Runs through the action part -/

/-- The interpreter is in the rule `f`, which ends at `e`, with the instruction at `p` next. -/
structure At (f : RulePtr) (e p : ℕ) (s : Chk Δ) : Prop where
  pc : s.pc = .inner
  f : s.f = f
  cmd : s.cmd = p
  l : s.l = e - p

variable {f : RulePtr} {e p : ℕ} {K : Kernel} {w : ℕ → BitVec 32} {ms : List ℕ} {a n : ℕ}

/-- The state after a modifier that lets the evaluation go on. -/
theorem step_carries (hs : At f e p s) (hpe : p < e) (hskip : s.skipOr = false)
    (hc : Insn.ofWord (s.words f p) = c) (hmod : c.IsModifier)
    (hcar : c.Carries s.tablearg s.tags) :
    ∃ t, (step E k C s).val s = t ∧ At f e (p + c.fLen) t ∧ t.skipOr = false ∧
      t.tablearg = s.tablearg ∧ t.tick = s.tick + 1 ∧
      t.tags = tagsAfter E s.tablearg s.tick s.tags c ∧
      ∀ q, (c.opcode = some .log → q ≠ (C.rule f).actOfs.toNat + 2) →
        t.words f q = s.words f q := by
  obtain ⟨t, ht, hm, htags, hmatched, hw⟩ := step_modifier (E := E) (k := k) (C := C) hs.pc
    (by rw [hs.l]; omega) hskip (by rw [hs.f, hs.cmd, hc]) hmod
  have hres : t.result c = !c.fOr := by
    rw [Chk.result, hmatched]
    exact carries_iff.1 hcar
  refine ⟨_, rfl, ?_⟩
  rw [ht, close_next hres]
  refine ⟨⟨hm.pc.trans hs.pc, hm.f.trans hs.f, ?_, ?_⟩, hm.skipOr.trans hskip, hm.tablearg,
    congrArg (· + 1) hm.tick, htags, fun q hq => ?_⟩
  · simp only [Chk.advance, hm.cmd, hm.cmdlen, hs.cmd]
  · simp only [Chk.advance, hm.l, hm.cmdlen, hs.l]
    omega
  · by_cases hlog : c.opcode = some .log
    · have := hm.words q
      simp only [hs.f] at this
      exact this (hq hlog)
    · simp only [Chk.advance, hw hlog]

/-- The instruction at `p` is not executed before the rule is left: the rule is left already, it is
further on, or it skips the instruction. -/
def Misses (f : RulePtr) (p : ℕ) (s : Chk Δ) : Prop :=
  s.pc = .inner → s.f = f ∧ (p < s.cmd ∨ s.cmd = p ∧ s.skipOr = true ∧
    0 < (Insn.ofWord (s.words f p)).fLen)

/-- The state after a modifier that does not let the evaluation go on. -/
theorem step_not_carries (hs : At f e p s) (hpe : p < e) (hskip : s.skipOr = false)
    (hc : Insn.ofWord (s.words f p) = c) (hmod : c.IsModifier)
    (hcar : ¬ c.Carries s.tablearg s.tags)
    (hnext : ∀ q, (c.opcode = some .log → q ≠ (C.rule f).actOfs.toNat + 2) →
      q = p + c.fLen → 0 < (Insn.ofWord (s.words f q)).fLen)
    (hlog : c.opcode = some .log → p + c.fLen ≠ (C.rule f).actOfs.toNat + 2) :
    Misses f (p + c.fLen) ((step E k C s).val s) := by
  obtain ⟨t, ht, hm, -, hmatched, hw⟩ := step_modifier (E := E) (k := k) (C := C) hs.pc
    (by rw [hs.l]; omega) hskip (by rw [hs.f, hs.cmd, hc]) hmod
  have hres : t.result c = c.fOr := by
    rw [Chk.result, hmatched]
    rw [carries_iff] at hcar
    revert hcar
    generalize (c.modMatch s.tablearg s.tags ^^ c.fNot) = x
    cases x <;> cases c.fOr <;> simp
  rw [ht]
  cases hor : c.fOr with
  | true =>
    rw [close_skip (hres.trans hor) hor]
    intro _
    refine ⟨hm.f.trans hs.f, .inr ⟨?_, rfl, ?_⟩⟩
    · simp only [Chk.advance, hm.cmd, hm.cmdlen, hs.cmd]
    · have hword : t.words f (p + c.fLen) = s.words f (p + c.fLen) := by
        by_cases hop : c.opcode = some .log
        · have := hm.words (p + c.fLen)
          simp only [hs.f] at this
          exact this (hlog hop)
        · rw [hw hop]
      simp only [Chk.advance, hword]
      exact hnext _ hlog rfl
  | false =>
    rw [close_fail (hres.trans hor) hor]
    intro hpc
    exfalso
    revert hpc
    unfold Chk.leave
    split_ifs <;> simp

/-- Such an instruction is not the next one that is executed. -/
theorem Misses.executed (h : Misses f p s) (x : List (RulePtr × ℕ)) :
    executed E k C n s ≠ (f, p) :: x := by
  induction n generalizing s with
  | zero => simp [Ipfw.executed]
  | succ n ih =>
    rw [Ipfw.executed]
    split_ifs with hpc hskip
    · obtain ⟨hf, h⟩ := h hpc.1
      rw [List.nil_append]
      refine ih fun hpc' => ?_
      rw [step_skip hpc.1 hpc.2 hskip rfl] at hpc' ⊢
      have hstay : ∀ u : Chk Δ, u = (if (Insn.ofWord (s.words s.f s.cmd)).fOr then
          { s with cmdlen := (Insn.ofWord (s.words s.f s.cmd)).fLen }
          else { s with cmdlen := (Insn.ofWord (s.words s.f s.cmd)).fLen, skipOr := false }) →
          u.f = s.f ∧ u.cmd = s.cmd ∧ u.cmdlen = (Insn.ofWord (s.words s.f s.cmd)).fLen := by
        rintro u rfl
        split_ifs <;> exact ⟨rfl, rfl, rfl⟩
      obtain ⟨h1, h2, h3⟩ := hstay _ rfl
      refine ⟨h1.trans hf, .inl ?_⟩
      simp only [Chk.advance, h2, h3]
      rcases h with h | ⟨h, -, hlen⟩
      · omega
      · rw [hf, h]
        omega
    · obtain ⟨hf, h⟩ := h hpc.1
      intro he
      have := (Prod.mk.inj (List.cons.inj he).1).2
      rcases h with h | h
      · omega
      · exact hskip h.2.1
    · simp

/-- The first instruction of an action part. -/
theorem ActionPart.head (h : ActionPart K w e p ms a) : ∃ l, ms ++ [a] = p :: l := by
  cases h with
  | action => exact ⟨[], rfl⟩
  | modifier => exact ⟨_, rfl⟩

/-- An action part starts with an instruction that is accepted. -/
theorem ActionPart.fLen_pos (h : ActionPart K w e p ms a) : 0 < (Insn.ofWord (w p)).fLen := by
  cases h with
  | action h => exact fLen_pos_of_checkInsn h
  | modifier _ h => exact fLen_pos_of_checkInsn h

theorem ActionPart.lt (h : ActionPart K w e p ms a) : p < e := by
  induction h with
  | action h he =>
    have := fLen_pos_of_checkInsn h
    omega
  | modifier _ _ _ ih => omega

/-- An accepted `O_LOG` has three words. -/
theorem fLen_of_log (hc : c.opcode = some .log) {x : CheckClass} (h : checkInsn K c = .ok x) :
    c.fLen = 3 := by
  unfold checkInsn at h
  rw [hc] at h
  by_contra hne
  simp [require, hne, bind, Except.bind] at h

/-- **Runs.** From an instruction of the action part on, all modifiers and the action are executed
if and only if the flags of the modifiers let the evaluation go on. -/
theorem executed_actionPart_iff (h : ActionPart K w e p ms a) :
    ∀ {s : Chk Δ}, At f e p s → s.skipOr = false → (C.rule f).actOfs.toNat ≤ p →
      (∀ q, p ≤ q → s.words f q = w q) →
      ((∃ n, executed E k C n s = (ms ++ [a]).map (f, ·)) ↔
        CarriesAll E w s.tablearg s.tick s.tags ms) := by
  induction h with
  | action hact he =>
    rename_i p
    intro s hs hskip hp hw
    refine iff_of_true ⟨1, ?_⟩ trivial
    have := fLen_pos_of_checkInsn hact
    simp [executed, hs.pc, hskip, hs.f, hs.cmd, hs.l]
    omega
  | @modifier p ms a hmod hchk hrest ih =>
    intro s hs hskip hp hw
    have hpe : p < e := (ActionPart.modifier hmod hchk hrest).lt
    have hc : Insn.ofWord (s.words f p) = Insn.ofWord (w p) := by rw [hw p le_rfl]
    -- an `O_LOG` counts down a word before the next instruction
    have hlog : (Insn.ofWord (w p)).opcode = some .log →
        ∀ q, p + (Insn.ofWord (w p)).fLen ≤ q → q ≠ (C.rule f).actOfs.toNat + 2 := by
      intro hop q hq
      rw [fLen_of_log hop hchk] at hq
      omega
    have hcons : ∀ n, executed E k C (n + 1) s =
        (f, p) :: executed E k C n ((step E k C s).val s) := by
      intro n
      rw [executed, if_pos ⟨hs.pc, by rw [hs.l]; omega⟩, if_neg (by simp [hskip]), hs.f, hs.cmd]
      rfl
    have hex : (∃ n, executed E k C n s = ((p :: ms) ++ [a]).map (f, ·)) ↔
        ∃ n, executed E k C n ((step E k C s).val s) = (ms ++ [a]).map (f, ·) := by
      constructor
      · rintro ⟨n, hn⟩
        cases n with
        | zero => simp [executed] at hn
        | succ n =>
          rw [hcons] at hn
          exact ⟨n, (List.cons.inj hn).2⟩
      · rintro ⟨n, hn⟩
        exact ⟨n + 1, by rw [hcons, hn]; rfl⟩
    rw [hex, CarriesAll]
    by_cases hcar : (Insn.ofWord (w p)).Carries s.tablearg s.tags
    · obtain ⟨t, ht, hat, hskip', htab, htick, htags, hwords⟩ :=
        step_carries (E := E) (k := k) (C := C) hs hpe hskip hc hmod hcar
      rw [ht, ih hat hskip' (by omega) fun q hq => ?_, htab, htick, htags, and_iff_right hcar]
      rw [hwords q fun hop => hlog hop q hq, hw q (by omega)]
    · refine iff_of_false ?_ fun hall => hcar hall.1
      rintro ⟨n, hn⟩
      obtain ⟨l, hl⟩ := hrest.head
      rw [hl, List.map_cons] at hn
      refine Misses.executed (step_not_carries hs hpe hskip hc hmod hcar ?_
        fun hop => hlog hop _ le_rfl) _ hn
      rintro q - rfl
      rw [hw _ (by omega)]
      exact hrest.fLen_pos

/-! ### Reaching the action part -/

/-- All instructions of the pattern of the rule `f` have matched. `skip_or` may still be set, by an
instruction with `F_OR` at the end of the pattern. -/
def AtAction (C : Chain) (f : RulePtr) (s : Chk Δ) : Prop :=
  At f (C.rule f).cmdLen.toNat (C.rule f).actOfs.toNat s

/-- The next instruction is an `O_PROBE_STATE` or `O_CHECK_STATE` that makes the first lookup of a
dynamic rule, and finds one of the rule `f`. -/
structure Hit (E : Env Δ) (k : Hdr) (f : RulePtr) (s : Chk Δ) : Prop where
  pc : s.pc = .inner
  l : 0 < s.l
  skipOr : s.skipOr = false
  opcode : (Insn.ofWord (s.words s.f s.cmd)).opcode = some .probeState ∨
    (Insn.ofWord (s.words s.f s.cmd)).opcode = some .checkState
  dynDir : s.dynDir = .unknown
  found : (E.lookupDynRule (s.flowId k) ((lookupAck k).val s) s.dyn).1 = some f

/-- After the jump to the action part of the rule `f`. -/
structure Jumped (C : Chain) (f : RulePtr) (s t : Chk Δ) : Prop where
  matched : t.matched = true
  at_action : AtAction C f t
  cmdlen : t.cmdlen = 0
  skipOr : t.skipOr = false
  tablearg : t.tablearg = s.tablearg
  tick : t.tick = s.tick
  tags : t.tags = s.tags
  words : t.words = s.words

/-- The jump. -/
theorem execState_found (s₀ : Chk Δ) (hpc : s.pc = .inner) (hskip : s.skipOr = false)
    (hdir : s.dynDir = .unknown)
    (hf : (E.lookupDynRule (s.flowId k) ((lookupAck k).val s₀) s.dyn).1 = some f) :
    ∃ t, (execState E k C c s).val s₀ = (.brk, t) ∧ Jumped C f s t := by
  simp only [execState, lookupDyn, hdir, if_true, Reads.val_bind, Reads.val_pure, hf]
  exact ⟨_, rfl, rfl, ⟨hpc, rfl, rfl, rfl⟩, rfl, hskip, rfl, rfl, rfl, rfl⟩

/-- After a hit, the flags of the instruction at `ACTION_PTR` decide how to go on. -/
theorem Hit.step (h : Hit E k f s) :
    ∃ t, (step E k C s).val s = t.close (.ofWord (s.words f (C.rule f).actOfs.toNat)) ∧
      Jumped C f s t := by
  obtain ⟨c, hc⟩ : ∃ c, Insn.ofWord (s.words s.f s.cmd) = c := ⟨_, rfl⟩
  have hop := h.opcode
  rw [hc] at hop
  have hexec : exec E k C c { s with cmdlen := c.fLen, matched := false } =
      execState E k C c { s with cmdlen := c.fLen, matched := false } := by
    rcases hop with hop | hop <;> simp only [exec, hop]
  obtain ⟨t, he, ht⟩ := execState_found (E := E) (k := k) (C := C) (c := c)
    (s := { s with cmdlen := c.fLen, matched := false }) s h.pc h.skipOr h.dynDir h.found
  refine ⟨t, ?_, { ht with }⟩
  rw [step_brk h.pc h.l h.skipOr hc (hexec ▸ he), epilogue_val, ht.at_action.f, ht.at_action.cmd,
    ht.words]

/-- **A matched rule executes its action.** Let the action part of the rule `f` consist of
modifiers and one action. If it is reached from the pattern, all of them are executed if and only
if no or-block of the pattern is still open and the flags of the modifiers let the evaluation go on.
If it is reached through a dynamic rule, the same holds, where the first instruction must have both
flags or none, since the epilogue of the jump looks at its flags. -/
theorem action_executed_iff (hpart : ActionPart K (s.words f) (C.rule f).cmdLen.toNat
      (C.rule f).actOfs.toNat ms a) :
    (AtAction C f s →
      ((∃ n, executed E k C n s = (ms ++ [a]).map (f, ·)) ↔
        s.skipOr = false ∧ CarriesAll E (s.words f) s.tablearg s.tick s.tags ms)) ∧
    (Hit E k f s →
      ((∃ n, executed E k C n ((step E k C s).val s) = (ms ++ [a]).map (f, ·)) ↔
        (Insn.ofWord (s.words f (C.rule f).actOfs.toNat)).fNot =
            (Insn.ofWord (s.words f (C.rule f).actOfs.toNat)).fOr ∧
          CarriesAll E (s.words f) s.tablearg (s.tick + 1) s.tags ms)) := by
  obtain ⟨l, hl⟩ := hpart.head
  constructor
  · intro hs
    cases hskip : s.skipOr with
    | false =>
      rw [executed_actionPart_iff hpart hs hskip le_rfl fun _ _ => rfl]
      simp
    | true =>
      refine iff_of_false ?_ (by simp)
      rintro ⟨n, hn⟩
      rw [hl, List.map_cons] at hn
      exact Misses.executed (fun _ => ⟨hs.f, .inr ⟨hs.cmd, hskip, hpart.fLen_pos⟩⟩) _ hn
  · intro hs
    obtain ⟨t, hstep, ht⟩ := hs.step (C := C)
    rw [hstep]
    set c := Insn.ofWord (s.words f (C.rule f).actOfs.toNat) with hc
    have hres : t.result c = !c.fNot := by
      rw [Chk.result, ht.matched, Bool.true_xor]
    have hat : ∀ m, AtAction C f ({ t with matched := m } : Chk Δ).advance := by
      intro m
      refine ⟨ht.at_action.pc, ht.at_action.f, ?_, ?_⟩
      · simp only [Chk.advance, ht.at_action.cmd, ht.cmdlen, Nat.add_zero]
      · simp only [Chk.advance, ht.at_action.l, ht.cmdlen, Nat.cast_zero, sub_zero]
    cases hn : c.fNot <;> cases ho : c.fOr
    · rw [close_next (by rw [hres, hn, ho])]
      rw [executed_actionPart_iff hpart (hat _) ht.skipOr le_rfl
        fun q _ => by simp only [Chk.advance, ht.words]]
      simp only [Chk.advance, ht.tablearg, ht.tick, ht.tags, true_and]
    · refine iff_of_false ?_ (by simp)
      rintro ⟨n, hn'⟩
      rw [hl, List.map_cons, close_skip (by rw [hres, hn]; rfl) ho] at hn'
      have hmiss : Misses f (C.rule f).actOfs.toNat
          ({ t with matched := true, skipOr := true } : Chk Δ).advance := by
        refine fun _ => ⟨ht.at_action.f, .inr ⟨(hat true).cmd, rfl, ?_⟩⟩
        simp only [Chk.advance, ht.words]
        exact hpart.fLen_pos
      exact hmiss.executed _ hn'
    · refine iff_of_false ?_ (by simp)
      rintro ⟨n, hn'⟩
      rw [hl, List.map_cons, close_fail (by rw [hres, hn]; rfl) ho] at hn'
      refine Misses.executed (fun h => absurd h ?_) _ hn'
      unfold Chk.leave
      split_ifs <;> simp
    · rw [close_next (by rw [hres, hn, ho])]
      rw [executed_actionPart_iff hpart (hat _) ht.skipOr le_rfl
        fun q _ => by simp only [Chk.advance, ht.words]]
      simp only [Chk.advance, ht.tablearg, ht.tick, ht.tags, true_and]

/-- The rule `allow tag 5`, which consists of its action part. -/
def tagRule : IpFw :=
  { (default : IpFw) with
    cmdLen := 2
    cmd := fun p => if p = 0 then Opcode.tag.word 1 5 else Opcode.accept.word 1 0 }

/-- A chain with one rule, which is the default rule as well. -/
def Chain.single (r : IpFw) : Chain where
  rule := fun _ => ⟨r.actOfs, r.cmdLen, r.rulenum, r.set, r.id⟩
  map := [0]
  id := 1

/-- The interpreter at the start of the rule `r`, for a packet with the given tags. -/
def startOf (r : IpFw) (tags : List MTag) : Chk Unit :=
  { (default : Chk Unit) with
    pc := .inner
    words := fun _ => r.cmd
    l := r.cmdLen.toNat
    dynDir := .unknown
    tags := tags }

theorem tagRule_actionPart : ActionPart default tagRule.cmd 2 0 [0] 1 :=
  .modifier (.inr (.inr rfl)) rfl (.action rfl rfl)

/-- For a packet that does not have the tag yet, the action is executed. -/
theorem action_executed_of_new_tag :
    (∃ n, executed (default : Env Unit) default (.single tagRule) n (startOf tagRule []) =
        [(0, 0), (0, 1)]) ↔
      (startOf tagRule []).skipOr = false ∧ CarriesAll (default : Env Unit) tagRule.cmd 0 0 [] [0] :=
  (action_executed_iff (f := 0) (k := default) (C := .single tagRule) (s := startOf tagRule [])
    (E := default) tagRule_actionPart).1 ⟨rfl, rfl, rfl, rfl⟩

/-- The rule is accepted, and a packet reaches its action part at its first instruction. But if the
packet has the tag already, the action is not executed. -/
theorem not_action_executed_of_tag :
    (checkIpfwStruct default tagRule tagRule.ruleSize).toBool = true ∧
    AtAction (.single tagRule) 0 (startOf tagRule [⟨mtagIpfw, 5#16⟩]) ∧
    ActionPart default tagRule.cmd 2 0 [0] 1 ∧
    ¬ ∃ n, executed (default : Env Unit) default (.single tagRule) n
      (startOf tagRule [⟨mtagIpfw, 5#16⟩]) = [(0, 0), (0, 1)] := by
  refine ⟨by decide, ⟨rfl, rfl, rfl, rfl⟩, tagRule_actionPart, fun h => ?_⟩
  have h := (executed_actionPart_iff (f := 0) (s := startOf tagRule [⟨mtagIpfw, 5#16⟩])
    (C := .single tagRule) tagRule_actionPart ⟨rfl, rfl, rfl, rfl⟩ rfl (Nat.le_refl 0) fun _ _ => rfl).1 h
  exact absurd h.1 (by decide)

end Ipfw
