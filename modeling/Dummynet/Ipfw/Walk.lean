import Dummynet.Ipfw.Order
import Dummynet.Ipfw.Uses

/-!
# The evaluation of a ruleset

The rounds of the loops of `ipfw_chk` over the rules of a chain. The position `f_pos` goes forward
from rule to rule; a skipto jumps forward, and a dynamic rule goes back to the rule that it belongs
to.

## Main definitions

* `Chain.Ready`: a chain of accepted rules in order, with the default rule at the end.
* `LoopOk`: the conditions on an instruction that the check does not establish.
* `Walk`: what holds between the rounds.
* `Move`: where a round leads to.

## Main results

* `step_move`, `Walk.step`: one round.
-/

namespace Ipfw

variable {Δ : Type} {E : Env Δ} {k : Hdr} {C : Chain} {s t u z : Chk Δ} {c : Insn} {K : Kernel}
  {w : RulePtr → ℕ → BitVec 32} {f g d : RulePtr} {p i j : ℕ}

/-! ### What the switch leaves as it is -/

/-- The position, the positions that are cached and the result of the lookup of a dynamic rule stay
as they are, and the packet gets the mark of the rule or keeps its own. -/
structure Frame (C : Chain) (s t : Chk Δ) : Prop where
  fPos : t.fPos = s.fPos
  cache : t.cache = s.cache
  dynDir : s.dynDir ≠ .unknown → t.dynDir = s.dynDir
  done : t.done = s.done ∨ t.done = true ∧ t.l = 0
  ref : t.ref = s.ref ∨ t.ref = (s.setMatch C).ref

theorem Frame.mk_same (h : t.fPos = s.fPos ∧ t.cache = s.cache ∧ t.dynDir = s.dynDir)
    (hdone : t.done = s.done ∨ t.done = true ∧ t.l = 0)
    (href : t.ref = s.ref ∨ t.ref = (s.setMatch C).ref) : Frame C s t :=
  ⟨h.1, h.2.1, fun _ => h.2.2, hdone, href⟩

theorem ipfwLog_frame : Frame C s ((ipfwLog E C s).val z) := by
  simp only [ipfwLog, Reads.val_ite, Reads.val_bind, Reads.val_pure, wordAt, Reads.val_read]
  split_ifs <;> exact .mk_same ⟨rfl, rfl, rfl⟩ (.inl rfl) (.inl rfl)

/-- The switch is left to the end of the inner loop, or panics, in a state that keeps the frame. -/
def Leaves (C : Chain) (s : Chk Δ) (r : Ctl × Chk Δ) : Prop := r.1 ≠ .cont ∧ Frame C s r.2

theorem Ctl.brk_ne_cont : Ctl.brk ≠ Ctl.cont := by simp

theorem execUnreach6_leaves (h : Frame C s t) : Leaves C s (execUnreach6 k c t) := by
  unfold execUnreach6
  dsimp only
  split_ifs
  · exact ⟨Ctl.brk_ne_cont, { h with done := .inr ⟨rfl, rfl⟩ }⟩
  · exact ⟨Ctl.brk_ne_cont, { h with done := .inr ⟨rfl, rfl⟩ }⟩

theorem execNat_leaves : Leaves C s ((execNat E C c s).val z) := by
  have hstop : ∀ {t : Chk Δ}, t.fPos = s.fPos ∧ t.cache = s.cache ∧ t.dynDir = s.dynDir →
      t.ref = s.ref ∨ t.ref = (s.setMatch C).ref → t.done = true ∧ t.l = 0 →
      Leaves C s (.brk, t) :=
    fun h href hdone => ⟨Ctl.brk_ne_cont, .mk_same h (.inr hdone) href⟩
  rw [execNat, Reads.val_ite]
  split_ifs
  · exact hstop ⟨rfl, rfl, rfl⟩ (.inl rfl) ⟨rfl, rfl⟩
  · simp only [execNatLoaded, Reads.val_bind, Reads.val_ite, Reads.val_pure]
    split_ifs
    · exact hstop ⟨rfl, rfl, rfl⟩ (.inr rfl) ⟨rfl, rfl⟩
    · split
      · exact hstop ⟨rfl, rfl, rfl⟩ (.inr rfl) ⟨rfl, rfl⟩
      · simp only [execNatFound, Reads.val_bind, Reads.val_ite, Reads.val_pure]
        split_ifs
        · exact hstop ⟨rfl, rfl, rfl⟩ (.inr rfl) ⟨rfl, rfl⟩
        · exact hstop ⟨rfl, rfl, rfl⟩ (.inr rfl) ⟨rfl, rfl⟩

theorem execState_leaves (hc : c.opcode = some .probeState ∨ c.opcode = some .checkState)
    (hno : ∀ g, ¬ Finds E k c s g) : Leaves C s ((execState E k C c s).val z) := by
  have hack : (lookupAck k).val z = (lookupAck k).val s := lookupAck_val
  simp only [execState, lookupDyn, Reads.val_bind, Reads.val_ite, Reads.val_pure, hack]
  split_ifs with hdir hop hop
  · cases hf : (E.lookupDynRule (s.flowId k) ((lookupAck k).val s) s.dyn).1 with
    | some g => exact absurd ⟨hc, hdir, hf⟩ (hno g)
    | none => exact ⟨Ctl.brk_ne_cont, rfl, rfl, fun h => absurd hdir h, .inl rfl, .inl rfl⟩
  · cases hf : (E.lookupDynRule (s.flowId k) ((lookupAck k).val s) s.dyn).1 with
    | some g => exact absurd ⟨hc, hdir, hf⟩ (hno g)
    | none => exact ⟨Ctl.brk_ne_cont, rfl, rfl, fun h => absurd hdir h, .inl rfl, .inl rfl⟩
  · exact ⟨Ctl.brk_ne_cont, .mk_same ⟨rfl, rfl, rfl⟩ (.inl rfl) (.inl rfl)⟩
  · exact ⟨Ctl.brk_ne_cont, .mk_same ⟨rfl, rfl, rfl⟩ (.inl rfl) (.inl rfl)⟩

/-- **The switch**, but for a skipto and the jump to the rule of a dynamic rule. -/
theorem exec_leaves (hskipto : c.opcode ≠ some .skipto) (hno : ∀ g, ¬ Finds E k c s g) :
    Leaves C s ((exec E k C c s).val z) := by
  have htests : ∀ x : Ev Δ Bool, Leaves C s ((tests s x).val z) :=
    fun x => ⟨Ctl.brk_ne_cont, .mk_same ⟨rfl, rfl, rfl⟩ (.inl rfl) (.inl rfl)⟩
  have hstop : ∀ {t : Chk Δ}, t.fPos = s.fPos ∧ t.cache = s.cache ∧ t.dynDir = s.dynDir →
      t.ref = s.ref ∨ t.ref = (s.setMatch C).ref → t.done = true ∧ t.l = 0 →
      Leaves C s (.brk, t) :=
    fun h href hdone => ⟨Ctl.brk_ne_cont, .mk_same h (.inr hdone) href⟩
  have hsame : ∀ {t : Chk Δ}, t.fPos = s.fPos ∧ t.cache = s.cache ∧ t.dynDir = s.dynDir →
      t.done = s.done → t.ref = s.ref → Leaves C s (.brk, t) :=
    fun h hdone href => ⟨Ctl.brk_ne_cont, .mk_same h (.inl hdone) (.inl href)⟩
  have hpanic : Leaves C s (.panic, s) :=
    ⟨by simp, .mk_same ⟨rfl, rfl, rfl⟩ (.inl rfl) (.inl rfl)⟩
  unfold exec
  split
  all_goals
    rename_i heq
    first
    | exact htests _
    | exact hstop ⟨rfl, rfl, rfl⟩ (.inl rfl) ⟨rfl, rfl⟩
    | exact hstop ⟨rfl, rfl, rfl⟩ (.inr rfl) ⟨rfl, rfl⟩
    | exact hsame ⟨rfl, rfl, rfl⟩ rfl rfl
    | exact hpanic
    | skip
  case h_18 | h_19 =>
    rw [Reads.val_ite]
    split_ifs
    · exact hsame ⟨rfl, rfl, rfl⟩ rfl rfl
    · exact hsame ⟨rfl, rfl, rfl⟩ rfl rfl
  case h_46 =>
    rw [execAltq, Reads.val_ite]
    split_ifs
    · exact hsame ⟨rfl, rfl, rfl⟩ rfl rfl
    · exact hsame ⟨rfl, rfl, rfl⟩ rfl rfl
  case h_47 => exact ⟨Ctl.brk_ne_cont, { ipfwLog_frame (z := z) with }⟩
  case h_61 =>
    rw [Reads.val_pure, execTag]
    split
    · split_ifs
      · exact hsame ⟨rfl, rfl, rfl⟩ rfl rfl
      · exact hsame ⟨rfl, rfl, rfl⟩ rfl rfl
    · split_ifs
      · exact hsame ⟨rfl, rfl, rfl⟩ rfl rfl
      · exact hsame ⟨rfl, rfl, rfl⟩ rfl rfl
      · exact hsame ⟨rfl, rfl, rfl⟩ rfl rfl
  case h_64 | h_65 =>
    simp only [execInstall, Reads.val_bind, Reads.val_pure]
    generalize E.installState s.f _ _ (s.flowId k) s.tablearg s.dyn = r
    obtain ⟨fail, dyn⟩ := r
    cases fail
    · exact hsame ⟨rfl, rfl, rfl⟩ rfl rfl
    · exact hstop ⟨rfl, rfl, rfl⟩ (.inl rfl) ⟨rfl, rfl⟩
  case h_66 => exact execState_leaves (.inl heq) hno
  case h_67 => exact execState_leaves (.inr heq) hno
  case h_71 | h_72 =>
    rw [Reads.val_pure, execDivert]
    split
    · exact hsame ⟨rfl, rfl, rfl⟩ rfl rfl
    · exact hstop ⟨rfl, rfl, rfl⟩ (.inr rfl) ⟨rfl, rfl⟩
  case h_74 => exact absurd heq hskipto
  case h_75 =>
    simp only [execReject, Reads.val_bind, Reads.val_pure]
    refine execUnreach6_leaves ?_
    split_ifs
    · exact .mk_same ⟨rfl, rfl, rfl⟩ (.inl rfl) (.inl rfl)
    · exact .mk_same ⟨rfl, rfl, rfl⟩ (.inl rfl) (.inl rfl)
  case h_76 => exact execUnreach6_leaves (.mk_same ⟨rfl, rfl, rfl⟩ (.inl rfl) (.inl rfl))
  case h_78 =>
    simp only [execForwardIp, Reads.val_ite, Reads.val_bind, Reads.val_pure]
    split_ifs
    · exact hsame ⟨rfl, rfl, rfl⟩ rfl rfl
    · exact hstop ⟨rfl, rfl, rfl⟩ (.inl rfl) ⟨rfl, rfl⟩
    · exact hstop ⟨rfl, rfl, rfl⟩ (.inl rfl) ⟨rfl, rfl⟩
    · exact hstop ⟨rfl, rfl, rfl⟩ (.inl rfl) ⟨rfl, rfl⟩
  case h_82 => exact execNat_leaves
  case h_83 =>
    simp only [execReass, Reads.val_ite, Reads.val_bind, Reads.val_pure]
    split_ifs
    · exact hsame ⟨rfl, rfl, rfl⟩ rfl rfl
    · exact hstop ⟨rfl, rfl, rfl⟩ (.inr rfl) ⟨rfl, rfl⟩
    · exact hstop ⟨rfl, rfl, rfl⟩ (.inl rfl) ⟨rfl, rfl⟩

/-- The jump to the rule `g` of a dynamic rule. -/
structure Jumps (E : Env Δ) (k : Hdr) (C : Chain) (g : RulePtr) (s t : Chk Δ) : Prop
    extends GoesTo C g (C.rule g).actOfs.toNat s t where
  fPos : t.fPos = ipfwFindRule C (C.rule g).rulenum.toNat (C.rule g).id
  cache : t.cache = s.cache
  done : t.done = s.done
  skipOr : t.skipOr = s.skipOr
  ref : t.ref = s.ref
  matched : t.matched = true
  dynDir : ∃ id ack dyn, t.dynDir = (E.lookupDynRule id ack dyn).2.1

theorem exec_jumps (h : Finds E k c s g) :
    ∃ t, (exec E k C c s).val z = (.brk, t) ∧ Jumps E k C g s t := by
  obtain ⟨hc, hdir, hf⟩ := h
  have hack : (lookupAck k).val z = (lookupAck k).val s := lookupAck_val
  have hexec : exec E k C c s = execState E k C c s := by
    rcases hc with hc | hc <;> simp only [exec, hc]
  rw [hexec]
  simp only [execState, lookupDyn, hdir, if_true, Reads.val_bind, Reads.val_pure, hack, hf]
  exact ⟨_, rfl, ⟨rfl, rfl, rfl, rfl, rfl, rfl⟩, rfl, rfl, rfl, rfl, rfl, rfl, _, _, _, rfl⟩

/-! ### Chains in order -/

/-- The rules of the chain are accepted and in order, with the default rule `d` at the end. -/
structure Chain.Ready (K : Kernel) (C : Chain) (w : RulePtr → ℕ → BitVec 32) (d : RulePtr) :
    Prop where
  loaded : Loaded K C w
  sorted : C.Sorted
  last : ∃ l, C.map = l ++ [d] ∧ ∀ f ∈ l, (C.rule f).rulenum.toNat < ipfwDefaultRule
  default : (C.rule d).rulenum.toNat = ipfwDefaultRule
  set : (C.rule d).set = resvdSet
  cmdLen : (C.rule d).cmdLen = 1
  decides : w d 0 = Opcode.accept.word 1 0 ∨ w d 0 = Opcode.deny.word 1 0

namespace Chain.Ready

variable (hC : C.Ready K w d)
include hC

theorem nRules_pos : 0 < C.nRules := by
  obtain ⟨l, hl, -⟩ := hC.last
  rw [Chain.nRules, hl]
  simp

theorem at_last : C.at (C.nRules - 1) = d := by
  obtain ⟨l, hl, -⟩ := hC.last
  exact Chain.at_last hl

theorem at_inj (hi : i < C.nRules) (hj : j < C.nRules) (h : C.at i = C.at j) : i = j := by
  have hne : ∀ {i j : ℕ}, i < j → j < C.nRules → C.at i ≠ C.at j := by
    intro i j hij hj he
    have hb := hC.sorted.before hij hj
    rw [he] at hb
    rcases hb with hb | ⟨-, hb⟩ <;> exact absurd hb (BitVec.lt_irrefl _)
  rcases lt_trichotomy i j with hlt | heq | hgt
  · exact absurd h (hne hlt hj)
  · exact heq
  · exact absurd h.symm (hne hgt hi)

theorem succ_lt (hi : i < C.nRules) (hne : C.at i ≠ d) : i + 1 < C.nRules := by
  rcases Nat.lt_or_ge (i + 1) C.nRules with h | h
  · exact h
  · exact absurd (by rw [← hC.at_last]; congr 1; omega) hne

theorem find_lt {key : ℕ} {id : BitVec 32} : ipfwFindRule C key id < C.nRules := by
  have h := (ipfwFindRule_spec hC.sorted key id).1
  have := hC.nRules_pos
  omega

/-- The position of a rule. -/
theorem find_self (hf : f ∈ C.map) :
    C.at (ipfwFindRule C (C.rule f).rulenum.toNat (C.rule f).id) = f := by
  obtain ⟨hle, hall, hfirst⟩ :=
    ipfwFindRule_spec hC.sorted (C.rule f).rulenum.toNat (C.rule f).id
  have hirr : ¬ (C.rule f).Below (C.rule f).rulenum.toNat (C.rule f).id := by
    rintro (h | ⟨-, h⟩)
    · exact lt_irrefl _ h
    · exact BitVec.lt_irrefl _ h
  obtain ⟨i, -, hi, rfl⟩ := Chain.mem_drop (i := 0) hf
  set p := ipfwFindRule C (C.rule (C.at i)).rulenum.toNat (C.rule (C.at i)).id with hp
  rcases lt_trichotomy i p with hlt | heq | hgt
  · exact absurd (hall i hlt) hirr
  · rw [heq]
  · refine absurd ?_ (hfirst (by omega))
    rcases hC.sorted.before hgt hi with hb | ⟨hb, hid⟩
    · exact .inl (BitVec.lt_def.1 hb)
    · exact .inr ⟨congrArg BitVec.toNat hb, hid⟩

/-- A lookup of a greater number goes forward. -/
theorem lt_find {key : ℕ} (hi : i + 1 < C.nRules) (hkey : (C.rule (C.at i)).rulenum.toNat < key) :
    i < ipfwFindRule C key 0 := by
  obtain ⟨-, -, hfirst⟩ := ipfwFindRule_spec hC.sorted key 0
  by_contra hge
  refine hfirst (by omega) (Rule.below_zero.2 ?_)
  rcases (not_lt.1 hge).eq_or_lt with heq | hlt
  · rw [heq]
    exact hkey
  · exact Rule.below_zero.1 ((hC.sorted.before hlt (by omega)).below (Rule.below_zero.2 hkey))

end Chain.Ready

/-- What the interpreter relies on: the dynamic rules belong to rules of the chain, and their lookup
tells the direction. -/
structure Env.Sound (E : Env Δ) (C : Chain) : Prop where
  member : ∀ id ack dyn g, (E.lookupDynRule id ack dyn).1 = some g → g ∈ C.map
  known : ∀ id ack dyn, (E.lookupDynRule id ack dyn).2.1 ≠ .unknown

/-- Besides, the reserved set is not disabled. -/
structure Env.Fits (E : Env Δ) (C : Chain) : Prop extends E.Sound C where
  reserved : E.setDisable.getLsbD resvdSet.toNat = false

/-! ### Skipto -/

/-- The number that a rule with the number `num` skips to. -/
def skiptoKey (num : BitVec 16) (arg : BitVec 32) : ℕ :=
  if arg.toInt ≤ num.toNat then num.toNat + 1 else arg.toNat

theorem lt_skiptoKey {num : BitVec 16} {arg : BitVec 32} : num.toNat < skiptoKey num arg := by
  unfold skiptoKey
  split_ifs with h
  · exact Nat.lt_succ_self _
  · rw [BitVec.toInt_eq_toNat_cond] at h
    split_ifs at h <;> omega

/-- The position that is cached in a rule is the one that a lookup finds, if it is of the generation
of the chain. -/
structure CacheOk (C : Chain) (w : RulePtr → ℕ → BitVec 32) (cache : RulePtr → BitVec 32 × ℕ) :
    Prop where
  le : ∀ f, (cache f).1 ≤ C.id
  pos : ∀ f p, Visited C w f p → (Insn.ofWord (w f p)).opcode = some .skipto →
    (Insn.ofWord (w f p)).arg1 ≠ ipFwTablearg → (cache f).1 = C.id →
    (cache f).2 = ipfwFindRule C
      (skiptoKey (C.rule f).rulenum ((Insn.ofWord (w f p)).arg1.setWidth 32)) 0

theorem le_skipDisabled {n : ℕ} : i ≤ skipDisabled E C n i := by
  induction n generalizing i with
  | zero => exact le_rfl
  | succ n ih =>
    unfold skipDisabled
    split_ifs
    · exact (Nat.le_succ i).trans ih
    · exact le_rfl

theorem skipDisabled_lt {n : ℕ} (hi : i < C.nRules) : skipDisabled E C n i < C.nRules := by
  induction n generalizing i with
  | zero => exact hi
  | succ n ih =>
    unfold skipDisabled
    split_ifs with h
    · exact ih h.1
    · exact hi

/-- An accepted skipto is the action of its rule. -/
theorem skipto_last (hload : Loaded K C w) (h : Visited C w f p)
    (hop : (Insn.ofWord (w f p)).opcode = some .skipto) :
    p + lenAt (w f) p = (C.rule f).cmdLen.toNat := by
  obtain ⟨x, hx, -, hact⟩ := hload.fits h
  refine hact.1 ?_
  unfold checkInsn at hx
  rw [hop, require_bind] at hx
  exact (Except.ok.inj hx.2).symm

theorem skipto_unique (hload : Loaded K C w) (hp : Visited C w f p) (hq : Visited C w f i)
    (hop : (Insn.ofWord (w f p)).opcode = some .skipto)
    (hop' : (Insn.ofWord (w f i)).opcode = some .skipto) : p = i := by
  have hp' := skipto_last hload hp hop
  have hq' := skipto_last hload hq hop'
  rcases lt_trichotomy p i with hlt | heq | hgt
  · have := Boundary.disjoint hq hp hlt
    have := hq.lt
    omega
  · exact heq
  · have := Boundary.disjoint hp hq hgt
    have := hp.lt
    omega

/-- **Skipto.** Whether the position is cached or not, the rule is the one that a lookup finds, or
the next one that is not disabled. -/
theorem execSkipto_fPos (hload : Loaded K C w) (hv : Visited C w s.f p)
    (hop : (Insn.ofWord (w s.f p)).opcode = some .skipto) (hcache : CacheOk C w s.cache) :
    (execSkipto E k C (.ofWord (w s.f p)) s).2.fPos = skipDisabled E C C.nRules
        (ipfwFindRule C (skiptoKey (C.rule s.f).rulenum (s.arg (.ofWord (w s.f p)))) 0) ∧
      CacheOk C w (execSkipto E k C (.ofWord (w s.f p)) s).2.cache := by
  set c := Insn.ofWord (w s.f p) with hc
  have harg : c.arg1 ≠ ipFwTablearg → s.arg c = c.arg1.setWidth 32 := fun h => if_neg h
  have hkey : ∀ t : Chk Δ, t = s.count E k s.f → t.f = s.f ∧ t.cache = s.cache ∧ t.arg c = s.arg c := by
    rintro t rfl
    exact ⟨rfl, rfl, rfl⟩
  unfold execSkipto
  dsimp only
  generalize hcount : s.count E k s.f = t
  obtain ⟨hf, hca, ha⟩ := hkey t hcount.symm
  rw [hf, hca, ha]
  by_cases htab : c.arg1 = ipFwTablearg
  · rw [if_neg (by simp [htab])]
    simp only [htab, ne_eq, not_true_eq_false, if_false]
    exact ⟨rfl, hcache⟩
  · by_cases hgen : (s.cache s.f).1 = C.id
    · rw [if_pos ⟨htab, hgen⟩]
      refine ⟨?_, hcache⟩
      rw [harg htab]
      exact congrArg _ (hcache.pos _ _ hv hop htab hgen)
    · rw [if_neg (by simp [hgen])]
      simp only [htab, ne_eq, not_false_eq_true, if_true]
      refine ⟨rfl, fun f => ?_, fun f q hq hop' htab' hgen' => ?_⟩
      · rcases eq_or_ne f s.f with rfl | hne
        · rw [Function.update_self]
          exact BitVec.le_refl _
        · rw [Function.update_of_ne hne]
          exact hcache.le f
      · rcases eq_or_ne f s.f with rfl | hne
        · rw [Function.update_self]
          obtain rfl := skipto_unique hload hv hq hop hop'
          rw [harg htab]
          rfl
        · rw [Function.update_of_ne hne] at hgen' ⊢
          exact hcache.pos f q hq hop' htab' hgen'

/-! ### One round -/

/-- What the check does not establish of the next round: the word that `ipfw_log` counts down is not
the first one of an instruction, unless the log limit is reached, and `ACTION_PTR` of the rule of a
dynamic rule is an instruction. -/
structure LoopOk (E : Env Δ) (k : Hdr) (C : Chain) (w : RulePtr → ℕ → BitVec 32) (s : Chk Δ) :
    Prop where
  log : s.pc = .inner → 0 < s.l → s.skipOr = false →
    (Insn.ofWord (s.words s.f s.cmd)).opcode = some .log → E.fwVerbose = true →
    Visited C w s.f ((C.rule s.f).actOfs.toNat + 2) →
    s.words s.f ((C.rule s.f).actOfs.toNat + 1) ≠ 0#32 ∧
      s.words s.f ((C.rule s.f).actOfs.toNat + 2) = 0#32
  jump : s.pc = .inner → 0 < s.l → s.skipOr = false →
    ∀ g, Finds E k (.ofWord (s.words s.f s.cmd)) s g → Visited C w g (C.rule g).actOfs.toNat

/-- What holds between the rounds. -/
structure Walk (C : Chain) (w : RulePtr → ℕ → BitVec 32) (d : RulePtr) (s : Chk Δ) : Prop where
  intact : Intact C w s
  cache : CacheOk C w s.cache
  visited : s.pc = .inner → 0 < s.l →
    s.l = (C.rule s.f).cmdLen.toNat - s.cmd ∧ Visited C w s.f s.cmd
  here : s.pc = .inner → s.fPos < C.nRules ∧ s.f = C.at s.fPos
  outer : s.pc = .outer → s.fPos < C.nRules ∧ s.done = false
  done : s.pc = .inner → s.done = true → s.l ≤ 0
  exit : s.pc = .exit → s.done = true ∧ s.fPos < C.nRules ∧ s.f = C.at s.fPos
  default : s.pc = .inner → s.f = d → s.cmd = 0 ∧ s.l = 1 ∧ s.skipOr = false
  panic : s.pc ≠ .panic

/-- The body of a rule is entered in the next round: from the outer loop, by a skipto, or at
`ACTION_PTR` when a dynamic rule is found. -/
def Enters (E : Env Δ) (k : Hdr) (C : Chain) (s : Chk Δ) : Prop :=
  s.pc = .outer ∧ ((step E k C s).val s).pc = .inner ∨
    s.pc = .inner ∧ 0 < s.l ∧ s.skipOr = false ∧
      ((Insn.ofWord (s.words s.f s.cmd)).opcode = some .skipto ∨
        ∃ g, Finds E k (.ofWord (s.words s.f s.cmd)) s g)

instance : Decidable (∃ g, Finds E k c s g) :=
  decidable_of_iff ((c.opcode = some .probeState ∨ c.opcode = some .checkState) ∧
    s.dynDir = .unknown ∧ (E.lookupDynRule (s.flowId k) ((lookupAck k).val s) s.dyn).1.isSome)
    ⟨fun ⟨hc, hdir, hf⟩ => ⟨_, hc, hdir, (Option.some_get hf).symm⟩,
      fun ⟨_, hc, hdir, hf⟩ => ⟨hc, hdir, by rw [hf]; rfl⟩⟩

instance : Decidable (Enters E k C s) := by
  unfold Enters
  infer_instance

/-- Where a round leads to. -/
inductive Move (E : Env Δ) (k : Hdr) (C : Chain) (s t : Chk Δ) : Prop
  | disabled : s.pc = .outer → t.pc = .outer → t.fPos = s.fPos + 1 → Move E k C s t
  | enter : s.pc = .outer → t.pc = .inner → t.fPos = s.fPos → Move E k C s t
  | next : ¬ Enters E k C s → s.pc = .inner → t.pc = .inner → t.fPos = s.fPos →
      t.l.toNat < s.l.toNat → Move E k C s t
  | leave : ¬ Enters E k C s → s.pc = .inner → t.pc = .outer → t.fPos = s.fPos + 1 →
      Move E k C s t
  | exit : ¬ Enters E k C s → s.pc = .inner → t.pc = .exit → Move E k C s t
  | skipto : s.pc = .inner → t.pc = .inner → s.fPos < t.fPos → Move E k C s t
  | jump {i : ℕ} : s.pc = .inner → s.dynDir = .unknown → t.dynDir ≠ .unknown → i < C.nRules →
      t.f = C.at i → (t.pc = .inner ∧ t.fPos = i ∨ t.pc = .outer ∧ t.fPos = i + 1 ∨ t.pc = .exit) →
      Move E k C s t
  | stop : s.pc = .exit → t = s → Move E k C s t

theorem not_enters_of_inner (hpc : s.pc = .inner)
    (h : 0 < s.l → s.skipOr = false →
      (Insn.ofWord (s.words s.f s.cmd)).opcode ≠ some .skipto ∧
        ∀ g, ¬ Finds E k (.ofWord (s.words s.f s.cmd)) s g) : ¬ Enters E k C s := by
  rintro (⟨h', -⟩ | ⟨-, hl, hskip, hop | ⟨g, hg⟩⟩)
  · exact absurd (hpc.symm.trans h') nofun
  · exact (h hl hskip).1 hop
  · exact (h hl hskip).2 g hg

theorem close_cases (c : Insn) (u : Chk Δ) :
    (∃ m, u.close c = ({ u with matched := m } : Chk Δ).leave) ∨
      ∃ m o, (o = u.skipOr ∨ c.fOr = true) ∧
        u.close c = ({ u with matched := m, skipOr := o } : Chk Δ).advance := by
  unfold Chk.close
  dsimp only
  generalize (if c.fNot = true then !u.matched else u.matched) = m
  cases m <;> cases hor : c.fOr
  · exact .inl ⟨_, rfl⟩
  · exact .inr ⟨false, u.skipOr, .inl rfl, rfl⟩
  · exact .inr ⟨true, u.skipOr, .inl rfl, rfl⟩
  · exact .inr ⟨true, true, .inr rfl, rfl⟩

/-- What an instruction writes is no header. -/
theorem exec_intact (hload : Loaded K C w) (hw : Intact C w s) (hv : Visited C w s.f s.cmd)
    (hc : Insn.ofWord (s.words s.f s.cmd) = c) (hst : Stays E C c s t)
    (ht : ((exec E k C c s).val z).2 = t)
    (hlog : c.opcode = some .log → E.fwVerbose = true →
      Visited C w s.f ((C.rule s.f).actOfs.toNat + 2) →
      s.words s.f ((C.rule s.f).actOfs.toNat + 1) ≠ 0#32 ∧
        s.words s.f ((C.rule s.f).actOfs.toNat + 2) = 0#32) : Intact C w t := by
  by_cases hop : c.opcode = some .log
  · have hwords : t.words = ((ipfwLog E C s).val z).words := by
      rw [← ht]
      simp only [exec, hop]
      rfl
    intro g q hq
    rw [hwords]
    simp only [ipfwLog, Reads.val_ite, Reads.val_bind, Reads.val_pure, wordAt, Reads.val_read]
    split_ifs with hverb hlim
    · exact hw g q hq
    · exact hw g q hq
    · dsimp only
      rcases eq_or_ne g s.f with rfl | hg
      · rw [Function.update_self]
        rcases eq_or_ne q ((C.rule s.f).actOfs.toNat + 2) with rfl | hne
        · exact absurd (hlog hop (by simpa using hverb) hq) hlim
        · rw [Function.update_of_ne hne]
          exact hw _ q hq
      · rw [Function.update_of_ne hg]
        exact hw g q hq
  · exact hst.intact hload hw hv hc.symm fun h => absurd h hop

section
variable (hC : C.Ready K w d)
include hC

/-- The first instruction of the default rule. -/
theorem default_insn (hw : Intact C w s) :
    ∃ op, (op = .accept ∨ op = .deny) ∧ s.words d 0 = Opcode.word op 1 0 := by
  have hv := hC.loaded.visited_zero d
  rw [hw d 0 hv]
  rcases hC.decides with h | h
  · exact ⟨_, .inl rfl, h⟩
  · exact ⟨_, .inr rfl, h⟩

/-- **The default rule** decides. -/
theorem step_default (hs : Walk C w d s) (hpc : s.pc = .inner) (hf : s.f = d) :
    ∃ t, (step E k C s).val s = t ∧ t.pc = .exit ∧ t.done = true ∧ t.fPos = s.fPos ∧ t.f = d ∧
      t.cache = s.cache ∧ t.words = s.words ∧ t.ref = s.ref ∧
      (t.retval = .pass ∨ t.retval = .deny) := by
  obtain ⟨hcmd, hl, hskip⟩ := hs.default hpc hf
  obtain ⟨op, hop, hword⟩ := default_insn hC hs.intact
  have hc : Insn.ofWord (s.words s.f s.cmd) = .ofWord (Opcode.word op 1 0) := by
    rw [hf, hcmd, hword]
  obtain ⟨v, hv, he⟩ : ∃ v, (v = .pass ∨ v = .deny) ∧ (exec E k C (.ofWord (Opcode.word op 1 0))
      { s with cmdlen := (Insn.ofWord (Opcode.word op 1 0)).fLen, matched := false }).val s =
        (Chk.finish { s with cmdlen := 1, matched := false } v).brk false := by
    rcases hop with rfl | rfl
    · exact ⟨.pass, .inl rfl, rfl⟩
    · exact ⟨.deny, .inr rfl, rfl⟩
  have hcl : (Chk.finish { s with cmdlen := 1, matched := false } v).close
      (.ofWord (Opcode.word op 1 0)) =
        { Chk.finish { s with cmdlen := 1, matched := false } v with pc := .exit } := by
    rcases hop with rfl | rfl <;> rfl
  refine ⟨{ Chk.finish { s with cmdlen := 1, matched := false } v with pc := .exit },
    (step_brk hpc (by omega) hskip hc he).trans ?_, rfl, rfl, rfl, hf, rfl, rfl, rfl, hv⟩
  rw [epilogue_val]
  change (Chk.finish { s with cmdlen := 1, matched := false } v).close
    (.ofWord (s.words s.f s.cmd)) = _
  rw [hc, hcl]

omit hC in
theorem leave_walk (hw : Intact C w u) (hcache : CacheOk C w u.cache)
    (hhere : u.fPos < C.nRules ∧ u.f = C.at u.fPos)
    (hpos : u.done = false → u.fPos + 1 < C.nRules) : Walk C w d u.leave := by
  unfold Chk.leave
  split_ifs with hdone
  · exact ⟨hw, hcache, nofun, nofun, nofun, nofun, fun _ => ⟨hdone, hhere⟩, nofun, nofun⟩
  · have hdone : u.done = false := by simpa using hdone
    exact ⟨hw, hcache, nofun, nofun, fun _ => ⟨hpos hdone, hdone⟩, nofun, nofun, nofun, nofun⟩

omit hC in
theorem leave_pc : u.leave.pc = .outer ∧ u.leave.fPos = u.fPos + 1 ∨ u.leave.pc = .exit := by
  unfold Chk.leave
  split_ifs
  · exact .inr rfl
  · exact .inl ⟨rfl, rfl⟩

omit hC in
theorem leave_f : u.leave.f = u.f := by
  unfold Chk.leave
  split_ifs <;> rfl

omit hC in
theorem leave_dynDir : u.leave.dynDir = u.dynDir := by
  unfold Chk.leave
  split_ifs <;> rfl

omit hC in
theorem advance_walk (hpc : u.pc = .inner) (hw : Intact C w u) (hcache : CacheOk C w u.cache)
    (hhere : u.fPos < C.nRules ∧ u.f = C.at u.fPos)
    (hvis : 0 < u.l - u.cmdlen → u.l = (C.rule u.f).cmdLen.toNat - u.cmd ∧
      (u.cmdlen = 0 ∨ u.cmdlen = lenAt (w u.f) u.cmd) ∧ Visited C w u.f u.cmd)
    (hdone : u.done = true → u.l - u.cmdlen ≤ 0)
    (hdef : u.f = d → u.cmd + u.cmdlen = 0 ∧ u.l - u.cmdlen = 1 ∧ u.skipOr = false) :
    Walk C w d u.advance := by
  refine ⟨hw, hcache, fun _ hl => ?_, fun _ => hhere, fun h => absurd (hpc.symm.trans h) nofun,
    fun _ => hdone, fun h => absurd (hpc.symm.trans h) nofun, fun _ => hdef, ?_⟩
  · obtain ⟨heq, hlen, hv⟩ := hvis hl
    have hl : 0 < u.l - u.cmdlen := hl
    constructor
    · change u.l - (u.cmdlen : ℤ) = (C.rule u.f).cmdLen.toNat - ((u.cmd + u.cmdlen : ℕ) : ℤ)
      omega
    · change Visited C w u.f (u.cmd + u.cmdlen)
      rcases hlen with hlen | hlen
      · rw [hlen, Nat.add_zero]
        exact hv
      · rw [hlen]
        exact hv.next (by omega)
  · rw [show u.advance.pc = u.pc from rfl, hpc]
    exact nofun

/-- A round in which an instruction is skipped. -/
theorem walk_skip (hs : Walk C w d s) (hpc : s.pc = .inner) (hl : 0 < s.l) (hf : s.f ≠ d)
    (hskip : s.skipOr = true) :
    Walk C w d ((step E k C s).val s) ∧ Move E k C s ((step E k C s).val s) := by
  obtain ⟨heq, hv⟩ := hs.visited hpc hl
  obtain ⟨x, hx, -, -⟩ := hC.loaded.fits hv
  set c := Insn.ofWord (s.words s.f s.cmd) with hc
  have hlen : c.fLen = lenAt (w s.f) s.cmd := by rw [hc, hs.intact _ _ hv, lenAt]
  have hpos : 0 < c.fLen := by
    rw [hlen]
    exact fLen_pos_of_checkInsn hx
  have hout : ∀ o, Walk C w d ({ s with cmdlen := c.fLen, skipOr := o } : Chk Δ).advance ∧
      Move E k C s ({ s with cmdlen := c.fLen, skipOr := o } : Chk Δ).advance := by
    intro o
    refine ⟨advance_walk hpc hs.intact hs.cache (hs.here hpc) (fun _ => ⟨heq, .inr hlen, hv⟩)
      (fun hdone => ?_) fun h => absurd h hf,
      .next (not_enters_of_inner hpc fun _ h => absurd (hskip.symm.trans h) (by simp)) hpc hpc
        rfl ?_⟩
    · have := hs.done hpc hdone
      omega
    · change (s.l - (c.fLen : ℤ)).toNat < s.l.toNat
      omega
  rw [step_skip hpc hl hskip rfl]
  split_ifs
  · have h := hout true
    rw [← hskip] at h
    exact h
  · exact hout false

/-- A round in which an instruction is executed that stays in its rule, or leaves it. -/
theorem walk_stays (hs : Walk C w d s) (hok : LoopOk E k C w s) (hpc : s.pc = .inner)
    (hl : 0 < s.l) (hf : s.f ≠ d) (hskip : s.skipOr = false)
    (hc : Insn.ofWord (s.words s.f s.cmd) = c) (hskipto : c.opcode ≠ some .skipto)
    (hno : ∀ g, ¬ Finds E k c s g) :
    Walk C w d ((step E k C s).val s) ∧ Move E k C s ((step E k C s).val s) := by
  obtain ⟨heq, hv⟩ := hs.visited hpc hl
  obtain ⟨x, hx, -, -⟩ := hC.loaded.fits hv
  have hx' : checkInsn K c = .ok x := by rwa [← hc, hs.intact _ _ hv]
  have hlen : c.fLen = lenAt (w s.f) s.cmd := by rw [← hc, hs.intact _ _ hv, lenAt]
  have hpos : 0 < c.fLen := fLen_pos_of_checkInsn hx'
  have hdone : s.done = false := by
    by_contra h
    have := hs.done hpc (by simpa using h)
    omega
  set t : Chk Δ := { s with cmdlen := c.fLen, matched := false } with ht
  have hno' : ∀ g, ¬ Finds E k c t g := fun g h => hno g (finds_congr.1 h)
  have hleaves := exec_leaves (C := C) (z := s) hskipto hno'
  have hout := exec_outcome (E := E) (k := k) (C := C) (c := c) (s := t) (z := s)
  generalize he : (exec E k C c t).val s = r at hout hleaves
  cases hout with
  | jump hfinds => exact absurd hfinds (hno' _)
  | skipto => exact absurd rfl hleaves.1
  | panic hno => exact absurd hx' (hno K x)
  | @stays u hst =>
    obtain ⟨-, hfr⟩ := hleaves
    have hu : Intact C w u := exec_intact hC.loaded (s := t) hs.intact hv hc hst
      (by rw [he]) (fun hop => hok.log hpc hl hskip (by rw [hc]; exact hop))
    have huf : u.f = s.f := hst.f
    have hucmd : u.cmd = s.cmd := hst.cmd
    have hupos : u.fPos = s.fPos := hfr.fPos
    have hucache : CacheOk C w u.cache := by
      rw [show u.cache = s.cache from hfr.cache]
      exact hs.cache
    have hhere : u.fPos < C.nRules ∧ u.f = C.at u.fPos := by
      rw [hupos, huf]
      exact hs.here hpc
    have henters : ¬ Enters E k C s := not_enters_of_inner hpc fun _ _ => by
      rw [hc]
      exact ⟨hskipto, hno⟩
    rw [step_brk hpc hl hskip hc he, epilogue_val]
    rcases close_cases (.ofWord (u.words u.f u.cmd)) u with ⟨m, hcl⟩ | ⟨m, o, -, hcl⟩
    · rw [hcl]
      refine ⟨leave_walk hu hucache hhere fun _ => ?_, ?_⟩
      · change u.fPos + 1 < _
        rw [hupos]
        exact hC.succ_lt (hs.here hpc).1 (by rw [← (hs.here hpc).2]; exact hf)
      · rcases leave_pc (u := { u with matched := m }) with ⟨h, h'⟩ | h
        · exact .leave henters hpc h (h'.trans (congrArg (· + 1) hupos))
        · exact .exit henters hpc h
    · rw [hcl]
      have hul : u.l = s.l ∨ u.l = 0 := hst.l
      have hucl : u.cmdlen = c.fLen := hst.cmdlen
      have hlt : (u.l - (u.cmdlen : ℤ)).toNat < s.l.toNat := by
        rcases hul with h | h <;> rw [h, hucl] <;> omega
      refine ⟨advance_walk (hst.pc.trans hpc) hu hucache hhere (fun hpos' => ?_) (fun h => ?_)
        fun h => ?_, .next henters hpc (hst.pc.trans hpc) hupos hlt⟩
      · have hpos' : 0 < u.l - (u.cmdlen : ℤ) := hpos'
        have hul : u.l = s.l := by
          rcases hul with h | h
          · exact h
          · omega
        change u.l = (C.rule u.f).cmdLen.toNat - (u.cmd : ℤ) ∧
          (u.cmdlen = 0 ∨ u.cmdlen = lenAt (w u.f) u.cmd) ∧ Visited C w u.f u.cmd
        rw [hul, huf, hucmd, hucl]
        exact ⟨heq, .inr hlen, hv⟩
      · change u.l - (u.cmdlen : ℤ) ≤ 0
        rcases hfr.done with h' | ⟨-, h'⟩
        · exact absurd (h'.symm.trans h) (by simp [ht, hdone])
        · have hul : u.l = 0 := h'
          omega
      · exact absurd (huf.symm.trans h) hf

/-- A round in which a dynamic rule is found. -/
theorem walk_jump (hE : E.Fits C) (hs : Walk C w d s) (hok : LoopOk E k C w s)
    (hpc : s.pc = .inner) (hl : 0 < s.l) (hskip : s.skipOr = false)
    (hc : Insn.ofWord (s.words s.f s.cmd) = c) (hfinds : Finds E k c s g) :
    Walk C w d ((step E k C s).val s) ∧ Move E k C s ((step E k C s).val s) := by
  have hdone : s.done = false := by
    by_contra h
    have := hs.done hpc (by simpa using h)
    omega
  have hg : g ∈ C.map := hE.member _ _ _ _ hfinds.2.2
  have hact : Visited C w g (C.rule g).actOfs.toNat :=
    hok.jump hpc hl hskip g (by rw [hc]; exact hfinds)
  obtain ⟨u, he, hu⟩ := exec_jumps (C := C) (z := s)
    (finds_congr (s := s) (n := c.fLen) (m := false).2 hfinds)
  have hw : Intact C w u := fun f q hq => by rw [hu.words]; exact hs.intact f q hq
  have hcache : CacheOk C w u.cache := by
    rw [hu.cache]
    exact hs.cache
  have hupc : u.pc = .inner := hu.pc.trans hpc
  have hudone : u.done = false := hu.done.trans hdone
  have hhere : u.fPos < C.nRules ∧ u.f = C.at u.fPos := by
    rw [hu.fPos, hu.f, hC.find_self hg]
    exact ⟨hC.find_lt, rfl⟩
  have hdyn : u.dynDir ≠ .unknown := by
    obtain ⟨id, ack, dyn, h⟩ := hu.dynDir
    rw [h]
    exact hE.known _ _ _
  rw [step_brk hpc hl hskip hc he, epilogue_val]
  by_cases hgd : g = d
  · -- the flags that are looked at are those of the instruction that the jump leads to
    subst hgd
    have h0 : (C.rule g).actOfs.toNat = 0 := by
      have := hC.loaded.actOfs_lt g
      rw [hC.cmdLen] at this
      simpa using this
    obtain ⟨op, hop, hword⟩ := default_insn hC hw
    have hucmd : u.cmd = 0 := hu.cmd.trans h0
    have hul : u.l = 1 := by
      rw [hu.l, h0, hC.cmdLen]
      rfl
    have hhead : Insn.ofWord (u.words u.f u.cmd) = .ofWord (Opcode.word op 1 0) := by
      rw [hu.f, hucmd, hword]
    have hflags : Insn.fNot (.ofWord (Opcode.word op 1 0)) = false ∧
        Insn.fOr (.ofWord (Opcode.word op 1 0)) = false := by
      rcases hop with rfl | rfl <;> exact ⟨rfl, rfl⟩
    have hskip' : u.skipOr = false := hu.skipOr.trans hskip
    rw [hhead, close_next (by rw [Chk.result, hu.matched, hflags.1, hflags.2]; rfl)]
    refine ⟨advance_walk hupc hw hcache hhere (fun _ => ⟨?_, .inl hu.cmdlen, ?_⟩) (fun h => ?_)
      fun _ => ⟨?_, ?_, hskip'⟩,
      .jump hpc hfinds.2.1 hdyn hhere.1 hhere.2 (.inl ⟨hupc, rfl⟩)⟩
    · change u.l = (C.rule u.f).cmdLen.toNat - (u.cmd : ℤ)
      rw [hu.l, hu.f, hu.cmd]
    · change Visited C w u.f u.cmd
      rw [hu.f, hu.cmd]
      exact hact
    · exact absurd (hudone.symm.trans h) (by simp)
    · change u.cmd + u.cmdlen = 0
      rw [hucmd, hu.cmdlen]
    · change u.l - (u.cmdlen : ℤ) = 1
      rw [hul, hu.cmdlen]
      rfl
  · have huf : u.f ≠ d := by
      rw [hu.f]
      exact hgd
    rcases close_cases (.ofWord (u.words u.f u.cmd)) u with ⟨m, hcl⟩ | ⟨m, o, -, hcl⟩
    · rw [hcl]
      refine ⟨leave_walk hw hcache hhere fun _ => hC.succ_lt hhere.1 ?_,
        .jump hpc hfinds.2.1 ?_ hhere.1 (leave_f.trans hhere.2) ?_⟩
      · change C.at u.fPos ≠ d
        rw [← hhere.2]
        exact huf
      · rw [leave_dynDir]
        exact hdyn
      · rcases leave_pc (u := { u with matched := m }) with h | h
        · exact .inr (.inl h)
        · exact .inr (.inr h)
    · rw [hcl]
      refine ⟨advance_walk hupc hw hcache hhere (fun _ => ⟨?_, .inl hu.cmdlen, ?_⟩) (fun h => ?_)
        fun h => absurd h huf, .jump hpc hfinds.2.1 hdyn hhere.1 hhere.2 (.inl ⟨hupc, rfl⟩)⟩
      · change u.l = (C.rule u.f).cmdLen.toNat - (u.cmd : ℤ)
        rw [hu.l, hu.f, hu.cmd]
      · change Visited C w u.f u.cmd
        rw [hu.f, hu.cmd]
        exact hact
      · exact absurd (hudone.symm.trans h) (by simp)

omit hC in
/-- What a skipto leaves as it is. -/
theorem execSkipto_same : (execSkipto E k C c t).2.pc = t.pc ∧
    (execSkipto E k C c t).2.words = t.words ∧ (execSkipto E k C c t).2.done = t.done ∧
    (execSkipto E k C c t).2.ref = t.ref ∧ (execSkipto E k C c t).2.dynDir = t.dynDir := by
  unfold execSkipto
  dsimp only
  split_ifs <;> exact ⟨rfl, rfl, rfl, rfl, rfl⟩

/-- A skipto goes forward. -/
theorem execSkipto_forward (hs : Walk C w d s) (hpc : s.pc = .inner) (hl : 0 < s.l) (hf : s.f ≠ d)
    (hc : Insn.ofWord (s.words s.f s.cmd) = c) (hop : c.opcode = some .skipto)
    (ht : t = { s with cmdlen := c.fLen, matched := false }) :
    s.fPos < (execSkipto E k C c t).2.fPos ∧ (execSkipto E k C c t).2.fPos < C.nRules ∧
      CacheOk C w (execSkipto E k C c t).2.cache := by
  subst ht
  obtain ⟨-, hv⟩ := hs.visited hpc hl
  have hc' : c = .ofWord (w s.f s.cmd) := by rw [← hc, hs.intact _ _ hv]
  obtain ⟨hpos, hcache⟩ := execSkipto_fPos (E := E) (k := k)
    (s := { s with cmdlen := c.fLen, matched := false }) hC.loaded hv
    (by rw [← hc']; exact hop) hs.cache
  rw [← hc'] at hpos hcache
  obtain ⟨hlt, hat⟩ := hs.here hpc
  rw [hpos]
  refine ⟨(hC.lt_find (hC.succ_lt hlt ?_) ?_).trans_le le_skipDisabled,
    skipDisabled_lt hC.find_lt, hcache⟩
  · rw [← hat]
    exact hf
  · rw [← hat]
    exact lt_skiptoKey

/-- A round in which a skipto is executed. -/
theorem walk_skipto (hs : Walk C w d s) (hpc : s.pc = .inner) (hl : 0 < s.l) (hf : s.f ≠ d)
    (hskip : s.skipOr = false) (hc : Insn.ofWord (s.words s.f s.cmd) = c)
    (hop : c.opcode = some .skipto) :
    Walk C w d ((step E k C s).val s) ∧ Move E k C s ((step E k C s).val s) := by
  have hdone : s.done = false := by
    by_contra h
    have := hs.done hpc (by simpa using h)
    omega
  set t : Chk Δ := { s with cmdlen := c.fLen, matched := false } with ht
  obtain ⟨hfwd, hlt, hcache⟩ := execSkipto_forward (E := E) (k := k) hC hs hpc hl hf hc hop ht
  obtain ⟨hpc', hwords, hdone', -, -⟩ := execSkipto_same (E := E) (k := k) (C := C) (c := c) (t := t)
  have he : (exec E k C c t).val s = (.cont, (execSkipto E k C c t).2) := by
    simp only [exec, hop]
    rfl
  rw [step_cont hpc hl hskip hc he]
  refine ⟨advance_walk (hpc'.trans hpc) ?_ hcache ⟨hlt, rfl⟩ (fun _ => ⟨?_, .inl rfl, ?_⟩)
    (fun h => ?_) (fun h => ⟨rfl, ?_, rfl⟩), .skipto hpc (hpc'.trans hpc) hfwd⟩
  · intro g q hq
    rw [hwords]
    exact hs.intact g q hq
  · exact (Int.sub_zero _).symm
  · exact hC.loaded.visited_zero _
  · exact absurd (hdone.symm.trans (hdone'.symm.trans h)) (by simp)
  · change ((C.rule (C.at (execSkipto E k C c t).2.fPos)).cmdLen.toNat : ℤ) - ((0 : ℕ) : ℤ) = 1
    have h : C.at (execSkipto E k C c t).2.fPos = d := h
    rw [h, hC.cmdLen]
    rfl

/-- **One round** keeps the invariant. -/
theorem walk_step (hE : E.Fits C) (hs : Walk C w d s) (hok : LoopOk E k C w s) :
    Walk C w d ((step E k C s).val s) ∧ Move E k C s ((step E k C s).val s) := by
  cases hpc : s.pc with
  | exit =>
    have hstep : (step E k C s).val s = s := by simp only [step, hpc, Reads.val_pure]
    rw [hstep]
    exact ⟨hs, .stop hpc rfl⟩
  | panic => exact absurd hpc hs.panic
  | outer =>
    have hstep : (step E k C s).val s = enter E C s := by simp only [step, hpc, Reads.val_pure]
    rw [hstep]
    obtain ⟨hlt, hdone⟩ := hs.outer hpc
    unfold enter
    rw [if_pos hlt]
    dsimp only
    split_ifs with hdis
    · refine ⟨⟨hs.intact, hs.cache, fun h => absurd (hpc.symm.trans h) (by simp),
        fun h => absurd (hpc.symm.trans h) (by simp), fun _ => ⟨hC.succ_lt hlt fun hd => ?_, hdone⟩,
        fun h => absurd (hpc.symm.trans h) (by simp), fun h => absurd (hpc.symm.trans h) (by simp),
        fun h => absurd (hpc.symm.trans h) (by simp), hs.panic⟩, .disabled hpc hpc rfl⟩
      rw [hd, hC.set, hE.reserved] at hdis
      exact absurd hdis (by simp)
    · refine ⟨⟨hs.intact, hs.cache, fun _ _ => ⟨(Int.sub_zero _).symm, hC.loaded.visited_zero _⟩,
        fun _ => ⟨hlt, rfl⟩, (by simp), fun _ h => absurd (hdone.symm.trans h) (by simp), (by simp),
        fun _ h => ⟨rfl, ?_, rfl⟩, (by simp)⟩, .enter hpc rfl rfl⟩
      have h : C.at s.fPos = d := h
      change ((C.rule (C.at s.fPos)).cmdLen.toNat : ℤ) = 1
      rw [h, hC.cmdLen]
      rfl
  | inner =>
    by_cases hf : s.f = d
    · obtain ⟨t, ht, hexit, hdone, hpos, htf, hca, hw, -, -⟩ :=
        step_default (E := E) (k := k) hC hs hpc hf
      have hhere : t.fPos < C.nRules ∧ t.f = C.at t.fPos := by
        rw [hpos, htf, ← hf]
        exact hs.here hpc
      have henters : ¬ Enters E k C s := by
        obtain ⟨hcmd, -, -⟩ := hs.default hpc hf
        obtain ⟨op, hop, hword⟩ := default_insn hC hs.intact
        refine not_enters_of_inner hpc fun _ _ => ?_
        rw [hf, hcmd, hword]
        rcases hop with rfl | rfl
        · exact ⟨by decide, fun g hg => absurd hg.1 (by decide)⟩
        · exact ⟨by decide, fun g hg => absurd hg.1 (by decide)⟩
      rw [ht]
      refine ⟨⟨fun g q hq => by rw [hw]; exact hs.intact g q hq, by rw [hca]; exact hs.cache,
        fun h => absurd (hexit.symm.trans h) (by simp),
        fun h => absurd (hexit.symm.trans h) (by simp),
        fun h => absurd (hexit.symm.trans h) (by simp),
        fun h => absurd (hexit.symm.trans h) (by simp),
        fun _ => ⟨hdone, hhere⟩, fun h => absurd (hexit.symm.trans h) (by simp),
        fun h => absurd (hexit.symm.trans h) (by simp)⟩, .exit henters hpc hexit⟩
    · by_cases hl : 0 < s.l
      · cases hskip : s.skipOr with
        | true => exact walk_skip hC hs hpc hl hf hskip
        | false =>
          by_cases hop : (Insn.ofWord (s.words s.f s.cmd)).opcode = some .skipto
          · exact walk_skipto hC hs hpc hl hf hskip rfl hop
          · by_cases hfinds : ∃ g, Finds E k (.ofWord (s.words s.f s.cmd)) s g
            · obtain ⟨g, hg⟩ := hfinds
              exact walk_jump hC hE hs hok hpc hl hskip rfl hg
            · exact walk_stays hC hs hok hpc hl hf hskip rfl hop fun g hg => hfinds ⟨g, hg⟩
      · have hstep : (step E k C s).val s = s.leave := by
          simp only [step, hpc, hl, if_false, Reads.val_pure]
        rw [hstep]
        obtain ⟨hlt, hat⟩ := hs.here hpc
        have henters : ¬ Enters E k C s := not_enters_of_inner hpc fun h => absurd h hl
        refine ⟨leave_walk hs.intact hs.cache ⟨hlt, hat⟩ fun _ => hC.succ_lt hlt (hat ▸ hf), ?_⟩
        rcases leave_pc (u := s) with ⟨h, h'⟩ | h
        · exact .leave henters hpc h h'
        · exact .exit henters hpc h

omit hC in
theorem close_frame : (u.close c).ref = u.ref ∧ (u.close c).dynDir = u.dynDir := by
  have hleave : ∀ v : Chk Δ, v.leave.ref = v.ref := by
    intro v
    unfold Chk.leave
    split_ifs <;> rfl
  rcases close_cases c u with ⟨m, hcl⟩ | ⟨m, o, -, hcl⟩
  · rw [hcl, hleave, leave_dynDir]
    exact ⟨rfl, rfl⟩
  · rw [hcl]
    exact ⟨rfl, rfl⟩

/-- **The mark of the packet** changes only when a rule matches, which is not the default rule; and a
lookup of a dynamic rule is made once. -/
theorem step_frame (hs : Walk C w d s) :
    (((step E k C s).val s).ref = s.ref ∨
      s.pc = .inner ∧ s.f ≠ d ∧ ((step E k C s).val s).ref = (s.setMatch C).ref) ∧
    (s.dynDir ≠ .unknown → ((step E k C s).val s).dynDir = s.dynDir) := by
  cases hpc : s.pc with
  | exit =>
    have hstep : (step E k C s).val s = s := by simp only [step, hpc, Reads.val_pure]
    rw [hstep]
    exact ⟨.inl rfl, fun _ => rfl⟩
  | panic => exact absurd hpc hs.panic
  | outer =>
    have hstep : (step E k C s).val s = enter E C s := by simp only [step, hpc, Reads.val_pure]
    rw [hstep, enter, if_pos (hs.outer hpc).1]
    dsimp only
    split_ifs
    · exact ⟨.inl rfl, fun _ => rfl⟩
    · exact ⟨.inl rfl, fun _ => rfl⟩
  | inner =>
    by_cases hl : 0 < s.l
    · cases hskip : s.skipOr with
      | true =>
        rw [step_skip hpc hl hskip rfl]
        split_ifs
        · exact ⟨.inl rfl, fun _ => rfl⟩
        · exact ⟨.inl rfl, fun _ => rfl⟩
      | false =>
        set c := Insn.ofWord (s.words s.f s.cmd) with hc
        set t : Chk Δ := { s with cmdlen := c.fLen, matched := false } with ht
        by_cases hop : c.opcode = some .skipto
        · have he : (exec E k C c t).val s = (.cont, (execSkipto E k C c t).2) := by
            simp only [exec, hop]
            rfl
          rw [step_cont hpc hl hskip rfl he]
          obtain ⟨-, -, -, href, hdyn⟩ :=
            execSkipto_same (E := E) (k := k) (C := C) (c := c) (t := t)
          exact ⟨.inl href, fun _ => hdyn⟩
        by_cases hfinds : ∃ g, Finds E k c s g
        · obtain ⟨g, hg⟩ := hfinds
          obtain ⟨u, he, hu⟩ := exec_jumps (C := C) (z := s)
            (finds_congr (s := s) (n := c.fLen) (m := false).2 hg)
          rw [step_brk hpc hl hskip rfl he, epilogue_val, close_frame.1]
          exact ⟨.inl hu.ref, fun h => absurd hg.2.1 h⟩
        · have hno : ∀ g, ¬ Finds E k c t g := fun g h => hfinds ⟨g, finds_congr.1 h⟩
          have hleaves := exec_leaves (C := C) (z := s) hop hno
          obtain ⟨ctl, u, he⟩ : ∃ ctl u, (exec E k C c t).val s = (ctl, u) := ⟨_, _, rfl⟩
          rw [he] at hleaves
          obtain ⟨hctl, hfr⟩ := hleaves
          have hout : ((step E k C s).val s).ref = u.ref ∧
              ((step E k C s).val s).dynDir = u.dynDir := by
            cases ctl with
            | cont => exact absurd rfl hctl
            | brk =>
              rw [step_brk hpc hl hskip rfl he, epilogue_val]
              exact close_frame
            | panic =>
              rw [step_inner hpc hl, body, Reads.val_bind, val_insnAt,
                if_neg (show ¬ s.skipOr = true by simp [hskip]), Reads.val_bind, ← hc, he]
              exact ⟨rfl, rfl⟩
          refine ⟨?_, fun h => hout.2.trans (hfr.dynDir h)⟩
          rcases hfr.ref with h | h
          · exact .inl (hout.1.trans h)
          · by_cases hf : s.f = d
            · obtain ⟨v, hv, -, -, -, -, -, -, href, -⟩ :=
                step_default (E := E) (k := k) hC hs hpc hf
              exact .inl (by rw [hv, href])
            · exact .inr ⟨rfl, hf, hout.1.trans h⟩
    · have hstep : (step E k C s).val s = s.leave := by
        simp only [step, hpc, hl, if_false, Reads.val_pure]
      rw [hstep, leave_dynDir]
      unfold Chk.leave
      split_ifs
      · exact ⟨.inl rfl, fun _ => rfl⟩
      · exact ⟨.inl rfl, fun _ => rfl⟩

theorem walk_run (hE : E.Fits C) (hs : Walk C w d s) {n : ℕ}
    (hok : ∀ i < n, LoopOk E k C w (run E k C i s)) : Walk C w d (run E k C n s) := by
  induction n with
  | zero => exact hs
  | succ n ih =>
    rw [run_succ']
    exact (walk_step hC hE (ih fun i hi => hok i (by omega)) (hok n (by omega))).1

end

end Ipfw
