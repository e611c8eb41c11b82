import Dummynet.Ipfw.Action
import Dummynet.Ipfw.Operands

/-!
# The check of a rule and the interpreter

The interpreter decodes instructions from the start of a rule on, and from `ACTION_PTR` on when it
has found a dynamic rule. In an accepted rule the former are the instructions that the check has
visited. Of `ACTION_PTR` the check knows only that it lies within the rule.

## Main definitions

* `InBounds`: an access to a word of an instruction that the check has visited.
* `Entry`: the interpreter is about to evaluate a rule.
* `StepOk`: the conditions on an instruction that the check does not establish.

## Main results

* `exec_outcome`: where an instruction leads to.
* `within_step_iff`: a round stays within the instructions of the rules exactly if these conditions
  hold.
* `step_inv`: it then leads to another instruction that the check has visited, or to `ACTION_PTR`.
-/

namespace Ipfw

variable {Δ : Type} {E : Env Δ} {k : Hdr} {C : Chain} {s t z : Chk Δ} {c : Insn} {K : Kernel}
  {w : RulePtr → ℕ → BitVec 32} {f g : RulePtr} {p : ℕ}

/-! ### What the switch leaves -/

/-- The interpreter stays at its instruction, or leaves the rule. -/
structure Stays (E : Env Δ) (C : Chain) (c : Insn) (s t : Chk Δ) : Prop where
  pc : t.pc = s.pc
  f : t.f = s.f
  cmd : t.cmd = s.cmd
  cmdlen : t.cmdlen = s.cmdlen
  skipOr : t.skipOr = s.skipOr
  l : t.l = s.l ∨ t.l = 0
  words : ∀ g q, t.words g q = s.words g q ∨ g = s.f ∧
    (c.opcode = some .log ∧ E.fwVerbose = true ∧ q = (C.rule s.f).actOfs.toNat + 2 ∨
      c.opcode = some .nat ∧ (q = s.cmd + 2 ∨ q = s.cmd + 3))

/-- The interpreter goes to the instruction at `p` of the rule `g`. -/
structure GoesTo (C : Chain) (g : RulePtr) (p : ℕ) (s t : Chk Δ) : Prop where
  pc : t.pc = s.pc
  f : t.f = g
  cmd : t.cmd = p
  cmdlen : t.cmdlen = 0
  l : t.l = (C.rule g).cmdLen.toNat - p
  words : t.words = s.words

/-- The instruction finds a dynamic rule of the rule `g`. -/
def Finds (E : Env Δ) (k : Hdr) (c : Insn) (s : Chk Δ) (g : RulePtr) : Prop :=
  (c.opcode = some .probeState ∨ c.opcode = some .checkState) ∧ s.dynDir = .unknown ∧
    (E.lookupDynRule (s.flowId k) ((lookupAck k).val s) s.dyn).1 = some g

/-- The outcomes of the switch. -/
inductive Outcome (E : Env Δ) (k : Hdr) (C : Chain) (c : Insn) (s : Chk Δ) : Ctl × Chk Δ → Prop
  | stays {t : Chk Δ} : Stays E C c s t → Outcome E k C c s (.brk, t)
  | jump {t : Chk Δ} {g : RulePtr} : Finds E k c s g →
      GoesTo C g (C.rule g).actOfs.toNat s t → Outcome E k C c s (.brk, t)
  | skipto {t : Chk Δ} {g : RulePtr} : GoesTo C g 0 s t → Outcome E k C c s (.cont, t)
  | panic : (∀ K x, checkInsn K c ≠ .ok x) → Outcome E k C c s (.panic, s)

theorem Stays.mk_same (h : t.pc = s.pc ∧ t.f = s.f ∧ t.cmd = s.cmd ∧ t.cmdlen = s.cmdlen ∧
    t.skipOr = s.skipOr ∧ t.words = s.words) (hl : t.l = s.l ∨ t.l = 0) : Stays E C c s t := by
  obtain ⟨h1, h2, h3, h4, h5, h6⟩ := h
  exact ⟨h1, h2, h3, h4, h5, hl, fun _ _ => .inl (by rw [h6])⟩

theorem stays_brk {m : Bool} : Stays E C c s { s with matched := m } :=
  .mk_same ⟨rfl, rfl, rfl, rfl, rfl, rfl⟩ (.inl rfl)

/-- `ipfw_log` counts down the third word at `ACTION_PTR`. -/
theorem ipfwLog_stays (hc : c.opcode = some .log) : Stays E C c s ((ipfwLog E C s).val z) := by
  have hself : Stays E C c s s := .mk_same ⟨rfl, rfl, rfl, rfl, rfl, rfl⟩ (.inl rfl)
  simp only [ipfwLog, Reads.val_ite, Reads.val_bind, Reads.val_pure, wordAt, Reads.val_read]
  split_ifs with hv hlog
  · exact hself
  · exact hself
  · refine ⟨rfl, rfl, rfl, rfl, rfl, .inl rfl, fun g q => ?_⟩
    dsimp only
    rcases eq_or_ne g s.f with rfl | hg
    · rw [Function.update_self]
      rcases eq_or_ne q ((C.rule s.f).actOfs.toNat + 2) with rfl | hq
      · exact .inr ⟨rfl, .inl ⟨hc, by simpa using hv, rfl⟩⟩
      · exact .inl (Function.update_of_ne hq _ _)
    · rw [Function.update_of_ne hg]
      exact .inl rfl

/-- `O_NAT` writes the last two words of its instruction. -/
theorem execNat_stays (hc : c.opcode = some .nat) :
    ∃ t, (execNat E C c s).val z = (.brk, t) ∧ Stays E C c s t := by
  have hself : ∀ r v, Stays E C c s ({ s with ref := r }.finish v |>.brk false).2 :=
    fun r v => .mk_same ⟨rfl, rfl, rfl, rfl, rfl, rfl⟩ (.inr rfl)
  rw [execNat, Reads.val_ite]
  split_ifs
  · exact ⟨_, rfl, hself s.ref _⟩
  · simp only [execNatLoaded, Reads.val_bind, Reads.val_ite, Reads.val_pure]
    split_ifs
    · exact ⟨_, rfl, hself _ _⟩
    · split
      · exact ⟨_, rfl, hself _ _⟩
      · simp only [execNatFound, Reads.val_bind, Reads.val_ite, Reads.val_pure]
        split_ifs
        · refine ⟨_, rfl, rfl, rfl, rfl, rfl, rfl, .inr rfl, fun g q => ?_⟩
          dsimp only [Chk.finish, Chk.setMatch]
          rcases eq_or_ne g s.f with rfl | hg
          · rw [Function.update_self]
            rcases eq_or_ne q (s.cmd + 3) with rfl | hq
            · exact .inr ⟨rfl, .inr ⟨hc, .inr rfl⟩⟩
            · rw [Function.update_of_ne hq]
              rcases eq_or_ne q (s.cmd + 2) with rfl | hq
              · exact .inr ⟨rfl, .inr ⟨hc, .inl rfl⟩⟩
              · exact .inl (Function.update_of_ne hq _ _)
          · rw [Function.update_of_ne hg]
            exact .inl rfl
        · exact ⟨_, rfl, hself _ _⟩

theorem execUnreach6_stays (h : Stays E C c s t) :
    ∃ u, execUnreach6 k c t = (.brk, u) ∧ Stays E C c s u := by
  unfold execUnreach6
  dsimp only
  split_ifs
  · exact ⟨_, rfl, { h with l := .inr rfl }⟩
  · exact ⟨_, rfl, { h with l := .inr rfl }⟩

theorem execReject_stays : ∃ u, (execReject k c s).val z = (.brk, u) ∧ Stays E C c s u := by
  simp only [execReject, Reads.val_bind, Reads.val_pure]
  refine execUnreach6_stays ?_
  split_ifs
  · exact .mk_same ⟨rfl, rfl, rfl, rfl, rfl, rfl⟩ (.inl rfl)
  · exact .mk_same ⟨rfl, rfl, rfl, rfl, rfl, rfl⟩ (.inl rfl)

/-- The acknowledgement number is one of the packet. -/
theorem lookupAck_val : (lookupAck k).val z = (lookupAck k).val s := by
  unfold lookupAck
  split_ifs
  · split <;> rfl
  · rfl

theorem execState_outcome (hc : c.opcode = some .probeState ∨ c.opcode = some .checkState) :
    Outcome E k C c s ((execState E k C c s).val z) := by
  have hack : (lookupAck k).val z = (lookupAck k).val s := lookupAck_val
  simp only [execState, lookupDyn, Reads.val_bind, Reads.val_ite, Reads.val_pure, hack]
  split_ifs with hdir hop hop
  · cases hf : (E.lookupDynRule (s.flowId k) ((lookupAck k).val s) s.dyn).1 with
    | some g => exact .jump ⟨hc, hdir, hf⟩ ⟨rfl, rfl, rfl, rfl, rfl, rfl⟩
    | none => exact .stays (.mk_same ⟨rfl, rfl, rfl, rfl, rfl, rfl⟩ (.inr rfl))
  · cases hf : (E.lookupDynRule (s.flowId k) ((lookupAck k).val s) s.dyn).1 with
    | some g => exact .jump ⟨hc, hdir, hf⟩ ⟨rfl, rfl, rfl, rfl, rfl, rfl⟩
    | none => exact .stays (.mk_same ⟨rfl, rfl, rfl, rfl, rfl, rfl⟩ (.inl rfl))
  · exact .stays (.mk_same ⟨rfl, rfl, rfl, rfl, rfl, rfl⟩ (.inr rfl))
  · exact .stays (.mk_same ⟨rfl, rfl, rfl, rfl, rfl, rfl⟩ (.inl rfl))

theorem execSkipto_goesTo : ∃ g t, execSkipto E k C c s = (.cont, t) ∧ GoesTo C g 0 s t := by
  refine ⟨_, _, rfl, ?_, rfl, rfl, rfl, (Int.sub_zero _).symm, ?_⟩ <;> dsimp only <;> split_ifs <;> rfl

/-- **The switch.** It stays at its instruction, jumps to the action part of the rule of a dynamic
rule, goes to the start of a rule, or panics at an opcode that the check does not accept. -/
theorem exec_outcome : Outcome E k C c s ((exec E k C c s).val z) := by
  have htests : ∀ x : Ev Δ Bool, Outcome E k C c s ((tests s x).val z) :=
    fun x => .stays stays_brk
  have hstop : ∀ {t : Chk Δ}, t.pc = s.pc ∧ t.f = s.f ∧ t.cmd = s.cmd ∧ t.cmdlen = s.cmdlen ∧
      t.skipOr = s.skipOr ∧ t.words = s.words → t.l = 0 → Outcome E k C c s (.brk, t) :=
    fun h hl => .stays (.mk_same h (.inr hl))
  have hpanic : (∀ K x, checkInsn K c ≠ .ok x) → Outcome E k C c s (.panic, s) := .panic
  have hsame : ∀ {t : Chk Δ}, t.pc = s.pc ∧ t.f = s.f ∧ t.cmd = s.cmd ∧ t.cmdlen = s.cmdlen ∧
      t.skipOr = s.skipOr ∧ t.words = s.words → t.l = s.l → Outcome E k C c s (.brk, t) :=
    fun h hl => .stays (.mk_same h (.inl hl))
  unfold exec
  split
  all_goals
    rename_i heq
    first
    | exact htests _
    | exact hstop ⟨rfl, rfl, rfl, rfl, rfl, rfl⟩ rfl
    | exact hpanic fun K x h => by rw [checkInsn, heq] at h; cases h
    | skip
  case h_18 | h_19 =>
    rw [Reads.val_ite]
    split_ifs
    · exact hsame ⟨rfl, rfl, rfl, rfl, rfl, rfl⟩ rfl
    · exact hsame ⟨rfl, rfl, rfl, rfl, rfl, rfl⟩ rfl
  case h_46 =>
    rw [execAltq, Reads.val_ite]
    split_ifs
    · exact hsame ⟨rfl, rfl, rfl, rfl, rfl, rfl⟩ rfl
    · exact hsame ⟨rfl, rfl, rfl, rfl, rfl, rfl⟩ rfl
  case h_47 => exact .stays { ipfwLog_stays (z := z) heq with }
  case h_61 =>
    rw [Reads.val_pure, execTag]
    split
    · split_ifs
      · exact hsame ⟨rfl, rfl, rfl, rfl, rfl, rfl⟩ rfl
      · exact hsame ⟨rfl, rfl, rfl, rfl, rfl, rfl⟩ rfl
    · split_ifs
      · exact hsame ⟨rfl, rfl, rfl, rfl, rfl, rfl⟩ rfl
      · exact hsame ⟨rfl, rfl, rfl, rfl, rfl, rfl⟩ rfl
      · exact hsame ⟨rfl, rfl, rfl, rfl, rfl, rfl⟩ rfl
  case h_64 | h_65 =>
    simp only [execInstall, Reads.val_bind, Reads.val_pure]
    generalize E.installState s.f _ _ (s.flowId k) s.tablearg s.dyn = r
    obtain ⟨fail, dyn⟩ := r
    cases fail
    · exact hsame ⟨rfl, rfl, rfl, rfl, rfl, rfl⟩ rfl
    · exact hstop ⟨rfl, rfl, rfl, rfl, rfl, rfl⟩ rfl
  case h_66 => exact execState_outcome (.inl heq)
  case h_67 => exact execState_outcome (.inr heq)
  case h_71 | h_72 =>
    rw [Reads.val_pure, execDivert]
    split
    · exact hsame ⟨rfl, rfl, rfl, rfl, rfl, rfl⟩ rfl
    · exact hstop ⟨rfl, rfl, rfl, rfl, rfl, rfl⟩ rfl
  case h_74 =>
    obtain ⟨g, t, ht, hgo⟩ := execSkipto_goesTo (E := E) (k := k) (C := C) (c := c) (s := s)
    rw [Reads.val_pure, ht]
    exact .skipto hgo
  case h_75 =>
    obtain ⟨u, hu, hst⟩ := execReject_stays (E := E) (k := k) (C := C) (c := c) (s := s) (z := z)
    rw [hu]
    exact .stays hst
  case h_76 =>
    obtain ⟨u, hu, hst⟩ := execUnreach6_stays (E := E) (k := k) (C := C) (c := c) (s := s)
      (.mk_same ⟨rfl, rfl, rfl, rfl, rfl, rfl⟩ (.inl rfl))
    rw [Reads.val_pure, hu]
    exact .stays hst
  case h_78 =>
    simp only [execForwardIp, Reads.val_ite, Reads.val_bind, Reads.val_pure]
    split_ifs
    · exact hsame ⟨rfl, rfl, rfl, rfl, rfl, rfl⟩ rfl
    · exact hstop ⟨rfl, rfl, rfl, rfl, rfl, rfl⟩ rfl
    · exact hstop ⟨rfl, rfl, rfl, rfl, rfl, rfl⟩ rfl
    · exact hstop ⟨rfl, rfl, rfl, rfl, rfl, rfl⟩ rfl
  case h_82 =>
    obtain ⟨u, hu, hst⟩ := execNat_stays (E := E) (C := C) (s := s) (z := z) heq
    rw [hu]
    exact .stays hst
  case h_83 =>
    simp only [execReass, Reads.val_ite, Reads.val_bind, Reads.val_pure]
    split_ifs
    · exact hstop ⟨rfl, rfl, rfl, rfl, rfl, rfl⟩ rfl
    · exact hstop ⟨rfl, rfl, rfl, rfl, rfl, rfl⟩ rfl
    · exact hstop ⟨rfl, rfl, rfl, rfl, rfl, rfl⟩ rfl

/-- An instruction that finds a dynamic rule jumps. -/
theorem exec_of_finds (h : Finds E k c s g) :
    ∃ t, (exec E k C c s).val z = (.brk, t) ∧ GoesTo C g (C.rule g).actOfs.toNat s t := by
  obtain ⟨hc, hdir, hf⟩ := h
  have hack : (lookupAck k).val z = (lookupAck k).val s := lookupAck_val
  have hexec : exec E k C c s = execState E k C c s := by
    rcases hc with hc | hc <;> simp only [exec, hc]
  rw [hexec]
  simp only [execState, lookupDyn, hdir, if_true, Reads.val_bind, Reads.val_pure, hack, hf]
  exact ⟨_, rfl, rfl, rfl, rfl, rfl, rfl, rfl⟩

/-! ### The bounds -/

/-- A word of an instruction that the check has visited, and within the rule. -/
def InBounds (C : Chain) (w : RulePtr → ℕ → BitVec 32) : Loc → Prop
  | .word f p i => Visited C w f p ∧ i < lenAt (w f) p ∧ p + i < (C.rule f).cmdLen.toNat
  | .byte _ => True

/-- The first words of the instructions are as the check has left them. -/
def Intact (C : Chain) (w : RulePtr → ℕ → BitVec 32) (s : Chk Δ) : Prop :=
  ∀ f p, Visited C w f p → s.words f p = w f p

/-- The interpreter is about to evaluate a rule, from its first instruction or from `ACTION_PTR`. -/
def Entry (C : Chain) (s : Chk Δ) : Prop :=
  s.pc = .outer ∨ s.pc = .inner ∧ (s.cmd = 0 ∨ s.cmd = (C.rule s.f).actOfs.toNat) ∧
    s.l = (C.rule s.f).cmdLen.toNat - s.cmd

/-- The instruction at `ACTION_PTR` has room for an `O_LOG`, and another one follows it, unless the
log limit is reached. -/
def LogOk (C : Chain) (w : RulePtr → ℕ → BitVec 32) (s : Chk Δ) : Prop :=
  Visited C w s.f (C.rule s.f).actOfs.toNat ∧
    3 ≤ lenAt (w s.f) (C.rule s.f).actOfs.toNat ∧
    (¬ (s.words s.f ((C.rule s.f).actOfs.toNat + 1) ≠ 0#32 ∧
        s.words s.f ((C.rule s.f).actOfs.toNat + 2) = 0#32) →
      (C.rule s.f).actOfs.toNat + lenAt (w s.f) (C.rule s.f).actOfs.toNat <
        (C.rule s.f).cmdLen.toNat)

/-- The length of a test of masked IPv6 addresses is right, or a complete pair matches. -/
def MaskOk (k : Hdr) (c : Insn) (s : Chk Δ) (a : In6Addr) : Prop :=
  k.isIpv6 = true →
    c.fLen % 8 = 1 ∨ (mask6Loop a ((c.fLen - 1) / 8) 1).val s = true

/-- What the check does not establish of the instruction `c` that is executed. -/
structure InsnOk (E : Env Δ) (k : Hdr) (C : Chain) (w : RulePtr → ℕ → BitVec 32) (c : Insn)
    (s : Chk Δ) : Prop where
  src : c.opcode = some .ip6SrcMask → MaskOk k c s k.fId.srcIp6
  dst : c.opcode = some .ip6DstMask → MaskOk k c s k.fId.dstIp6
  log : c.opcode = some .log → E.fwVerbose = true → LogOk C w s
  jump : ∀ g, Finds E k c s g → Visited C w g (C.rule g).actOfs.toNat

/-- What the check does not establish of the next round: `ACTION_PTR` is an instruction, if the
interpreter is there, and the instruction that is executed is in order. -/
def StepOk (E : Env Δ) (k : Hdr) (C : Chain) (w : RulePtr → ℕ → BitVec 32) (s : Chk Δ) : Prop :=
  s.pc = .inner → 0 < s.l →
    (s.cmd = (C.rule s.f).actOfs.toNat → Visited C w s.f s.cmd) ∧
      (s.skipOr = false → InsnOk E k C w (.ofWord (s.words s.f s.cmd)) s)

variable (hload : Loaded K C w)
include hload

theorem inBounds_iff (h : Visited C w f p) {i : ℕ} :
    InBounds C w (.word f p i) ↔ i < lenAt (w f) p := by
  refine ⟨fun hi => hi.2.1, fun hi => ⟨h, hi, ?_⟩⟩
  obtain ⟨x, -, hle, -⟩ := hload.fits h
  omega

theorem inBounds_zero (h : Visited C w f p) : InBounds C w (.word f p 0) := by
  obtain ⟨x, hx, -, -⟩ := hload.fits h
  exact (inBounds_iff hload h).2 (fLen_pos_of_checkInsn hx)

/-- The instruction after one that is not the action. -/
theorem visited_next (h : Visited C w f p) {x : CheckClass}
    (hx : checkInsn K (.ofWord (w f p)) = .ok x) (hne : x ≠ .action) :
    Visited C w f (p + lenAt (w f) p) := by
  obtain ⟨y, hy, hle, hact⟩ := hload.fits h
  rw [hx] at hy
  obtain rfl := Except.ok.inj hy
  refine h.next ?_
  have : ¬ p + lenAt (w f) p = (C.rule f).cmdLen.toNat := fun he => hne (hact.2 he)
  omega

omit hload in
/-- A word in the middle of an instruction is not an instruction. -/
theorem not_visited_of_lt (h : Visited C w f p) {q : ℕ} (hlt : p < q)
    (hq : q < p + lenAt (w f) p) : ¬ Visited C w f q := by
  intro hv
  have := Boundary.disjoint hv h hlt
  omega

/-! ### Logging -/

omit hload in
/-- An instruction that the log skips is not the action. -/
theorem pattern_of_skipped {x : CheckClass} (h : checkInsn K c = .ok x)
    (hc : c.opcode = some .altq ∨ c.opcode = some .prob ∨ c.opcode = some .tag) :
    x ≠ .action := by
  rintro rfl
  unfold checkInsn at h
  rcases hc with hc | hc | hc <;> rw [hc] at h <;> simp only [require_bind] at h <;>
    exact absurd h.2 (by simp [pure, Except.pure])

variable {m : RulePtr → ℕ → BitVec 32}

/-- One step of the search for the action. -/
theorem skipOver_spec {op : Opcode} (hop : op = .altq ∨ op = .prob ∨ op = .tag)
    (hm : ∀ q, Visited C w f q → m f q = w f q) (h : Visited C w f p) :
    Reads.Within (InBounds C w) s (skipOver m f op p) ∧
      Visited C w f ((skipOver m f op p).val s) := by
  have hmp := hm p h
  obtain ⟨x, hx, -, -⟩ := hload.fits h
  constructor
  · simp only [skipOver, insnAt, wordAt, Reads.within_bind, Reads.within_read, Reads.within_pure,
      and_true]
    exact inBounds_zero hload h
  · simp only [skipOver, Reads.val_bind, Reads.val_pure, insnAt, wordAt, Reads.val_read,
      Nat.add_zero, hmp]
    split_ifs with hc
    · refine visited_next hload h hx (pattern_of_skipped hx ?_)
      rcases hop with rfl | rfl | rfl
      · exact .inl hc
      · exact .inr (.inl hc)
      · exact .inr (.inr hc)
    · exact h

theorem within_logAltq (hm : ∀ q, Visited C w f q → m f q = w f q) (h : Visited C w f p) :
    Reads.Within (InBounds C w) s (logAltq m f p) := by
  obtain ⟨x, hx, -, -⟩ := hload.fits h
  simp only [logAltq, insnAt, wordAt, Reads.within_bind, Reads.within_read, Reads.within_pure,
    Reads.val_bind, Reads.val_read, Reads.val_pure, Nat.add_zero, hm p h, Reads.within_ite,
    and_true, implies_true]
  refine ⟨inBounds_zero hload h, fun hc => (inBounds_iff hload h).2 ?_⟩
  unfold checkInsn at hx
  rw [hc] at hx
  simp only [require_bind, beq_iff_eq] at hx
  rw [lenAt, hx.1]
  omega

theorem within_logForward (hm : ∀ q, Visited C w f q → m f q = w f q) (h : Visited C w f p) :
    Reads.Within (InBounds C w) s (logForward m f p) := by
  obtain ⟨x, hx, -, -⟩ := hload.fits h
  simp only [logForward, insnAt, wordAt, Reads.within_bind, Reads.within_read, Reads.within_pure,
    Reads.val_bind, Reads.val_read, Reads.val_pure, Nat.add_zero, hm p h, Reads.within_ite,
    and_true, implies_true]
  have hlen : (Insn.ofWord (w f p)).opcode = some .forwardIp → lenAt (w f) p = 5 := by
    intro hc
    unfold checkInsn at hx
    rw [hc] at hx
    simp only [require_bind, beq_iff_eq] at hx
    exact hx.2.1
  refine ⟨inBounds_zero hload h, fun hc => ⟨?_, ?_⟩⟩ <;>
    rw [inBounds_iff hload h, hlen hc] <;> omega

/-- The search for the action visits instructions of the rule only. -/
theorem within_logAction (hm : ∀ q, Visited C w f q → m f q = w f q) :
    Reads.Within (InBounds C w) s (logAction m f p) ↔ Visited C w f p := by
  constructor
  · intro h
    simp only [logAction, logAltq, insnAt, wordAt, Reads.within_bind, Reads.within_read] at h
    exact h.1.1.1.1
  · intro h
    obtain ⟨h1, h1'⟩ := skipOver_spec (s := s) hload (.inl rfl) hm h
    obtain ⟨h2, h2'⟩ := skipOver_spec (s := s) hload (.inr (.inl rfl)) hm h1'
    obtain ⟨h3, h3'⟩ := skipOver_spec (s := s) hload (.inr (.inr rfl)) hm h2'
    simp only [logAction, Reads.within_bind, Reads.within_pure, and_true]
    exact ⟨within_logAltq hload hm h, h1, h2, h3, within_logForward hload hm h3'⟩

/-- **Logging.** `ipfw_log` stays within the instructions of the rule exactly if the one at
`ACTION_PTR` has room for an `O_LOG` and is not the last one. -/
theorem within_ipfwLog (hw : Intact C w s) :
    Reads.Within (InBounds C w) z (ipfwLog E C s) ↔ (E.fwVerbose = true → LogOk C w s) := by
  rw [ipfwLog, Reads.within_ite]
  have hoff : ((!E.fwVerbose) = true) ↔ ¬ E.fwVerbose = true := by cases E.fwVerbose <;> simp
  simp only [hoff, Reads.within_pure, implies_true, true_and, not_not]
  refine forall_congr' fun _ => ?_
  set p := (C.rule s.f).actOfs.toNat with hp
  simp only [wordAt, Reads.within_bind, Reads.within_read, Reads.val_read, Reads.within_ite,
    Reads.within_pure, implies_true, true_and, and_true]
  set m := Function.update s.words s.f
    (Function.update (s.words s.f) (p + 2) (s.words s.f (p + 2) - 1)) with hmdef
  -- the word that is counted down is no instruction
  have hm : Visited C w s.f p → 2 < lenAt (w s.f) p → ∀ q, Visited C w s.f q →
      m s.f q = w s.f q := by
    intro hv hlen q hq
    have hne : q ≠ p + 2 := by
      rintro rfl
      exact not_visited_of_lt hv (by omega) (by omega) hq
    rw [hmdef, Function.update_self, Function.update_of_ne hne, hw _ _ hq]
  constructor
  · rintro ⟨-, h2, hrest⟩
    have hv := h2.1
    have hlen : 2 < lenAt (w s.f) p := h2.2.1
    refine ⟨hv, hlen, fun hlog => ?_⟩
    have h3 := hrest hlog
    simp only [insnAt, wordAt, Reads.val_bind, Reads.val_read, Reads.val_pure, Nat.add_zero,
      hm hv hlen p hv] at h3
    exact ((within_logAction hload (hm hv hlen)).1 h3.2).lt
  · rintro ⟨hv, hlen, hnext⟩
    refine ⟨(inBounds_iff hload hv).2 (by omega), (inBounds_iff hload hv).2 (by omega),
      fun hlog => ?_⟩
    simp only [insnAt, wordAt, Reads.val_bind, Reads.val_read, Reads.val_pure, Nat.add_zero,
      Reads.within_bind, Reads.within_read, Reads.within_pure, and_true, hm hv hlen p hv]
    exact ⟨inBounds_zero hload hv, (within_logAction hload (hm hv hlen)).2 (hv.next (hnext hlog))⟩

/-! ### One round -/

/-- What holds between the rounds. -/
structure Inv (C : Chain) (w : RulePtr → ℕ → BitVec 32) (s : Chk Δ) : Prop where
  intact : Intact C w s
  pos : s.pc = .inner → 0 < s.l → s.l = (C.rule s.f).cmdLen.toNat - s.cmd ∧
    (Visited C w s.f s.cmd ∨ s.cmd = (C.rule s.f).actOfs.toNat)
  panic : s.pc ≠ .panic

/-- The switch stays within the instruction exactly under the conditions on it, except for the
jump. -/
theorem within_exec_iff (hw : Intact C w s) (hv : Visited C w s.f s.cmd)
    (hc : c = .ofWord (s.words s.f s.cmd)) (ht : t.words = s.words ∧ t.f = s.f ∧ t.cmd = s.cmd) :
    Reads.Within (InBounds C w) s (exec E k C c t) ↔
      (c.opcode = some .ip6SrcMask → MaskOk k c s k.fId.srcIp6) ∧
      (c.opcode = some .ip6DstMask → MaskOk k c s k.fId.dstIp6) ∧
      (c.opcode = some .log → E.fwVerbose = true → LogOk C w s) := by
  obtain ⟨x, hx, -, -⟩ := hload.fits hv
  rw [← hw _ _ hv, ← hc] at hx
  have hlen : c.fLen = lenAt (w s.f) s.cmd := by rw [hc, hw _ _ hv, lenAt]
  have hP : ∀ i, InBounds C w (.word s.f s.cmd i) ↔ i < c.fLen := fun i => by
    rw [inBounds_iff hload hv, hlen]
  have hpos := fLen_pos_of_checkInsn hx
  by_cases hsp : c.Special
  · rcases hsp with hop | hop | hop
    · have hlog : LogOk C w t ↔ LogOk C w s := by
        rw [LogOk, LogOk, ht.1, ht.2.1]
      have hw' : Intact C w t := by
        intro g q hq
        rw [ht.1]
        exact hw g q hq
      simp only [exec, hop, Reads.within_bind, Reads.within_pure, and_true,
        within_ipfwLog hload hw', hlog]
      simp
    · simp only [exec, hop, tests, ipv6Test, Reads.within_bind, Reads.within_pure, and_true,
        Reads.within_ite, within_mask6Loop_rounds hP hpos]
      simp [MaskOk]
    · simp only [exec, hop, tests, ipv6Test, Reads.within_bind, Reads.within_pure, and_true,
        Reads.within_ite, within_mask6Loop_rounds hP hpos]
      simp [MaskOk]
  · have hno : ¬ c.opcode = some .log ∧ ¬ c.opcode = some .ip6SrcMask ∧
        ¬ c.opcode = some .ip6DstMask := by
      refine ⟨fun h => hsp (.inl h), fun h => hsp (.inr (.inl h)), fun h => hsp (.inr (.inr h))⟩
    refine iff_of_true ((within_exec hx hsp ht.2.1 ht.2.2).mono ?_)
      ⟨fun h => absurd h hno.2.1, fun h => absurd h hno.2.2, fun h => absurd h hno.1⟩
    rintro (⟨f, p, i⟩ | i) hi
    · obtain ⟨rfl, rfl, hi⟩ := hi
      exact (hP i).2 hi
    · trivial

omit hload in
/-- The conditions on the jump do not depend on how the instruction was fetched. -/
theorem finds_congr {n : ℕ} {m : Bool} :
    Finds E k c { s with cmdlen := n, matched := m } g ↔ Finds E k c s g := by
  rw [Finds, Finds, lookupAck_val (k := k) (s := s)]
  rfl

/-- **The accesses of a round.** They are within the instructions of the rules exactly if the
conditions on the instruction hold. -/
theorem within_step_iff (hs : Inv C w s) :
    Reads.Within (InBounds C w) s (step E k C s) ↔ StepOk E k C w s := by
  unfold StepOk step
  cases hpc : s.pc with
  | outer => simp
  | exit => simp
  | panic => simp
  | inner =>
    simp only [true_imp_iff]
    split_ifs with hl
    · simp only [hl, true_imp_iff]
      obtain ⟨-, hpos⟩ := hs.pos hpc hl
      have hhead : InBounds C w (.word s.f s.cmd 0) ↔ Visited C w s.f s.cmd :=
        ⟨fun h => h.1, fun h => inBounds_zero hload h⟩
      have hact : (s.cmd = (C.rule s.f).actOfs.toNat → Visited C w s.f s.cmd) ↔
          Visited C w s.f s.cmd :=
        ⟨fun h => hpos.elim id h, fun h _ => h⟩
      rw [hact]
      simp only [body, insnAt, wordAt, Reads.within_bind, Reads.within_read, Reads.within_pure,
        Reads.val_bind, Reads.val_read, Reads.val_pure, Nat.add_zero, and_true, hhead]
      refine and_congr_right fun hv => ?_
      by_cases hskip : s.skipOr = true
      · simp [hskip]
      · rw [if_neg hskip, Reads.within_bind]
        set c := Insn.ofWord (s.words s.f s.cmd) with hc
        set t : Chk Δ := { s with cmdlen := c.fLen, matched := false } with ht
        rw [within_exec_iff (t := t) hload hs.intact hv hc ⟨rfl, rfl, rfl⟩]
        have hno : s.skipOr = false := by simpa using hskip
        rw [hno]
        simp only [true_imp_iff]
        -- the epilogue looks at the same instruction, or at the one that the jump leads to
        have hepi : ∀ u : Chk Δ, Reads.Within (InBounds C w) s (epilogue u) ↔
            Visited C w u.f u.cmd := by
          intro u
          simp only [epilogue, insnAt, wordAt, Reads.within_bind, Reads.within_read,
            Reads.within_pure, and_true]
          exact ⟨fun h => h.1, fun h => inBounds_zero hload h⟩
        constructor
        · rintro ⟨⟨h1, h2, h3⟩, hrest⟩
          refine ⟨h1, h2, h3, fun g hg => ?_⟩
          obtain ⟨u, hu, hgo⟩ := exec_of_finds (C := C) (z := s) (finds_congr.2 hg)
          rw [hu] at hrest
          have := (hepi u).1 hrest
          rwa [hgo.f, hgo.cmd] at this
        · rintro ⟨h1, h2, h3, h4⟩
          refine ⟨⟨h1, h2, h3⟩, ?_⟩
          have hout := exec_outcome (E := E) (k := k) (C := C) (c := c) (s := t) (z := s)
          generalize (exec E k C c t).val s = r at hout ⊢
          cases hout with
          | stays hst =>
            refine (hepi _).2 ?_
            rw [hst.f, hst.cmd]
            exact hv
          | jump hfinds hgo =>
            refine (hepi _).2 ?_
            rw [hgo.f, hgo.cmd]
            exact h4 _ (finds_congr.1 hfinds)
          | skipto => exact Reads.within_pure _
          | panic => exact Reads.within_pure _
    · simp [hl]

omit hload in
/-- Leaving a rule leads to the next one or to the end. -/
theorem leave_inv (hw : Intact C w s) : Inv C w s.leave := by
  unfold Chk.leave
  split_ifs
  · exact ⟨hw, nofun, nofun⟩
  · exact ⟨hw, nofun, nofun⟩

omit hload in
/-- Going on leads to the next instruction of the rule, unless the rule is at its end. -/
theorem advance_inv (hw : Intact C w s) (hpc : s.pc ≠ .panic)
    (hpos : 0 < s.l - s.cmdlen → s.l = (C.rule s.f).cmdLen.toNat - s.cmd ∧
      (s.cmdlen = 0 ∧ (Visited C w s.f s.cmd ∨ s.cmd = (C.rule s.f).actOfs.toNat) ∨
        s.cmdlen = lenAt (w s.f) s.cmd ∧ Visited C w s.f s.cmd)) : Inv C w s.advance := by
  refine ⟨hw, fun _ hl => ?_, hpc⟩
  obtain ⟨heq, h⟩ := hpos hl
  have hl : 0 < s.l - s.cmdlen := hl
  refine ⟨?_, ?_⟩
  · change s.l - (s.cmdlen : ℤ) = (C.rule s.f).cmdLen.toNat - ((s.cmd + s.cmdlen : ℕ) : ℤ)
    omega
  · change Visited C w s.f (s.cmd + s.cmdlen) ∨ s.cmd + s.cmdlen = (C.rule s.f).actOfs.toNat
    rcases h with ⟨h0, h⟩ | ⟨h0, h⟩
    · rwa [h0, Nat.add_zero]
    · rw [h0]
      exact .inl (h.next (by omega))

omit hload in
/-- The end of the body keeps the position, goes on, or leaves the rule. -/
theorem close_inv (hw : Intact C w s) (hpc : s.pc ≠ .panic)
    (hpos : 0 < s.l - s.cmdlen → s.l = (C.rule s.f).cmdLen.toNat - s.cmd ∧
      (s.cmdlen = 0 ∧ (Visited C w s.f s.cmd ∨ s.cmd = (C.rule s.f).actOfs.toNat) ∨
        s.cmdlen = lenAt (w s.f) s.cmd ∧ Visited C w s.f s.cmd)) : Inv C w (s.close c) := by
  have hadv : ∀ m o, Inv C w { s with matched := m, skipOr := o }.advance :=
    fun m o => advance_inv hw hpc hpos
  unfold Chk.close
  dsimp only
  generalize (if c.fNot = true then !s.matched else s.matched) = m
  split_ifs
  · exact hadv _ _
  · exact hadv _ _
  · exact hadv _ _
  · exact leave_inv hw

/-- An accepted `O_NAT` has four words. -/
theorem lenAt_of_nat (hv : Visited C w f p) (hop : (Insn.ofWord (w f p)).opcode = some .nat) :
    lenAt (w f) p = 4 := by
  obtain ⟨x, hx, -, -⟩ := hload.fits hv
  unfold checkInsn at hx
  rw [hop] at hx
  simp only [require_bind, beq_iff_eq] at hx
  exact hx.2.1

/-- What an instruction writes is no header. -/
theorem Stays.intact (h : Stays E C c s t) (hw : Intact C w s) (hv : Visited C w s.f s.cmd)
    (hc : c = .ofWord (s.words s.f s.cmd))
    (hlog : c.opcode = some .log → E.fwVerbose = true → Visited C w s.f (C.rule s.f).actOfs.toNat ∧
      3 ≤ lenAt (w s.f) (C.rule s.f).actOfs.toNat) : Intact C w t := by
  intro g q hq
  rcases h.words g q with heq | ⟨rfl, ⟨hop, hverb, rfl⟩ | ⟨hop, hq'⟩⟩
  · rw [heq, hw g q hq]
  · obtain ⟨hact, hlen⟩ := hlog hop hverb
    exact absurd hq (not_visited_of_lt hact (by omega) (by omega))
  · have hlen : lenAt (w s.f) s.cmd = 4 := by
      rw [hc, hw _ _ hv] at hop
      exact lenAt_of_nat hload hv hop
    exact absurd hq (not_visited_of_lt hv (by omega) (by omega))

/-- One round keeps the invariant if `ACTION_PTR` is an instruction where the interpreter is there, and
has room for an `O_LOG` where one is used. -/
theorem step_inv_of (hs : Inv C w s) (hok : s.pc = .inner → 0 < s.l →
      (s.cmd = (C.rule s.f).actOfs.toNat → Visited C w s.f s.cmd) ∧
        (s.skipOr = false → (Insn.ofWord (s.words s.f s.cmd)).opcode = some .log →
          E.fwVerbose = true → Visited C w s.f (C.rule s.f).actOfs.toNat ∧
            3 ≤ lenAt (w s.f) (C.rule s.f).actOfs.toNat)) :
    Inv C w ((step E k C s).val s) := by
  cases hpc : s.pc with
  | exit =>
    have hstep : (step E k C s).val s = s := by simp only [step, hpc, Reads.val_pure]
    rwa [hstep]
  | panic =>
    have hstep : (step E k C s).val s = s := by simp only [step, hpc, Reads.val_pure]
    rwa [hstep]
  | outer =>
    have hstep : (step E k C s).val s = enter E C s := by simp only [step, hpc, Reads.val_pure]
    rw [hstep, enter]
    dsimp only
    split_ifs
    · exact ⟨hs.intact, fun h => absurd (hpc.symm.trans h) (by simp), hs.panic⟩
    · exact ⟨hs.intact, fun _ _ => ⟨(Int.sub_zero _).symm, .inl (hload.visited_zero _)⟩, by simp⟩
    · exact ⟨hs.intact, by simp, by simp⟩
  | inner =>
    by_cases hl : 0 < s.l
    · obtain ⟨heq, hpos⟩ := hs.pos hpc hl
      obtain ⟨hact, hinsn⟩ := hok hpc hl
      have hv : Visited C w s.f s.cmd := hpos.elim id hact
      set c := Insn.ofWord (s.words s.f s.cmd) with hc
      have hlen : c.fLen = lenAt (w s.f) s.cmd := by rw [hc, hs.intact _ _ hv, lenAt]
      cases hskip : s.skipOr with
      | true =>
        rw [step_skip hpc hl hskip rfl]
        split_ifs
        · exact advance_inv hs.intact (by simp [hpc]) fun _ => ⟨heq, .inr ⟨hlen, hv⟩⟩
        · exact advance_inv hs.intact (by simp [hpc]) fun _ => ⟨heq, .inr ⟨hlen, hv⟩⟩
      | false =>
        have hok := hinsn hskip
        set t : Chk Δ := { s with cmdlen := c.fLen, matched := false } with ht
        have hout := exec_outcome (E := E) (k := k) (C := C) (c := c) (s := t) (z := s)
        generalize hr : (exec E k C c t).val s = r at hout
        cases hout with
        | @stays u hst =>
          rw [step_brk hpc hl hskip rfl hr, epilogue_val]
          have hu : Intact C w u :=
            hst.intact hload (s := t) hs.intact hv hc (fun h h' => hok h h')
          refine close_inv hu (by rw [hst.pc]; simp [ht, hpc]) fun hpos' => ?_
          have hl' : u.l = t.l := by
            rcases hst.l with h | h
            · exact h
            · rw [h] at hpos'
              omega
          refine ⟨?_, .inr ⟨?_, ?_⟩⟩
          · rw [hl', hst.f, hst.cmd]
            exact heq
          · rw [hst.cmdlen, hst.f, hst.cmd]
            exact hlen
          · rw [hst.f, hst.cmd]
            exact hv
        | @jump u g hfinds hgo =>
          rw [step_brk hpc hl hskip rfl hr, epilogue_val]
          refine close_inv (fun g q hq => by rw [hgo.words]; exact hs.intact g q hq)
            (by rw [hgo.pc]; simp [ht, hpc]) fun _ => ⟨?_, .inl ⟨hgo.cmdlen, .inr ?_⟩⟩
          · rw [hgo.l, hgo.f, hgo.cmd]
          · rw [hgo.f, hgo.cmd]
        | @skipto u g hgo =>
          rw [step_cont hpc hl hskip rfl hr]
          refine advance_inv (fun g q hq => by rw [hgo.words]; exact hs.intact g q hq)
            (by rw [hgo.pc]; simp [ht, hpc]) fun _ => ⟨?_, .inl ⟨hgo.cmdlen, .inl ?_⟩⟩
          · rw [hgo.l, hgo.f, hgo.cmd]
          · rw [hgo.f, hgo.cmd]
            exact hload.visited_zero g
        | panic hno =>
          obtain ⟨x, hx, -, -⟩ := hload.fits hv
          rw [← hs.intact _ _ hv, ← hc] at hx
          exact absurd hx (hno K x)
    · have hstep : (step E k C s).val s = s.leave := by
        simp only [step, hpc, hl, if_false, Reads.val_pure]
      rw [hstep]
      exact leave_inv hs.intact

/-- **One round.** Under the conditions on the instruction, the invariant is kept. -/
theorem step_inv (hs : Inv C w s) (hok : StepOk E k C w s) :
    Inv C w ((step E k C s).val s) :=
  step_inv_of hload hs fun hpc hl =>
    ⟨(hok hpc hl).1, fun hskip hop hverb =>
      have hlog := ((hok hpc hl).2 hskip).log hop hverb
      ⟨hlog.1, hlog.2.1⟩⟩

end Ipfw
