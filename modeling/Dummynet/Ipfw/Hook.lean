import Dummynet.Ipfw.Terminate

/-!
# The packet hook

`ipfw_check_hook` evaluates the rules for a packet, hands it to another module, and evaluates the rules
after the matching one if it gets the packet back. The mark of the matching rule is in the arguments of
`ipfw_chk`, or in a tag of the packet when dummynet hands it back.

## Main definitions

* `hookSwitch`: what the hook does after `ipfw_chk`.
* `Traverses`: the calls of `ipfw_chk` for one packet.

## Main results

* `Traverses.hook_progress`: each call starts after the rule matched before, if the lookup of a dynamic rule
  does not go back.
-/

namespace Ipfw

/-- `EACCES`. -/
def eacces : ℕ := 13

/-- `MTAG_IPFW_RULE`. -/
def mtagIpfwRule : BitVec 32 := 1262273568#32

/-- A packet in the hook: what the calls of `ipfw_chk` have left, with the arguments, and the data of the
tag that dummynet has put on the packet. -/
structure Hook (Δ : Type) where
  chk : Chk Δ
  tagRef : Option RuleRef
  tagInfo : BitVec 32

/-- What the other modules do with a packet, and whether `ipfw_chk` leaves one. -/
structure Outer where
  packet : Bool
  forwarded : Bool
  dnLoaded : Bool
  dnError : ℕ
  dnBack : Bool
  divertLoaded : Bool
  divertError : ℕ
  ngLoaded : Bool
  ngError : ℕ
  ngBack : Bool

/-- The hook goes round, or it returns an error and the packet. -/
inductive After
  | again
  | ret (error : ℕ) (packet : Bool)
  deriving DecidableEq

/-- The end of the hook, where a packet with an error is freed. -/
def hookRet (error : ℕ) (packet : Bool) : After := .ret error (decide (error = 0) && packet)

/-- The switch of `ipfw_check_hook` on the result of `ipfw_chk`. -/
def hookSwitch (O : Outer) (k : Hdr) (onePass : Bool) {Δ : Type} (u : Chk Δ) : After :=
  match u.retval with
  | .pass => hookRet (if u.nextHop.isNone ∨ O.forwarded then 0 else eacces) O.packet
  | .deny => hookRet eacces O.packet
  | .dummynet =>
    let v := (k.byte 0).extractLsb' 4 4
    if !O.dnLoaded then hookRet eacces O.packet
    else if v = 4 ∨ v = 6 then (if O.dnBack then .again else hookRet O.dnError false)
    else hookRet eacces O.packet
  | .tee => if !O.divertLoaded then hookRet eacces O.packet else .again
  | .divert => hookRet (if !O.divertLoaded then eacces else O.divertError) false
  | .ngtee => if !O.ngLoaded then hookRet eacces O.packet else .again
  | .netgraph => if !O.ngLoaded then hookRet eacces O.packet else hookRet O.ngError O.ngBack
  | .nat => if onePass then hookRet 0 O.packet else .again
  | .reass => .again

variable {Δ : Type}

/-- The tag of dummynet is the first one of the packet. -/
def Hook.tagged (h : Hook Δ) : Bool := (mTagLocate h.chk.tags mtagIpfwRule 0).isSome

/-- The arguments at the head of the loop, where the tag is extracted. -/
def Hook.extract (h : Hook Δ) : Chk Δ :=
  match mTagLocate h.chk.tags mtagIpfwRule 0 with
  | none => h.chk
  | some tag =>
    { h.chk with ref := h.tagRef, info := h.tagInfo, tags := mTagDelete h.chk.tags tag }

/-- The packet passes without a call of `ipfw_chk`. -/
def Hook.onePass (h : Hook Δ) : Bool := h.tagged && decide (h.tagInfo &&& ipfwOnepass ≠ 0)

/-- The start of `ipfw_chk`. -/
def Hook.start (h : Hook Δ) (C : Chain) (words : RulePtr → ℕ → BitVec 32)
    (cache : RulePtr → BitVec 32 × ℕ) (dyn : Δ) : Chk Δ :=
  { h.extract with
    pc := .outer
    words := words
    cache := cache
    fPos := startPos C h.extract.ref
    retval := .pass
    done := false
    dynDir := .unknown
    q := none
    dyn := dyn }

/-- The packet after a call, when the hook goes round. Dummynet has put a tag on it. -/
def Hook.next (h : Hook Δ) (u : Chk Δ) : Hook Δ :=
  if u.retval = .dummynet then
    ⟨{ u with tags := mTagAlloc mtagIpfwRule 0 :: u.tags }, u.ref, u.info &&& ipfwOnepass⟩
  else { h with chk := u }

/-- A call of `ipfw_chk`, in which `E` and `dyn` are what it finds. Between the calls other packets may
have been evaluated. -/
structure Call (K : Kernel) (C : Chain) (h : Hook Δ) (σ : Sys) (E : Env Δ) : Prop where
  reach : σ.Reach K loopCond
  chain : σ.rs.chain = C
  sound : E.Sound C
  setDisable : E.setDisable = σ.rs.setDisable
  onePass : h.onePass = false

/-- A condition on a call that starts with `z` and ends after `n` rounds, with the instructions of the
rules. -/
abbrev CallCond (Δ : Type) : Type :=
  Env Δ → Hdr → Chain → (RulePtr → ℕ → BitVec 32) → Chk Δ → ℕ → Prop

/-- The packet is in the loop, and the rules at the positions `ps` have matched, the last one first. -/
inductive Traverses (K : Kernel) (C : Chain) (P : CallCond Δ) : Hook Δ → List ℕ → Prop
  | start {h : Hook Δ} {σ : Sys} : σ.Reach K loopCond → σ.rs.chain = C → h.chk.ref = none →
      (∀ m, h.tagRef = some m → ∃ r, (m, r) ∈ σ.marks) → Traverses K C P h []
  | call {h : Hook Δ} {ps : List ℕ} {σ : Sys} {E : Env Δ} {k : Hdr} {dyn : Δ} {n : ℕ} {O : Outer} :
      Traverses K C P h ps → Call K C h σ E →
      P E k C σ.rs.words (h.start C σ.rs.words σ.rs.cache dyn) n →
      (run E k C n (h.start C σ.rs.words σ.rs.cache dyn)).pc = .exit →
      hookSwitch O k E.fwOnePass (run E k C n (h.start C σ.rs.words σ.rs.cache dyn)) = .again →
      Traverses K C P (h.next (run E k C n (h.start C σ.rs.words σ.rs.cache dyn)))
        ((run E k C n (h.start C σ.rs.words σ.rs.cache dyn)).fPos :: ps)

/-- The rounds of a call meet `LoopOk`, and a dynamic rule that is found does not lead to a rule before
the start. -/
structure Ahead (E : Env Δ) (k : Hdr) (C : Chain) (words : RulePtr → ℕ → BitVec 32) (z : Chk Δ) :
    Prop where
  loop : ∀ i, loopCond E k C words (run E k C i z)
  jump : ∀ i, (run E k C i z).pc = .inner → 0 < (run E k C i z).l → (run E k C i z).skipOr = false →
    ∀ g, Finds E k (.ofWord ((run E k C i z).words (run E k C i z).f (run E k C i z).cmd))
      (run E k C i z) g → z.fPos ≤ ipfwFindRule C (C.rule g).rulenum.toNat (C.rule g).id

/-- The condition on a call that goes round. A packet that another module than dummynet hands back has no
tag of dummynet, which the hook would use again. -/
structure Forward (E : Env Δ) (k : Hdr) (C : Chain) (words : RulePtr → ℕ → BitVec 32) (z : Chk Δ)
    (n : ℕ) : Prop extends Ahead E k C words z where
  tag : (run E k C n z).retval ≠ .dummynet → mTagLocate (run E k C n z).tags mtagIpfwRule 0 = none

/-- The calls for a packet: the positions of the matching rules go up, so that no rule matches twice and
there are fewer calls than rules; the next call starts after the last one, ends, and matches a later
rule; and the hook returns no packet with an error. -/
structure Progress (K : Kernel) (C : Chain) (h : Hook Δ) (ps : List ℕ) : Prop where
  decreasing : ps.Pairwise (· > ·)
  length : ps.length < C.nRules
  resume : ∀ p ∈ ps.head?, startPos C h.extract.ref = p + 1
  ends : ∀ (σ : Sys) (E : Env Δ) (k : Hdr) (dyn : Δ), Call K C h σ E →
    (∀ i, loopCond E k C σ.rs.words (run E k C i (h.start C σ.rs.words σ.rs.cache dyn))) →
    ∃ n, (run E k C n (h.start C σ.rs.words σ.rs.cache dyn)).pc = .exit
  last : ∀ (σ : Sys) (E : Env Δ) (k : Hdr) (dyn : Δ) (n : ℕ), Call K C h σ E →
    Ahead E k C σ.rs.words (h.start C σ.rs.words σ.rs.cache dyn) →
    (run E k C n (h.start C σ.rs.words σ.rs.cache dyn)).pc = .exit →
    ∀ p ∈ ps, p < (run E k C n (h.start C σ.rs.words σ.rs.cache dyn)).fPos
  result : ∀ (O : Outer) (k : Hdr) (onePass : Bool) (u : Chk Δ) (error : ℕ) (packet : Bool),
    hookSwitch O k onePass u = .ret error packet → error = 0 ∨ packet = false

variable {E : Env Δ} {k : Hdr} {C : Chain} {s t u z : Chk Δ} {c : Insn} {K : Kernel} {σ : Sys}
  {w : RulePtr → ℕ → BitVec 32} {d : RulePtr} {b n : ℕ} {h : Hook Δ} {dyn : Δ}

/-! ### The mark of the matching rule -/

/-- The switch goes on, passes or denies the packet, or gives it the mark of the rule. -/
def Decides (C : Chain) (s t : Chk Δ) : Prop :=
  t.done = s.done ∨ t.retval = .pass ∨ t.retval = .deny ∨ t.ref = (s.setMatch C).ref

theorem execUnreach6_decides : Decides C s (execUnreach6 k c t).2 := by
  unfold execUnreach6
  dsimp only
  split_ifs
  · exact .inr (.inr (.inl rfl))
  · exact .inr (.inr (.inl rfl))

theorem execNat_decides : Decides C s ((execNat E C c s).val z).2 := by
  rw [execNat, Reads.val_ite]
  split_ifs
  · exact .inr (.inr (.inl rfl))
  · simp only [execNatLoaded, Reads.val_bind, Reads.val_ite, Reads.val_pure]
    split_ifs
    · exact .inr (.inr (.inr rfl))
    · split
      · exact .inr (.inr (.inl rfl))
      · simp only [execNatFound, Reads.val_bind, Reads.val_ite, Reads.val_pure]
        split_ifs
        · exact .inr (.inr (.inr rfl))
        · exact .inr (.inr (.inr rfl))

theorem execState_decides (hno : ∀ g, ¬ Finds E k c s g)
    (hc : c.opcode = some .probeState ∨ c.opcode = some .checkState) :
    Decides C s ((execState E k C c s).val z).2 := by
  have hack : (lookupAck k).val z = (lookupAck k).val s := lookupAck_val
  simp only [execState, lookupDyn, Reads.val_bind, Reads.val_ite, Reads.val_pure, hack]
  split_ifs with hdir hop hop
  · cases hf : (E.lookupDynRule (s.flowId k) ((lookupAck k).val s) s.dyn).1 with
    | some g => exact absurd ⟨hc, hdir, hf⟩ (hno g)
    | none => exact .inl rfl
  · cases hf : (E.lookupDynRule (s.flowId k) ((lookupAck k).val s) s.dyn).1 with
    | some g => exact absurd ⟨hc, hdir, hf⟩ (hno g)
    | none => exact .inl rfl
  · exact .inl rfl
  · exact .inl rfl

theorem exec_decides (hskipto : c.opcode ≠ some .skipto) (hno : ∀ g, ¬ Finds E k c s g) :
    Decides C s ((exec E k C c s).val z).2 := by
  unfold exec
  split
  all_goals
    rename_i heq
    first
    | exact .inl rfl
    | exact .inr (.inl rfl)
    | exact .inr (.inr (.inl rfl))
    | exact .inr (.inr (.inr rfl))
    | skip
  case h_18 | h_19 =>
    rw [Reads.val_ite]
    split_ifs <;> exact .inl rfl
  case h_46 =>
    rw [execAltq, Reads.val_ite]
    split_ifs <;> exact .inl rfl
  case h_47 =>
    simp only [ipfwLog, Reads.val_ite, Reads.val_bind, Reads.val_pure, wordAt, Reads.val_read]
    split_ifs <;> exact .inl rfl
  case h_61 =>
    rw [Reads.val_pure, execTag]
    split <;> split_ifs <;> exact .inl rfl
  case h_64 | h_65 =>
    simp only [execInstall, Reads.val_bind, Reads.val_pure]
    generalize E.installState s.f _ _ (s.flowId k) s.tablearg s.dyn = r
    obtain ⟨fail, dyn⟩ := r
    cases fail
    · exact .inl rfl
    · exact .inr (.inr (.inl rfl))
  case h_66 => exact execState_decides hno (.inl heq)
  case h_67 => exact execState_decides hno (.inr heq)
  case h_71 | h_72 =>
    rw [Reads.val_pure, execDivert]
    split
    · exact .inl rfl
    · exact .inr (.inr (.inr rfl))
  case h_74 => exact absurd heq hskipto
  case h_78 =>
    simp only [execForwardIp, Reads.val_ite, Reads.val_bind, Reads.val_pure]
    split_ifs
    · exact .inl rfl
    all_goals exact .inr (.inl rfl)
  case h_82 => exact execNat_decides
  case h_83 =>
    simp only [execReass, Reads.val_ite, Reads.val_bind, Reads.val_pure]
    split_ifs
    · exact .inl rfl
    · exact .inr (.inr (.inr rfl))
    · exact .inr (.inr (.inl rfl))

/-- Nothing before the position `b` is evaluated, and a decision other than to pass or to deny the packet
gives it the mark of the matching rule, which is not the default rule. -/
structure Resumes (C : Chain) (d : RulePtr) (b : ℕ) (s : Chk Δ) : Prop where
  le : b ≤ s.fPos
  mark : s.done = true → s.retval = .pass ∨ s.retval = .deny ∨
    s.ref = some (C.mark s.fPos) ∧ C.at s.fPos ≠ d

theorem Resumes.close (hs : Resumes C d b u) (c : Insn) : Resumes C d b (u.close c) := by
  rcases close_cases c u with ⟨m, hcl⟩ | ⟨m, o, -, hcl⟩
  · rw [hcl]
    unfold Chk.leave
    split_ifs with hdone
    · exact ⟨hs.le, hs.mark⟩
    · exact ⟨hs.le.trans (Nat.le_succ _), fun h => absurd h hdone⟩
  · rw [hcl]
    exact ⟨hs.le, hs.mark⟩

section
variable (hC : C.Ready K w d)
include hC

/-- **One round**: nothing before the start is evaluated, if no dynamic rule leads there. -/
theorem Resumes.step (hr : Resumes C d b s) (hs : Walk C w d s)
    (hfwd : s.pc = .inner → 0 < s.l → s.skipOr = false →
      ∀ g, Finds E k (.ofWord (s.words s.f s.cmd)) s g →
        b ≤ ipfwFindRule C (C.rule g).rulenum.toNat (C.rule g).id) :
    Resumes C d b ((step E k C s).val s) := by
  cases hpc : s.pc with
  | exit =>
    have hstep : (Ipfw.step E k C s).val s = s := by simp only [Ipfw.step, hpc, Reads.val_pure]
    rw [hstep]
    exact hr
  | panic => exact absurd hpc hs.panic
  | outer =>
    have hstep : (Ipfw.step E k C s).val s = enter E C s := by
      simp only [Ipfw.step, hpc, Reads.val_pure]
    have hdone := (hs.outer hpc).2
    rw [hstep, enter, if_pos (hs.outer hpc).1]
    dsimp only
    split_ifs
    · exact ⟨hr.le.trans (Nat.le_succ _), fun h => absurd (hdone.symm.trans h) (by simp)⟩
    · exact ⟨hr.le, hr.mark⟩
  | inner =>
    by_cases hl : 0 < s.l
    · have hdone : s.done = false := by
        by_contra h
        have := hs.done hpc (by simpa using h)
        omega
      cases hskip : s.skipOr with
      | true =>
        rw [step_skip hpc hl hskip rfl]
        split_ifs
        · exact ⟨hr.le, hr.mark⟩
        · exact ⟨hr.le, hr.mark⟩
      | false =>
        set c := Insn.ofWord (s.words s.f s.cmd) with hc
        set t : Chk Δ := { s with cmdlen := c.fLen, matched := false } with ht
        by_cases hd : s.f = d
        · obtain ⟨v, hv, -, -, hpos, -, -, -, -, hret⟩ :=
            step_default (E := E) (k := k) hC hs hpc hd
          rw [hv]
          exact ⟨hpos ▸ hr.le, fun _ => hret.imp_right .inl⟩
        by_cases hop : c.opcode = some .skipto
        · obtain ⟨hlt, -⟩ := execSkipto_forward (E := E) (k := k) hC hs hpc hl hd hc.symm hop ht
          have hsame := (execSkipto_same (E := E) (k := k) (C := C) (c := c) (t := t)).2.2.1
          have he : (exec E k C c t).val s = (.cont, (execSkipto E k C c t).2) := by
            simp only [exec, hop]
            rfl
          rw [step_cont hpc hl hskip rfl he]
          exact ⟨hr.le.trans hlt.le,
            fun h => absurd (hdone.symm.trans (hsame.symm.trans h)) (by simp)⟩
        by_cases hfinds : ∃ g, Finds E k c s g
        · obtain ⟨g, hg⟩ := hfinds
          obtain ⟨u, he, hu⟩ := exec_jumps (C := C) (z := s)
            (finds_congr (s := s) (n := c.fLen) (m := false).2 hg)
          rw [step_brk hpc hl hskip rfl he, epilogue_val]
          refine Resumes.close ⟨?_, fun h => ?_⟩ _
          · rw [hu.fPos]
            exact hfwd hpc hl hskip g hg
          · exact absurd (hdone.symm.trans (hu.done.symm.trans h)) (by simp)
        · have hno : ∀ g, ¬ Finds E k c t g := fun g h => hfinds ⟨g, finds_congr.1 h⟩
          have hleaves := exec_leaves (C := C) (z := s) hop hno
          have hdec := exec_decides (C := C) (z := s) hop hno
          obtain ⟨ctl, u, he⟩ : ∃ ctl u, (exec E k C c t).val s = (ctl, u) := ⟨_, _, rfl⟩
          rw [he] at hleaves hdec
          obtain ⟨hctl, hfr⟩ := hleaves
          have hu : Resumes C d b u := by
            refine ⟨hfr.fPos ▸ hr.le, fun h => ?_⟩
            rcases hdec with hsame | hpass | hdeny | href
            · exact absurd (hdone.symm.trans (hsame.symm.trans h)) (by simp)
            · exact .inl hpass
            · exact .inr (.inl hdeny)
            · refine .inr (.inr ⟨?_, ?_⟩)
              · rw [href, hfr.fPos]
                rfl
              · rw [hfr.fPos]
                change C.at s.fPos ≠ d
                rw [← (hs.here hpc).2]
                exact hd
          cases ctl with
          | cont => exact absurd rfl hctl
          | brk =>
            rw [step_brk hpc hl hskip rfl he, epilogue_val]
            exact hu.close _
          | panic =>
            rw [step_inner hpc hl, body, Reads.val_bind, val_insnAt,
              if_neg (show ¬ s.skipOr = true by simp [hskip]), Reads.val_bind, ← hc, he]
            exact ⟨hu.le, hu.mark⟩
    · have hstep : (Ipfw.step E k C s).val s = s.leave := by
        simp only [Ipfw.step, hpc, hl, if_false, Reads.val_pure]
      rw [hstep]
      unfold Chk.leave
      split_ifs with hdone
      · exact ⟨hr.le, hr.mark⟩
      · exact ⟨hr.le.trans (Nat.le_succ _), fun h => absurd h hdone⟩

end

/-! ### The calls -/

/-- The start of a call, for a packet whose mark is in order. -/
theorem Call.walk (hc : Call K C h σ E) (hσ : σ.Good K w) (hpos : startPos C h.extract.ref < C.nRules)
    (dyn : Δ) : E.Fits C ∧ Walk C w σ.rs.defaultRule (h.start C σ.rs.words σ.rs.cache dyn) := by
  obtain ⟨-, rfl, hsound, hset, -⟩ := hc
  exact ⟨⟨hsound, by rw [hset]; exact hσ.rs.reserved⟩, hσ.rs.words, hσ.rs.cache, nofun, nofun,
    fun _ => ⟨hpos, rfl⟩, nofun, nofun, nofun, nofun⟩

theorem Call.ready (hc : Call K C h σ E) (hσ : σ.Good K w) : C.Ready K w σ.rs.defaultRule := by
  have hr := hσ.rs.ready
  rwa [hc.chain] at hr

/-- What a call leaves. -/
theorem Call.resumes (hc : Call K C h σ E) (hσ : σ.Good K w)
    (hpos : startPos C h.extract.ref < C.nRules) {dyn : Δ}
    (hf : Ahead E k C σ.rs.words (h.start C σ.rs.words σ.rs.cache dyn)) (i : ℕ) :
    Walk C w σ.rs.defaultRule (run E k C i (h.start C σ.rs.words σ.rs.cache dyn)) ∧
      Resumes C σ.rs.defaultRule (startPos C h.extract.ref)
        (run E k C i (h.start C σ.rs.words σ.rs.cache dyn)) := by
  obtain ⟨hE, hz⟩ := hc.walk hσ hpos dyn
  have hwords : Unchanged C w σ.rs.words := by
    rw [← hc.chain]
    exact hσ.rs.words
  have hwalk : ∀ i, Walk C w σ.rs.defaultRule
      (run E k C i (h.start C σ.rs.words σ.rs.cache dyn)) :=
    fun i => walk_run (hc.ready hσ) hE hz fun j _ => (hf.loop j).of_unchanged hwords
  refine ⟨hwalk i, ?_⟩
  induction i with
  | zero => exact ⟨le_rfl, fun hdone => absurd hdone nofun⟩
  | succ i ih =>
    rw [run_succ']
    exact ih.step (hc.ready hσ) (hwalk i) (hf.jump i)

/-- The mark leads to the rule after the matching one. -/
theorem startPos_mark (i : ℕ) : startPos C (some (C.mark i)) = i + 1 := by
  unfold startPos Chain.mark
  dsimp only
  rw [if_neg (Nat.succ_ne_zero i), if_pos rfl]

theorem hookSwitch_again {O : Outer} {onePass : Bool} (ha : hookSwitch O k onePass u = .again) :
    u.retval ≠ .pass ∧ u.retval ≠ .deny := by
  unfold hookSwitch hookRet at ha
  constructor <;> (intro hv; rw [hv] at ha; cases ha)

theorem hookSwitch_ret {O : Outer} {onePass : Bool} {error : ℕ} {packet : Bool}
    (hr : hookSwitch O k onePass u = .ret error packet) : error = 0 ∨ packet = false := by
  have hret : ∀ {e : ℕ} {m : Bool}, hookRet e m = .ret error packet → error = 0 ∨ packet = false := by
    intro e m h
    obtain ⟨rfl, rfl⟩ := After.ret.inj h
    by_cases he : e = 0
    · exact .inl he
    · exact .inr (by rw [decide_eq_false he, Bool.false_and])
  unfold hookSwitch at hr
  dsimp only at hr
  split at hr
  · exact hret hr
  · exact hret hr
  · split_ifs at hr
    · exact hret hr
    · exact hret hr
    · exact hret hr
  · split_ifs at hr
    exact hret hr
  · exact hret hr
  · split_ifs at hr
    exact hret hr
  · split_ifs at hr
    · exact hret hr
    · exact hret hr
  · split_ifs at hr
    exact hret hr
  · cases hr

/-- The mark of the packet when the hook goes round. -/
theorem Hook.next_extract (htag : u.retval ≠ .dummynet → mTagLocate u.tags mtagIpfwRule 0 = none) :
    (h.next u).extract.ref = u.ref := by
  unfold Hook.next
  split_ifs with hv
  · unfold Hook.extract
    simp [mTagLocate, mTagAlloc]
  · unfold Hook.extract
    dsimp only
    rw [htag hv]

/-- The rules that have matched are before the start of the next call. -/
theorem lt_of_pairwise {ps : List ℕ} (hpair : ps.Pairwise (· > ·)) (hhead : ∀ p ∈ ps.head?, b = p + 1) :
    ∀ p ∈ ps, p < b := by
  cases ps with
  | nil => exact fun p hp => absurd hp List.not_mem_nil
  | cons p ps =>
    intro q hq
    have hp := hhead p rfl
    rcases List.mem_cons.1 hq with rfl | hq
    · omega
    · have := (List.pairwise_cons.1 hpair).1 q hq
      omega

theorem Traverses.inv {ps : List ℕ} (ht : Traverses K C Forward h ps) :
    ps.Pairwise (· > ·) ∧ ps.length ≤ startPos C h.extract.ref ∧
      startPos C h.extract.ref < C.nRules ∧ ∀ p ∈ ps.head?, startPos C h.extract.ref = p + 1 := by
  induction ht with
  | @start h σ hσ hC href hmark =>
    obtain ⟨w, hσ⟩ := hσ.good
    have hr : ∀ m, h.extract.ref = some m → ∃ r, (m, r) ∈ σ.marks := by
      intro m hm
      unfold Hook.extract at hm
      split at hm
      · exact absurd (href.symm.trans hm) nofun
      · exact hmark m hm
    refine ⟨.nil, Nat.zero_le _, ?_, nofun⟩
    cases hm : h.extract.ref with
    | none =>
      have hpos := hσ.rs.ready.nRules_pos
      rwa [hC] at hpos
    | some m =>
      obtain ⟨r, hr⟩ := hr m hm
      have hlt := (hσ.rs.resumesAfter (hσ.marks m r hr)).lt
      rwa [hC] at hlt
  | @call h ps σ E k dyn n O ht hc hf hexit hagain ih =>
    obtain ⟨hpair, hlen, hpos, hhead⟩ := ih
    obtain ⟨w, hσ⟩ := hc.reach.good
    obtain ⟨hwalk, hres⟩ := hc.resumes hσ hpos hf.toAhead n
    have hnext := Hook.next_extract (h := h) hf.tag
    generalize run E k C n (h.start C σ.rs.words σ.rs.cache dyn) = u at *
    obtain ⟨hpass, hdeny⟩ := hookSwitch_again hagain
    obtain ⟨hdone, hlt, -⟩ := hwalk.exit hexit
    obtain ⟨href, hd⟩ := ((hres.mark hdone).resolve_left hpass).resolve_left hdeny
    have hstart : startPos C (h.next u).extract.ref = u.fPos + 1 := by
      rw [hnext, href, startPos_mark]
    have hle := hres.le
    rw [hstart]
    refine ⟨List.pairwise_cons.2 ⟨fun q hq => ?_, hpair⟩, ?_, (hc.ready hσ).succ_lt hlt hd, ?_⟩
    · exact (lt_of_pairwise hpair hhead q hq).trans_le hle
    · rw [List.length_cons]
      omega
    · rintro p hp
      obtain rfl := Option.some.inj hp
      rfl

/-- An IPv4 packet. -/
def ip4Hdr : Hdr := { (default : Hdr) with byte := fun i => if i = 0 then 0x45 else 0 }

/-- All modules are there, and dummynet hands packets back at once. -/
def handsBack : Outer := ⟨true, true, true, 0, true, true, 0, true, 0, false⟩

/-- Rule 100 hands packets to a pipe, with `keep-state`, and rule 200 is `check-state`. -/
def pipeRule : IpFw :=
  { (default : IpFw) with
    cmdLen := 3
    actOfs := 2
    rulenum := 100
    cmd := fun p =>
      if p = 0 then Opcode.probeState.word 1 0
      else if p = 1 then Opcode.keepState.word 1 0
      else Opcode.pipe.word 1 1 }

def pipeRules : Ruleset :=
  ((Ruleset.init false).step (.add pipeRule true true)).step
    (.add (actionRule 200 .checkState 0) true true)

theorem pipeRules_reach {P : RoundCond} : Sys.Reach K P ⟨pipeRules, ∅⟩ := by
  have h0 : RuleOp.Accepted K (.add pipeRule true true) := ⟨pipeRule, pipeRule.ruleSize, rfl⟩
  have h1 : RuleOp.Accepted K (.add (actionRule 200 .checkState 0) true true) :=
    ⟨actionRule 200 .checkState 0, (actionRule 200 .checkState 0).ruleSize, rfl⟩
  have hid : (1 : BitVec 32) ≤ 1 + 1 ∧ (1 + 1 : BitVec 32) ≤ 1 + 1 + 1 := by decide
  exact .next (.next (.init false) (.op _ h0 hid.1)) (.op _ h1 hid.2)

/-- The packet at the start of the hook. -/
def firstHook : Hook Unit := ⟨pipeRules.chk, none, 0⟩

theorem pipeRules_call {h : Hook Unit} {g : Option RulePtr} (hg : ∀ f, g = some f → f ∈ pipeRules.chain.map)
    (hone : h.onePass = false) :
    Call default pipeRules.chain h ⟨pipeRules, ∅⟩ (dynEnv g) :=
  ⟨pipeRules_reach, rfl, ⟨fun _ _ _ f hf => hg f hf, nofun⟩, rfl, hone⟩

theorem firstHook_traverses {P : CallCond Unit} : Traverses default pipeRules.chain P firstHook [] :=
  .start pipeRules_reach rfl rfl nofun

/-- A call on the rules, which finds the dynamic rule `g`. -/
abbrev pipeCall (g : Option RulePtr) (h : Hook Unit) (n : ℕ) : Chk Unit :=
  run (dynEnv g) ip4Hdr pipeRules.chain n (h.start pipeRules.chain pipeRules.words pipeRules.cache ())

/-- The first call does not find a dynamic rule, and meets the condition. -/
theorem firstCall_forward : Forward (dynEnv none) ip4Hdr pipeRules.chain pipeRules.words
    (firstHook.start pipeRules.chain pipeRules.words pipeRules.cache ()) 5 := by
  have hno : ∀ (s : Chk Unit) (c : Insn) (g : RulePtr), ¬ Finds (dynEnv none) ip4Hdr c s g :=
    fun _ _ _ hg => absurd hg.2.2 nofun
  have hexit : (pipeCall none firstHook 5).pc = .exit := by decide +kernel
  have hlog : ∀ i < 5, (Insn.ofWord ((pipeCall none firstHook i).words
      (pipeCall none firstHook i).f (pipeCall none firstHook i).cmd)).opcode ≠ some .log := by
    decide +kernel
  have hretval : (pipeCall none firstHook 5).retval = .dummynet := by decide +kernel
  refine ⟨⟨fun i => ⟨fun hpc _ _ hop => ?_, fun _ _ _ g hg => absurd hg (hno _ _ g)⟩,
    fun _ _ _ _ g hg => absurd hg (hno _ _ g)⟩, fun hv => absurd hretval hv⟩
  rcases Nat.lt_or_ge i 5 with hi | hi
  · exact absurd hop (hlog i hi)
  · exact absurd (hpc.symm.trans (run_of_exit hexit hi)) nofun

end Ipfw
