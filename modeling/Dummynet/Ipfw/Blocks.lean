import Dummynet.Ipfw.Walk
import Dummynet.Lib.OrBlocks

/-!
# The pattern of a rule

The instructions before the action of a rule are a conjunction of or-blocks. The inner loop of
`ipfw_chk` evaluates it in one pass, with the flag `skip_or`.

## Main definitions

* `Insns`: the instructions between two positions of a rule.
* `Insn.Holds`: the test of an instruction, inverted if `F_NOT` is set.
* `orTests`: the tests of some instructions, in the states in which it is their turn.
* `Comes`: the loop comes to an instruction, which it skips or not.
* `PatternMeaning`: what the instructions before the action mean.

## Main results

* `inside_step`: one instruction.
* `patternMeaning`: the loop comes to an instruction exactly if the blocks before it hold.
-/

namespace Ipfw

variable {Δ : Type} {E : Env Δ} {k : Hdr} {C : Chain} {s t u z : Chk Δ} {c : Insn} {K : Kernel}
  {w : RulePtr → ℕ → BitVec 32} {f : RulePtr} {e p q : ℕ} {ps : List ℕ} {n : ℕ} {b : Bool}

/-- The instructions from `p` up to `q` are at the positions `ps`. -/
inductive Insns (w : ℕ → BitVec 32) : ℕ → List ℕ → ℕ → Prop
  | nil {p : ℕ} : Insns w p [] p
  | cons {p q : ℕ} {ps : List ℕ} : Insns w (p + lenAt w p) ps q → Insns w p (p :: ps) q

/-- The instructions that keep state, or look for it. -/
def Insn.IsState (c : Insn) : Prop :=
  c.opcode = some .probeState ∨ c.opcode = some .keepState ∨ c.opcode = some .limit

/-- The test of the instruction `c` holds in the state `s`, after `F_NOT`. -/
def Insn.Holds (E : Env Δ) (k : Hdr) (C : Chain) (c : Insn) (s : Chk Δ) : Bool :=
  ((exec E k C c { s with cmdlen := c.fLen, matched := false }).val s).2.result c

/-- The tests of the instructions at the positions `ps`, from the state `s` on. -/
def orTests (E : Env Δ) (k : Hdr) (C : Chain) (w : ℕ → BitVec 32) : List ℕ → Chk Δ → List OrTest
  | [], _ => []
  | p :: ps, s =>
    ⟨(Insn.ofWord (w p)).fOr, (Insn.ofWord (w p)).Holds E k C s⟩ ::
      orTests E k C w ps ((step E k C s).val s)

/-- In `n` rounds the inner loop comes to the instruction at `q` of the rule `f`, and it skips the
instruction or not. -/
def Comes (E : Env Δ) (k : Hdr) (C : Chain) (f : RulePtr) (q n : ℕ) (skip : Bool) (s : Chk Δ) :
    Prop :=
  (∀ i ≤ n, (run E k C i s).pc = .inner) ∧ At f (C.rule f).cmdLen.toNat q (run E k C n s) ∧
    (run E k C n s).skipOr = skip

/-! ### One instruction -/

/-- An instruction of a pattern, but for those that keep state, leaves the loop as it is. -/
theorem exec_pattern (hx : checkInsn K c = .ok .pattern) (hst : ¬ c.IsState) :
    ∃ u, (exec E k C c s).val z = (.brk, u) ∧ u.l = s.l := by
  have htests : ∀ x : Ev Δ Bool, ∃ u, (tests s x).val z = (.brk, u) ∧ u.l = s.l :=
    fun x => ⟨_, rfl, rfl⟩
  unfold exec
  split
  all_goals
    rename_i heq
    first
    | exact htests _
    | (rw [checkInsn, heq] at hx
       simp only [require_bind, pure, Except.pure, Except.ok.injEq, reduceCtorEq, and_false] at hx)
  case h_18 | h_19 =>
    rw [Reads.val_ite]
    split_ifs
    · exact ⟨_, rfl, rfl⟩
    · exact ⟨_, rfl, rfl⟩
  case h_46 =>
    rw [execAltq, Reads.val_ite]
    split_ifs
    · exact ⟨_, rfl, rfl⟩
    · exact ⟨_, rfl, rfl⟩
  case h_47 =>
    have hl : ((ipfwLog E C s).val z).l = s.l := by
      simp only [ipfwLog, Reads.val_ite, Reads.val_bind, Reads.val_pure, wordAt, Reads.val_read]
      split_ifs <;> rfl
    exact ⟨_, rfl, hl⟩
  case h_61 =>
    rw [Reads.val_pure, execTag]
    split
    · split_ifs
      · exact ⟨_, rfl, rfl⟩
      · exact ⟨_, rfl, rfl⟩
    · split_ifs
      · exact ⟨_, rfl, rfl⟩
      · exact ⟨_, rfl, rfl⟩
      · exact ⟨_, rfl, rfl⟩
  case h_64 => exact absurd (.inr (.inr heq)) hst
  case h_65 => exact absurd (.inr (.inl heq)) hst
  case h_66 => exact absurd (.inl heq) hst

/-- The state in the middle of a pattern. -/
structure Inside (C : Chain) (w : RulePtr → ℕ → BitVec 32) (f : RulePtr) (p : ℕ) (s : Chk Δ) :
    Prop where
  at_ : At f (C.rule f).cmdLen.toNat p s
  intact : Intact C w s
  done : s.done = false

/-- **One instruction** of a pattern: the flag `skip_or` afterwards, unless the rule is left. -/
theorem inside_step (hload : Loaded K C w) (hs : Inside C w f p s) (hv : Visited C w f p)
    (hx : checkInsn K (.ofWord (w f p)) = .ok .pattern) (hst : ¬ (Insn.ofWord (w f p)).IsState)
    (hok : LoopOk E k C w s) :
    match scanStep s.skipOr ⟨(Insn.ofWord (w f p)).fOr, (Insn.ofWord (w f p)).Holds E k C s⟩ with
    | some b => Inside C w f (p + lenAt (w f) p) ((step E k C s).val s) ∧
        ((step E k C s).val s).skipOr = b
    | none => ((step E k C s).val s).pc ≠ .inner := by
  obtain ⟨⟨hpc, hf, hcmd, hl⟩, hw, hdone⟩ := hs
  have hlt := hv.lt
  have hl0 : 0 < s.l := by
    rw [hl]
    omega
  set c := Insn.ofWord (w f p) with hc
  have hc' : Insn.ofWord (s.words s.f s.cmd) = c := by rw [hf, hcmd, hw f p hv]
  have hat : ∀ {t : Chk Δ}, t.pc = .inner → t.f = f → t.cmd = p → t.l = s.l →
      t.cmdlen = c.fLen → At f (C.rule f).cmdLen.toNat (p + lenAt (w f) p) t.advance := by
    intro t h1 h2 h3 h4 h5
    refine ⟨h1, h2, ?_, ?_⟩
    · simp only [Chk.advance, h3, h5]
      rfl
    · have hlen : c.fLen = lenAt (w f) p := rfl
      simp only [Chk.advance, h4, h5, hl, hlen]
      omega
  cases hskip : s.skipOr with
  | true =>
    rw [step_skip hpc hl0 hskip hc']
    rw [scanStep, Bool.true_or, if_pos rfl]
    dsimp only
    cases hor : c.fOr
    · rw [if_neg (by simp)]
      exact ⟨⟨hat hpc hf hcmd rfl rfl, hw, hdone⟩, rfl⟩
    · rw [if_pos rfl]
      exact ⟨⟨hat hpc hf hcmd rfl rfl, hw, hdone⟩, hskip⟩
  | false =>
    set t : Chk Δ := { s with cmdlen := c.fLen, matched := false } with ht
    obtain ⟨u, he, hul⟩ := exec_pattern (E := E) (k := k) (C := C) (s := t) (z := s) hx hst
    have hno : ¬ c.opcode = some .skipto ∧ ∀ g, ¬ Finds E k c t g := by
      refine ⟨fun hop => ?_, fun g hg => ?_⟩
      · rw [checkInsn, hop] at hx
        simp only [require_bind, pure, Except.pure, Except.ok.injEq, reduceCtorEq, and_false] at hx
      · rcases hg.1 with hop | hop
        · exact hst (.inl hop)
        · rw [checkInsn, hop] at hx
          simp only [require_bind, pure, Except.pure, Except.ok.injEq, reduceCtorEq,
            and_false] at hx
    have hout := exec_outcome (E := E) (k := k) (C := C) (c := c) (s := t) (z := s)
    rw [he] at hout
    have hstay : Stays E C c t u := by
      cases hout with
      | stays h => exact h
      | jump h => exact absurd h (hno.2 _)
    obtain ⟨-, hfr⟩ : Leaves C t (.brk, u) := by
      rw [← he]
      exact exec_leaves hno.1 hno.2
    have hu : Intact C w u := exec_intact hload (s := t) hw (by rw [hf, hcmd]; exact hv) hc' hstay
      (by rw [he]) fun hop => hok.log hpc hl0 hskip (by rw [hc']; exact hop)
    have hudone : u.done = false := by
      rcases hfr.done with h | ⟨-, h⟩
      · exact h.trans hdone
      · have h : u.l = 0 := h
        rw [hul] at h
        exact absurd h hl0.ne'
    have huhead : Insn.ofWord (u.words u.f u.cmd) = c := by
      rw [show u.f = f from hstay.f.trans hf, show u.cmd = p from hstay.cmd.trans hcmd, hu f p hv]
    have hholds : c.Holds E k C s = u.result c := by rw [Insn.Holds, he]
    rw [step_brk hpc hl0 hskip hc' he, epilogue_val, huhead, hholds, scanStep, Bool.false_or]
    cases hres : u.result c <;> cases hor : c.fOr
    · rw [if_neg (by simp), if_neg (by simp), close_fail hres hor]
      simp [Chk.leave, hudone]
    · rw [if_neg (by simp), if_pos rfl, close_next (by rw [hres, hor]; rfl)]
      exact ⟨⟨hat (hstay.pc.trans hpc) (hstay.f.trans hf) (hstay.cmd.trans hcmd) hul hstay.cmdlen,
        hu, hudone⟩, hstay.skipOr.trans hskip⟩
    · rw [if_pos rfl, close_next (by rw [hres, hor]; rfl)]
      exact ⟨⟨hat (hstay.pc.trans hpc) (hstay.f.trans hf) (hstay.cmd.trans hcmd) hul hstay.cmdlen,
        hu, hudone⟩, hstay.skipOr.trans hskip⟩
    · rw [if_pos rfl, close_skip hres hor]
      exact ⟨⟨hat (hstay.pc.trans hpc) (hstay.f.trans hf) (hstay.cmd.trans hcmd) hul hstay.cmdlen,
        hu, hudone⟩, rfl⟩

/-! ### The pattern -/

theorem Insns.le (h : Insns (w f) p ps q) : p ≤ q := by
  induction h with
  | nil => exact le_rfl
  | cons _ ih => omega

/-- The instructions between two instructions of a rule are those of a pattern. -/
theorem Insns.pattern (hload : Loaded K C w) (h : Insns (w f) p ps q) (hp : Visited C w f p)
    (hq : q < (C.rule f).cmdLen.toNat) :
    ∀ x ∈ ps, Visited C w f x ∧ checkInsn K (.ofWord (w f x)) = .ok .pattern := by
  induction h with
  | nil => exact fun x hx => absurd hx List.not_mem_nil
  | @cons p q ps h ih =>
    obtain ⟨x, hx, -, hact⟩ := hload.fits hp
    have hle := h.le
    have hne : x ≠ .action := fun ha => by
      have := hact.1 ha
      omega
    have hpat : x = .pattern := by
      cases x
      · rfl
      · exact absurd rfl hne
    rw [hpat] at hx
    intro y hy
    rcases List.mem_cons.1 hy with rfl | hy
    · exact ⟨hp, hx⟩
    · exact ih (hp.next (by omega)) hq y hy

theorem Insns.visited (h : Insns (w f) p ps q) (hp : Visited C w f p)
    (hq : q < (C.rule f).cmdLen.toNat) : Visited C w f q := by
  induction h with
  | nil => exact hp
  | @cons p q ps h ih =>
    have hle := h.le
    exact ih (hp.next (by omega)) hq

/-- The flags of the tests are those of the instructions. -/
theorem or_of_mem_orTests {x : OrTest} (hx : x ∈ orTests E k C (w f) ps s) :
    ∃ p ∈ ps, x.or = (Insn.ofWord (w f p)).fOr := by
  induction ps generalizing s with
  | nil => exact absurd hx List.not_mem_nil
  | cons p ps ih =>
    rcases List.mem_cons.1 hx with rfl | hx
    · exact ⟨p, List.mem_cons_self, rfl⟩
    · obtain ⟨p', hp', h⟩ := ih hx
      exact ⟨p', List.mem_cons_of_mem _ hp', h⟩

theorem run_add (m : ℕ) : run E k C (m + n) s = run E k C n (run E k C m s) := by
  induction m generalizing s with
  | zero => rw [Nat.zero_add, run]
  | succ m ih =>
    rw [Nat.succ_add, run, ih]
    rfl

/-- The instructions at the positions `ps` are those of a pattern without state. -/
def Stateless (K : Kernel) (C : Chain) (w : RulePtr → ℕ → BitVec 32) (f : RulePtr) (ps : List ℕ) :
    Prop :=
  ∀ x ∈ ps, (Visited C w f x ∧ checkInsn K (.ofWord (w f x)) = .ok .pattern) ∧
    ¬ (Insn.ofWord (w f x)).IsState

section
variable (hload : Loaded K C w)
include hload

/-- If the evaluation in one pass succeeds, the loop comes to the end. -/
theorem comes_of_scan (hps : Insns (w f) p ps q) (hpat : Stateless K C w f ps)
    (hs : Inside C w f p s) (hok : ∀ i < ps.length, LoopOk E k C w (run E k C i s))
    (h : scan s.skipOr (orTests E k C (w f) ps s) = some b) :
    (∀ i ≤ ps.length, (run E k C i s).pc = .inner) ∧ Inside C w f q (run E k C ps.length s) ∧
      (run E k C ps.length s).skipOr = b := by
  induction hps generalizing s with
  | nil =>
    refine ⟨fun i hi => ?_, hs, Option.some.inj h⟩
    obtain rfl : i = 0 := Nat.le_zero.1 hi
    exact hs.at_.pc
  | @cons p q ps hps ih =>
    obtain ⟨⟨hv, hx⟩, hst⟩ := hpat p List.mem_cons_self
    have hstep := inside_step (E := E) (k := k) hload hs hv hx hst (hok 0 (Nat.succ_pos _))
    rw [orTests, scan] at h
    cases hsc : scanStep s.skipOr
        ⟨(Insn.ofWord (w f p)).fOr, (Insn.ofWord (w f p)).Holds E k C s⟩ with
    | none =>
      rw [hsc] at h
      cases h
    | some b' =>
      rw [hsc] at h hstep
      obtain ⟨hin, hskip⟩ := hstep
      obtain ⟨hpc, hend, hb⟩ := ih (fun x hx => hpat x (List.mem_cons_of_mem _ hx)) hin
        (fun i hi => hok (i + 1) (Nat.succ_lt_succ hi)) (by rw [hskip]; exact h)
      refine ⟨fun i hi => ?_, hend, hb⟩
      cases i with
      | zero => exact hs.at_.pc
      | succ i => exact hpc i (Nat.le_of_succ_le_succ hi)

/-- If the rule is not left, the evaluation in one pass succeeds. -/
theorem scan_of_inner (hps : Insns (w f) p ps q) (hpat : Stateless K C w f ps)
    (hs : Inside C w f p s) (hok : ∀ i < ps.length, LoopOk E k C w (run E k C i s))
    (h : ∀ i ≤ ps.length, (run E k C i s).pc = .inner) :
    ∃ b, scan s.skipOr (orTests E k C (w f) ps s) = some b := by
  induction hps generalizing s with
  | nil => exact ⟨_, rfl⟩
  | @cons p q ps hps ih =>
    obtain ⟨⟨hv, hx⟩, hst⟩ := hpat p List.mem_cons_self
    have hstep := inside_step (E := E) (k := k) hload hs hv hx hst (hok 0 (Nat.succ_pos _))
    rw [orTests, scan]
    cases hsc : scanStep s.skipOr
        ⟨(Insn.ofWord (w f p)).fOr, (Insn.ofWord (w f p)).Holds E k C s⟩ with
    | none =>
      rw [hsc] at hstep
      exact absurd (h 1 (by simp)) hstep
    | some b' =>
      rw [hsc] at hstep
      obtain ⟨hin, hskip⟩ := hstep
      obtain ⟨b, hb⟩ := ih (fun x hx => hpat x (List.mem_cons_of_mem _ hx)) hin
        (fun i hi => hok (i + 1) (Nat.succ_lt_succ hi))
        fun i hi => h (i + 1) (Nat.succ_le_succ hi)
      exact ⟨b, by rw [← hb, hskip]; rfl⟩

/-- **The inner loop** evaluates a pattern in one pass. -/
theorem comes_iff_scan (hps : Insns (w f) p ps q) (hpat : Stateless K C w f ps)
    (hs : Inside C w f p s) (hok : ∀ i < ps.length, LoopOk E k C w (run E k C i s)) :
    Comes E k C f q ps.length b s ↔ scan s.skipOr (orTests E k C (w f) ps s) = some b := by
  constructor
  · rintro ⟨hpc, -, hb⟩
    obtain ⟨b', hb'⟩ := scan_of_inner hload hps hpat hs hok hpc
    obtain ⟨-, -, hskip⟩ := comes_of_scan hload hps hpat hs hok hb'
    rw [hb', ← hb, hskip]
  · intro h
    obtain ⟨hpc, hin, hb⟩ := comes_of_scan hload hps hpat hs hok h
    exact ⟨hpc, hin.at_, hb⟩

end

/-- What the instructions before the one at `q` of the rule `f` mean, from the start of the rule on:
if none of them keeps state, the loop comes to the instruction at `q`, and does not skip it, exactly
if each or-block before it has an instruction that holds, and no instruction with `F_OR` right before
it does. After an instruction that is evaluated and holds, the others up to the end of its block are
skipped. -/
structure PatternMeaning (E : Env Δ) (k : Hdr) (C : Chain) (w : RulePtr → ℕ → BitVec 32)
    (f : RulePtr) (s : Chk Δ) : Prop where
  comes : ∀ ps q, Insns (w f) 0 ps q → q < (C.rule f).cmdLen.toNat →
    (∀ x ∈ ps, ¬ (Insn.ofWord (w f x)).IsState) →
    (∀ i < ps.length, LoopOk E k C w (run E k C i s)) →
    (Comes E k C f q ps.length false s ↔ BlocksHold (orBlocks (orTests E k C (w f) ps s)))
  skips : ∀ as p bs q, Insns (w f) 0 as p → Insns (w f) p (p :: bs) q →
    q < (C.rule f).cmdLen.toNat → (∀ x ∈ as ++ p :: bs, ¬ (Insn.ofWord (w f x)).IsState) →
    (∀ i < (as ++ p :: bs).length, LoopOk E k C w (run E k C i s)) →
    Comes E k C f p as.length false s →
    (Insn.ofWord (w f p)).Holds E k C (run E k C as.length s) = true →
    (∀ x ∈ p :: bs, (Insn.ofWord (w f x)).fOr = true) →
    Comes E k C f q (as ++ p :: bs).length true s

/-- A rule with an `O_NOP` with `F_OR` and an action. -/
def orRule : IpFw :=
  { (default : IpFw) with
    cmdLen := 2
    actOfs := 1
    cmd := fun p => if p = 0 then 0x00004100#32 else Opcode.accept.word 1 0 }

theorem orRule_inside :
    Inside (.single orRule) (fun _ => orRule.cmd) 0 0 (startOf orRule []) where
  at_ := ⟨rfl, rfl, rfl, rfl⟩
  intact _ _ _ := rfl
  done := rfl

end Ipfw
