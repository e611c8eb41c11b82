import Dummynet.Ipfw.Terminate

/-!
# The accounting of rules

The counters of a rule go up by one packet for each execution of its action. The actions after
which the evaluation goes on update them themselves; the others leave both loops, after which
`ipfw_chk` updates the counters of the rule at `f_pos`. `O_REASS` does both if the packet is a
fragment.

## Main definitions

* `Acts`: the action of a rule is executed, or its state is not installed.
* `Chk.conclude`: the end of `ipfw_chk`.
* `Accounted`: the counters go up once for each execution.

## Main results

* `Sys.Reach.accounted_iff`: the accounting is exact unless `O_REASS` is executed for a fragment.
-/

namespace Ipfw

variable {Δ : Type}

/-- `ip_off` tells that the packet is a fragment. -/
def Hdr.isFragment (k : Hdr) : Bool := ntohs (k.byte 7 ++ k.byte 6) &&& 0x3fff#16 != 0#16

/-- The state is not installed. -/
def installFails (E : Env Δ) (k : Hdr) (c : Insn) (op : Opcode) (s : Chk Δ) : Bool :=
  (E.installState s.f op ((limitWord c).val s) (s.flowId k) s.tablearg s.dyn).1

/-- The instruction `c` is an action that is executed, or it fails to install state.
`O_CHECK_STATE` is not counted, and some actions are not valid on layer 2, where they are passed
over. -/
def Acts (E : Env Δ) (k : Hdr) (c : Insn) (s : Chk Δ) : Bool :=
  match c.opcode with
  | some .accept | some .deny | some .reject | some .unreach6 | some .count | some .skipto
  | some .pipe | some .queue | some .netgraph | some .ngtee | some .setfib | some .nat
  | some .reass => true
  | some .divert | some .tee | some .forwardIp => k.eh.isNone
  | some .limit => installFails E k c .limit s
  | some .keepState => installFails E k c .keepState s
  | _ => false

/-- The actions that update the counters themselves. -/
def countsInside (c : Insn) : Bool :=
  match c.opcode with
  | some .count | some .skipto | some .setfib | some .reass => true
  | _ => false

/-- The instruction `c` decides on the packet. -/
def Settles (E : Env Δ) (k : Hdr) (c : Insn) (s : Chk Δ) : Bool :=
  match c.opcode with
  | some .count | some .skipto | some .setfib => false
  | some .reass => k.isFragment
  | _ => Acts E k c s

/-- The instruction that is executed in the next round. -/
def Chk.insn? (s : Chk Δ) : Option Insn :=
  if s.pc = .inner ∧ 0 < s.l ∧ s.skipOr = false then some (.ofWord (s.words s.f s.cmd)) else none

/-- The next round executes an instruction that meets `P`. -/
def Chk.does (P : Insn → Chk Δ → Bool) (s : Chk Δ) : Bool := s.insn?.any fun c => P c s

/-- The rules, in order, of the instructions that meet `P`, in `n` rounds. -/
def rulesOf (P : Insn → Chk Δ → Bool) (E : Env Δ) (k : Hdr) (C : Chain) (z : Chk Δ) :
    ℕ → List RulePtr
  | 0 => []
  | n + 1 =>
    rulesOf P E k C z n ++ if (run E k C n z).does P then [(run E k C n z).f] else []

/-- The end of `ipfw_chk`, which updates the counters of the rule that has decided. -/
def Chk.conclude (E : Env Δ) (k : Hdr) (C : Chain) (s : Chk Δ) : Chk Δ :=
  if s.done then s.count E k (C.at s.fPos) else { s with retval := .deny }

/-- The call ends after `n` rounds. The counters of each rule have gone up once for each execution
of its action, one rule is credited with the verdict, and for a dynamic rule that is found the
evaluation goes on in the rule it belongs to. -/
structure Accounted (E : Env Δ) (k : Hdr) (C : Chain) (z : Chk Δ) (n : ℕ) : Prop where
  exit : (run E k C n z).pc = .exit
  pcnt : ∀ r, (((run E k C n z).conclude E k C).stats r).pcnt =
    (z.stats r).pcnt + BitVec.ofNat 64 ((rulesOf (Acts E k) E k C z n).count r)
  bcnt : ∀ r, (((run E k C n z).conclude E k C).stats r).bcnt =
    (z.stats r).bcnt +
      BitVec.ofNat 64 ((rulesOf (Acts E k) E k C z n).count r) * k.pktlen.setWidth 64
  verdict : (run E k C n z).done = true ∧
    rulesOf (Settles E k) E k C z n = [C.at (run E k C n z).fPos]
  hit : ∀ i < n, ∀ c g, (run E k C i z).insn? = some c → Finds E k c (run E k C i z) g →
    (run E k C (i + 1) z).f = g

variable {E : Env Δ} {k : Hdr} {C : Chain} {s t u z : Chk Δ} {c : Insn} {K : Kernel}
  {w : RulePtr → ℕ → BitVec 32} {d r : RulePtr} {σ : Sys} {n : ℕ} {P : Insn → Chk Δ → Bool}

/-! ### The switch -/

/-- What the switch does to the counters, and whether it decides. -/
structure Tallies (E : Env Δ) (k : Hdr) (c : Insn) (s t : Chk Δ) : Prop where
  stats : t.stats = if countsInside c then (s.count E k s.f).stats else s.stats
  done : t.done = (s.done || Settles E k c s)
  f : Settles E k c s = true → t.f = s.f

theorem Tallies.quiet (hin : countsInside c = false) (hdec : Settles E k c s = false)
    (hstats : t.stats = s.stats) (hdone : t.done = s.done) : Tallies E k c s t := by
  refine ⟨?_, ?_, fun h => ?_⟩
  · rw [hin, if_neg Bool.false_ne_true]
    exact hstats
  · rw [hdec, Bool.or_false]
    exact hdone
  · rw [hdec] at h
    cases h

theorem Tallies.decide (hin : countsInside c = false) (hdec : Settles E k c s = true)
    (hstats : t.stats = s.stats) (hdone : t.done = true) (hf : t.f = s.f) : Tallies E k c s t := by
  refine ⟨?_, ?_, fun _ => hf⟩
  · rw [hin, if_neg Bool.false_ne_true]
    exact hstats
  · rw [hdec, Bool.or_true]
    exact hdone

theorem Tallies.counted (hin : countsInside c = true) (hdec : Settles E k c s = false)
    (hstats : t.stats = (s.count E k s.f).stats) (hdone : t.done = s.done) : Tallies E k c s t := by
  refine ⟨?_, ?_, fun h => ?_⟩
  · rw [hin, if_pos rfl]
    exact hstats
  · rw [hdec, Bool.or_false]
    exact hdone
  · rw [hdec] at h
    cases h

theorem execUnreach6_tallies (hin : countsInside c = false) (hdec : Settles E k c s = true)
    (hstats : t.stats = s.stats) (hf : t.f = s.f) : Tallies E k c s (execUnreach6 k c t).2 := by
  unfold execUnreach6
  dsimp only
  split_ifs
  · exact .decide hin hdec hstats rfl hf
  · exact .decide hin hdec hstats rfl hf

theorem execNat_tallies (hin : countsInside c = false) (hdec : Settles E k c s = true) :
    Tallies E k c s ((execNat E C c s).val z).2 := by
  rw [execNat, Reads.val_ite]
  split_ifs
  · exact .decide hin hdec rfl rfl rfl
  · simp only [execNatLoaded, Reads.val_bind, Reads.val_ite, Reads.val_pure]
    split_ifs
    · exact .decide hin hdec rfl rfl rfl
    · split
      · exact .decide hin hdec rfl rfl rfl
      · simp only [execNatFound, Reads.val_bind, Reads.val_ite, Reads.val_pure]
        split_ifs
        · exact .decide hin hdec rfl rfl rfl
        · exact .decide hin hdec rfl rfl rfl

theorem execSkipto_tallies (hin : countsInside c = true) (hdec : Settles E k c s = false) :
    Tallies E k c s (execSkipto E k C c s).2 := by
  unfold execSkipto
  dsimp only
  split_ifs
  all_goals exact .counted hin hdec rfl rfl

theorem execState_tallies (hin : countsInside c = false) (hdec : Settles E k c s = false) :
    Tallies E k c s ((execState E k C c s).val z).2 := by
  simp only [execState, lookupDyn, Reads.val_bind, Reads.val_ite, Reads.val_pure]
  split_ifs
  · split
    · exact .quiet hin hdec rfl rfl
    · exact .quiet hin hdec rfl rfl
  · split
    · exact .quiet hin hdec rfl rfl
    · exact .quiet hin hdec rfl rfl
  · exact .quiet hin hdec rfl rfl
  · exact .quiet hin hdec rfl rfl

theorem limitWord_val : (limitWord c).val s =
    if c.opcode = some .limit then s.words s.f (s.cmd + 1) else 0#32 := by
  rw [limitWord, Reads.val_ite]
  rfl

theorem execInstall_tallies {op : Opcode} (hz : (limitWord c).val z = (limitWord c).val s)
    (hin : countsInside c = false) (hdec : Settles E k c s = installFails E k c op s) :
    Tallies E k c s ((execInstall E k c op s).val z).2 := by
  simp only [execInstall, Reads.val_bind, Reads.val_pure, hz]
  unfold installFails at hdec
  generalize E.installState s.f op ((limitWord c).val s) (s.flowId k) s.tablearg s.dyn = x at hdec ⊢
  obtain ⟨fail, dyn⟩ := x
  cases fail
  · exact .quiet hin hdec rfl rfl
  · exact .decide hin hdec rfl rfl rfl

theorem execDivert_tallies (hin : countsInside c = false) (hdec : Settles E k c s = k.eh.isNone) :
    Tallies E k c s (execDivert k C c s).2 := by
  unfold execDivert
  split_ifs with heh
  · refine .quiet hin (hdec.trans ?_) rfl rfl
    exact Option.isNone_eq_false_iff.2 heh
  all_goals
    refine .decide hin (hdec.trans ?_) rfl rfl rfl
    simpa using heh

theorem execForwardIp_tallies (hin : countsInside c = false)
    (hdec : Settles E k c s = k.eh.isNone) : Tallies E k c s ((execForwardIp k s).val z).2 := by
  simp only [execForwardIp, Reads.val_ite, Reads.val_bind, Reads.val_pure]
  split_ifs with heh
  · refine .quiet hin (hdec.trans ?_) rfl rfl
    exact Option.isNone_eq_false_iff.2 heh
  all_goals
    refine .decide hin (hdec.trans ?_) rfl rfl rfl
    simpa using heh

/-- `O_REASS` updates the counters, and it decides on a fragment. -/
theorem execReass_tallies (hin : countsInside c = true) (hdec : Settles E k c s = k.isFragment) :
    Tallies E k c s ((execReass E k C s).val z).2 := by
  have hoff : (half k 6).val z = k.byte 7 ++ k.byte 6 := rfl
  simp only [execReass, Reads.val_ite, Reads.val_bind, Reads.val_pure, hoff]
  split_ifs with hfrag
  · refine .counted hin (hdec.trans ?_) rfl rfl
    rw [Hdr.isFragment, hfrag]
    rfl
  all_goals
    have hdec : Settles E k c s = true := hdec.trans (bne_iff_ne.2 hfrag)
    refine ⟨?_, ?_, fun _ => rfl⟩
    · rw [hin, if_pos rfl]
      rfl
    · rw [hdec, Bool.or_true]
      rfl

/-- **The switch** updates the counters once, and it decides if the action does. -/
theorem exec_tallies (hz : (limitWord c).val z = (limitWord c).val s) :
    Tallies E k c s ((exec E k C c s).val z).2 := by
  unfold exec
  split
  all_goals
    rename_i heq
    first
    | exact .quiet (by simp only [countsInside, heq]) (by simp only [Settles, Acts, heq]) rfl rfl
    | exact .decide (by simp only [countsInside, heq]) (by simp only [Settles, Acts, heq])
        rfl rfl rfl
    | exact .counted (by simp only [countsInside, heq]) (by simp only [Settles, heq]) rfl rfl
    | skip
  case h_18 | h_19 =>
    rw [Reads.val_ite]
    split_ifs
    · exact .quiet (by simp only [countsInside, heq]) (by simp only [Settles, Acts, heq]) rfl rfl
    · exact .quiet (by simp only [countsInside, heq]) (by simp only [Settles, Acts, heq]) rfl rfl
  case h_46 =>
    rw [execAltq, Reads.val_ite]
    split_ifs
    · exact .quiet (by simp only [countsInside, heq]) (by simp only [Settles, Acts, heq]) rfl rfl
    · exact .quiet (by simp only [countsInside, heq]) (by simp only [Settles, Acts, heq]) rfl rfl
  case h_47 =>
    simp only [ipfwLog, Reads.val_ite, Reads.val_bind, Reads.val_pure]
    split_ifs
    all_goals
      exact .quiet (by simp only [countsInside, heq]) (by simp only [Settles, Acts, heq]) rfl rfl
  case h_61 =>
    rw [Reads.val_pure, execTag]
    split <;> split_ifs
    all_goals
      exact .quiet (by simp only [countsInside, heq]) (by simp only [Settles, Acts, heq]) rfl rfl
  case h_64 =>
    exact execInstall_tallies hz (by simp only [countsInside, heq])
      (by simp only [Settles, Acts, heq])
  case h_65 =>
    exact execInstall_tallies hz (by simp only [countsInside, heq])
      (by simp only [Settles, Acts, heq])
  case h_66 | h_67 =>
    exact execState_tallies (by simp only [countsInside, heq]) (by simp only [Settles, Acts, heq])
  case h_71 | h_72 =>
    exact execDivert_tallies (by simp only [countsInside, heq]) (by simp only [Settles, Acts, heq])
  case h_74 =>
    exact execSkipto_tallies (by simp only [countsInside, heq]) (by simp only [Settles, heq])
  case h_75 =>
    simp only [execReject, Reads.val_bind, Reads.val_pure]
    refine execUnreach6_tallies (by simp only [countsInside, heq])
      (by simp only [Settles, Acts, heq]) ?_ ?_
    · split_ifs <;> rfl
    · split_ifs <;> rfl
  case h_76 =>
    exact execUnreach6_tallies (by simp only [countsInside, heq])
      (by simp only [Settles, Acts, heq]) rfl rfl
  case h_78 =>
    exact execForwardIp_tallies (by simp only [countsInside, heq])
      (by simp only [Settles, Acts, heq])
  case h_82 =>
    exact execNat_tallies (by simp only [countsInside, heq]) (by simp only [Settles, Acts, heq])
  case h_83 =>
    exact execReass_tallies (by simp only [countsInside, heq]) (by simp only [Settles, heq])

/-! ### A round -/

theorem leave_tally : u.leave.stats = u.stats ∧ u.leave.done = u.done ∧ u.leave.f = u.f := by
  unfold Chk.leave
  split_ifs <;> exact ⟨rfl, rfl, rfl⟩

theorem close_tally : (u.close c).stats = u.stats ∧ (u.close c).done = u.done ∧
    (u.close c).f = u.f := by
  rcases close_cases c u with ⟨m, hcl⟩ | ⟨m, o, -, hcl⟩
  · rw [hcl]
    exact leave_tally
  · rw [hcl]
    exact ⟨rfl, rfl, rfl⟩

/-- What a round does to the counters, and whether it decides. -/
structure RoundTally (E : Env Δ) (k : Hdr) (s t : Chk Δ) : Prop where
  stats : t.stats = if s.does fun c _ => countsInside c then (s.count E k s.f).stats else s.stats
  done : t.done = (s.done || s.does (Settles E k))
  f : s.does (Settles E k) = true → t.f = s.f

theorem RoundTally.quiet (hnone : s.insn? = none) (hstats : t.stats = s.stats)
    (hdone : t.done = s.done) : RoundTally E k s t := by
  have hno : ∀ P, s.does P = false := fun P => by rw [Chk.does, hnone, Option.any_none]
  refine ⟨?_, ?_, fun h => ?_⟩
  · rw [hno, if_neg Bool.false_ne_true]
    exact hstats
  · rw [hno, Bool.or_false]
    exact hdone
  · rw [hno] at h
    cases h

/-- **A round** updates the counters once if it executes one of the actions that do so. -/
theorem step_tally : RoundTally E k s ((step E k C s).val s) := by
  cases hpc : s.pc with
  | exit =>
    have hstep : (step E k C s).val s = s := by simp only [step, hpc, Reads.val_pure]
    rw [hstep]
    exact .quiet (if_neg fun h => absurd (h.1.symm.trans hpc) (by simp)) rfl rfl
  | panic =>
    have hstep : (step E k C s).val s = s := by simp only [step, hpc, Reads.val_pure]
    rw [hstep]
    exact .quiet (if_neg fun h => absurd (h.1.symm.trans hpc) (by simp)) rfl rfl
  | outer =>
    have hstep : (step E k C s).val s = enter E C s := by simp only [step, hpc, Reads.val_pure]
    have hnone : s.insn? = none := if_neg fun h => absurd (h.1.symm.trans hpc) (by simp)
    rw [hstep, enter]
    dsimp only
    split_ifs
    · exact .quiet hnone rfl rfl
    · exact .quiet hnone rfl rfl
    · exact .quiet hnone rfl rfl
  | inner =>
    by_cases hl : 0 < s.l
    · cases hskip : s.skipOr with
      | true =>
        have hnone : s.insn? = none := if_neg fun h => by rw [hskip] at h; cases h.2.2
        rw [step_skip hpc hl hskip rfl]
        split_ifs
        · exact .quiet hnone rfl rfl
        · exact .quiet hnone rfl rfl
      | false =>
        set c := Insn.ofWord (s.words s.f s.cmd) with hc
        set t : Chk Δ := { s with cmdlen := c.fLen, matched := false } with ht
        have hinsn : s.insn? = some c := if_pos ⟨hpc, hl, hskip⟩
        have hdoes : ∀ P, s.does P = P c s := fun P => by rw [Chk.does, hinsn, Option.any_some]
        have hword : (limitWord c).val s = (limitWord c).val t := by
          rw [limitWord_val, limitWord_val]
        have hdec : Settles E k c t = Settles E k c s := by
          unfold Settles Acts installFails
          rw [← hword]
          rfl
        obtain ⟨ctl, u, he⟩ : ∃ ctl u, (exec E k C c t).val s = (ctl, u) := ⟨_, _, rfl⟩
        have htally : Tallies E k c t ((exec E k C c t).val s).2 := exec_tallies hword
        rw [he] at htally
        have hout : ((step E k C s).val s).stats = u.stats ∧
            ((step E k C s).val s).done = u.done ∧ ((step E k C s).val s).f = u.f := by
          cases ctl with
          | cont =>
            rw [step_cont hpc hl hskip rfl he]
            exact ⟨rfl, rfl, rfl⟩
          | brk =>
            rw [step_brk hpc hl hskip rfl he, epilogue_val]
            exact close_tally
          | panic =>
            rw [step_inner hpc hl, body, Reads.val_bind, val_insnAt,
              if_neg (show ¬ s.skipOr = true by simp [hskip]), Reads.val_bind, ← hc, he]
            exact ⟨rfl, rfl, rfl⟩
        refine ⟨?_, ?_, fun h => ?_⟩
        · rw [hdoes]
          exact hout.1.trans htally.stats
        · rw [hdoes, ← hdec]
          exact hout.2.1.trans htally.done
        · rw [hdoes] at h
          exact hout.2.2.trans (htally.f (hdec.trans h))
    · have hstep : (step E k C s).val s = s.leave := by
        simp only [step, hpc, hl, if_false, Reads.val_pure]
      rw [hstep]
      exact .quiet (if_neg fun h => hl h.2.1) leave_tally.1 leave_tally.2.1

/-! ### The whole evaluation -/

theorem mem_rulesOf : r ∈ rulesOf P E k C z n ↔
    ∃ i < n, (run E k C i z).does P = true ∧ (run E k C i z).f = r := by
  induction n with
  | zero =>
    exact ⟨fun h => absurd h List.not_mem_nil, fun ⟨i, hi, _⟩ => absurd hi (Nat.not_lt_zero i)⟩
  | succ n ih =>
    rw [rulesOf, List.mem_append, ih]
    constructor
    · rintro (⟨i, hi, h⟩ | h)
      · exact ⟨i, hi.trans (Nat.lt_succ_self n), h⟩
      · split_ifs at h with hdoes
        · exact ⟨n, Nat.lt_succ_self n, hdoes, (List.mem_singleton.1 h).symm⟩
        · exact absurd h List.not_mem_nil
    · rintro ⟨i, hi, hdoes, hf⟩
      rcases Nat.lt_succ_iff_lt_or_eq.1 hi with hlt | rfl
      · exact .inl ⟨i, hlt, hdoes, hf⟩
      · rw [if_pos hdoes]
        exact .inr (List.mem_singleton.2 hf.symm)

/-- The actions that count twice: they update the counters, and decide. -/
def CountsTwice (E : Env Δ) (k : Hdr) (c : Insn) (s : Chk Δ) : Bool :=
  countsInside c && Settles E k c s

theorem countsTwice_iff :
    CountsTwice E k c s = true ↔ c.opcode = some .reass ∧ k.isFragment = true := by
  unfold CountsTwice
  by_cases hop : c.opcode = some .reass
  · simp only [countsInside, Settles, hop, Bool.true_and, true_and]
  · refine iff_of_false ?_ fun h => hop h.1
    unfold countsInside
    split
    · simp_all [Settles]
    · simp_all [Settles]
    · simp_all [Settles]
    · exact absurd ‹_› hop
    · exact Bool.false_ne_true

/-- An action is executed if it counts or decides. -/
theorem acts_eq : Acts E k c s = (countsInside c || Settles E k c s) := by
  unfold countsInside
  split
  case h_5 hcount hskipto hsetfib hreass =>
    rw [Bool.false_or]
    unfold Settles
    split
    · exact absurd ‹_› hcount
    · exact absurd ‹_› hskipto
    · exact absurd ‹_› hsetfib
    · exact absurd ‹_› hreass
    · rfl
  all_goals
    rename_i heq
    simp only [Acts, heq, Bool.true_or]

/-- Executions that count and executions that decide are executions, and some are both. -/
theorem count_rulesOf : (rulesOf (fun c _ => countsInside c) E k C z n).count r +
      (rulesOf (Settles E k) E k C z n).count r =
        (rulesOf (Acts E k) E k C z n).count r + (rulesOf (CountsTwice E k) E k C z n).count r ∧
    (rulesOf (CountsTwice E k) E k C z n).count r ≤ (rulesOf (Settles E k) E k C z n).count r := by
  have hround : ∀ s : Chk Δ,
      (if s.does fun c _ => countsInside c then [s.f] else []).count r +
          (if s.does (Settles E k) then [s.f] else []).count r =
        (if s.does (Acts E k) then [s.f] else []).count r +
          (if s.does (CountsTwice E k) then [s.f] else []).count r ∧
      (if s.does (CountsTwice E k) then [s.f] else []).count r ≤
        (if s.does (Settles E k) then [s.f] else []).count r := by
    intro s
    unfold Chk.does
    cases s.insn? with
    | none => exact ⟨rfl, le_refl _⟩
    | some c =>
      simp only [Option.any_some, acts_eq, CountsTwice]
      by_cases hin : countsInside c = true <;> by_cases hdec : Settles E k c s = true
      all_goals simp [hin, hdec]
  induction n with
  | zero => exact ⟨rfl, le_refl 0⟩
  | succ n ih =>
    obtain ⟨heq, hle⟩ := hround (run E k C n z)
    simp only [rulesOf, List.count_append]
    omega

theorem count_stats (f : RulePtr) :
    ((s.count E k f).stats r).pcnt = (s.stats r).pcnt + BitVec.ofNat 64 ([f].count r) ∧
      ((s.count E k f).stats r).bcnt =
        (s.stats r).bcnt + BitVec.ofNat 64 ([f].count r) * k.pktlen.setWidth 64 := by
  unfold Chk.count
  dsimp only
  by_cases hr : f = r
  · subst hr
    rw [Function.update_self, List.count_singleton_self, BitVec.one_mul]
    exact ⟨rfl, rfl⟩
  · rw [Function.update_of_ne (Ne.symm hr), List.count_eq_zero.2 (by simpa using Ne.symm hr),
      BitVec.zero_mul, BitVec.add_zero, BitVec.add_zero]
    exact ⟨rfl, rfl⟩

/-- The counters that the actions have updated. -/
theorem stats_run (n : ℕ) :
    ((run E k C n z).stats r).pcnt = (z.stats r).pcnt +
        BitVec.ofNat 64 ((rulesOf (fun c _ => countsInside c) E k C z n).count r) ∧
      ((run E k C n z).stats r).bcnt = (z.stats r).bcnt +
        BitVec.ofNat 64 ((rulesOf (fun c _ => countsInside c) E k C z n).count r) *
          k.pktlen.setWidth 64 := by
  induction n with
  | zero =>
    rw [rulesOf, List.count_nil, BitVec.zero_mul, BitVec.add_zero, BitVec.add_zero]
    exact ⟨rfl, rfl⟩
  | succ n ih =>
    have htally := @step_tally _ E k C (run E k C n z)
    rw [run_succ', htally.stats, rulesOf, List.count_append]
    split_ifs with hdoes
    · obtain ⟨hpcnt, hbcnt⟩ := @count_stats _ E k (run E k C n z) r (run E k C n z).f
      rw [hpcnt, hbcnt, ih.1, ih.2, BitVec.ofNat_add, BitVec.add_mul, BitVec.add_assoc,
        BitVec.add_assoc]
      exact ⟨rfl, rfl⟩
    · rw [List.count_nil, Nat.add_zero]
      exact ih

/-- One rule at most has decided, and it is the current one. -/
theorem settles_run (hz : z.done = false)
    (hwalk : ∀ i, Walk C w d (run E k C i z)) (n : ℕ) :
    rulesOf (Settles E k) E k C z n =
      if (run E k C n z).done then [(run E k C n z).f] else [] := by
  induction n with
  | zero =>
    change [] = if z.done then _ else []
    rw [hz, if_neg Bool.false_ne_true]
  | succ n ih =>
    have htally := @step_tally _ E k C (run E k C n z)
    have hw := hwalk n
    rw [run_succ', rulesOf, ih]
    generalize run E k C n z = s at htally hw ⊢
    cases hdone : s.done with
    | false =>
      rw [if_neg Bool.false_ne_true, List.nil_append, htally.done, hdone, Bool.false_or]
      split_ifs with hdoes
      · rw [htally.f hdoes]
      · rfl
    | true =>
      -- Both loops are left, so that no instruction is executed.
      have hnone : s.insn? = none := if_neg fun h => absurd (hw.done h.1 hdone) (not_le.2 h.2.1)
      have hdoes : s.does (Settles E k) = false := by rw [Chk.does, hnone, Option.any_none]
      have hf : ((step E k C s).val s).f = s.f := by
        cases hpc : s.pc with
        | outer => rw [(hw.outer hpc).2] at hdone; cases hdone
        | inner =>
          have hl : ¬ 0 < s.l := not_lt.2 (hw.done hpc hdone)
          simp only [step, hpc, hl, if_false, Reads.val_pure]
          exact leave_tally.2.2
        | exit => simp only [step, hpc, Reads.val_pure]
        | panic => exact absurd hpc hw.panic
      rw [htally.done, hdone, Bool.true_or, hf, hdoes]
      rfl

/-- The counters after the call, in which some executions have counted twice. -/
theorem conclude_stats (hz : z.done = false) (hwalk : ∀ i, Walk C w d (run E k C i z))
    (hpc : (run E k C n z).pc = .exit) :
    (((run E k C n z).conclude E k C).stats r).pcnt = (z.stats r).pcnt +
        BitVec.ofNat 64 ((rulesOf (Acts E k) E k C z n).count r +
          (rulesOf (CountsTwice E k) E k C z n).count r) ∧
      (((run E k C n z).conclude E k C).stats r).bcnt = (z.stats r).bcnt +
        BitVec.ofNat 64 ((rulesOf (Acts E k) E k C z n).count r +
          (rulesOf (CountsTwice E k) E k C z n).count r) * k.pktlen.setWidth 64 := by
  obtain ⟨hdone, -, hf⟩ := (hwalk n).exit hpc
  have hdec := settles_run hz hwalk n
  rw [hdone, if_pos rfl, hf] at hdec
  obtain ⟨hpcnt, hbcnt⟩ :=
    @count_stats _ E k (run E k C n z) r (C.at (run E k C n z).fPos)
  obtain ⟨hpcnt', hbcnt'⟩ := @stats_run _ E k C z r n
  rw [Chk.conclude, if_pos hdone, hpcnt, hbcnt, hpcnt', hbcnt', ← hdec, BitVec.add_assoc,
    BitVec.add_assoc, ← BitVec.add_mul, ← BitVec.ofNat_add, count_rulesOf.1]
  exact ⟨rfl, rfl⟩

/-- Where a dynamic rule is found, the evaluation goes on in the rule it belongs to. -/
theorem step_of_finds {g : RulePtr} (hinsn : s.insn? = some c) (hg : Finds E k c s g) :
    ((step E k C s).val s).f = g := by
  unfold Chk.insn? at hinsn
  split_ifs at hinsn with hin
  obtain ⟨hpc, hl, hskip⟩ := hin
  have hc := Option.some.inj hinsn
  obtain ⟨u, he, hu⟩ := exec_jumps (C := C) (z := s)
    (finds_congr (s := s) (n := c.fLen) (m := false).2 hg)
  rw [step_brk hpc hl hskip hc he, epilogue_val, close_tally.2.2]
  exact hu.f

theorem does_countsTwice : s.does (CountsTwice E k) = true ↔
    ∃ c, s.insn? = some c ∧ c.opcode = some .reass ∧ k.isFragment = true := by
  rw [Chk.does, Option.any_eq_true]
  simp only [countsTwice_iff]

/-- If an `O_REASS` is executed for a fragment, its rule is credited once more than it is
executed. -/
theorem Accounted.no_reass (h : Accounted E k C z n) (hz : z.done = false)
    (hwalk : ∀ i, Walk C w d (run E k C i z)) (hfrag : k.isFragment = true) (i : ℕ) (c : Insn)
    (hinsn : (run E k C i z).insn? = some c) : c.opcode ≠ some .reass := by
  intro hop
  have hi : i < n := by
    by_contra hle
    have hexit := run_of_exit h.exit (not_lt.1 hle)
    unfold Chk.insn? at hinsn
    split_ifs at hinsn with hin
    exact absurd (hin.1.symm.trans hexit) nofun
  generalize hf : (run E k C i z).f = f
  have hmem : f ∈ rulesOf (CountsTwice E k) E k C z n :=
    mem_rulesOf.2 ⟨i, hi, does_countsTwice.2 ⟨c, hinsn, hop, hfrag⟩, hf⟩
  have hpos := List.count_pos_iff.2 hmem
  have hle := (@count_rulesOf _ E k C z f n).2
  have hone : (rulesOf (Settles E k) E k C z n).count f ≤ 1 := by
    rw [h.verdict.2]
    exact List.count_le_length
  have hcount : (rulesOf (CountsTwice E k) E k C z n).count f = 1 := by omega
  have hpcnt := (@conclude_stats _ E k C z w d f n hz hwalk h.exit).1
  rw [h.pcnt, hcount, BitVec.ofNat_add, ← BitVec.add_assoc] at hpcnt
  exact absurd (BitVec.self_eq_add_right.1 hpcnt) (by decide)

/-- The walk of a packet in a reachable state. -/
theorem Sys.Reach.walks (h : σ.Reach K loopCond) (hz : Start σ E z)
    (hok : ∀ i, loopCond E k σ.rs.chain σ.rs.words (run E k σ.rs.chain i z)) :
    ∃ w, (∀ n, Walk σ.rs.chain w σ.rs.defaultRule (run E k σ.rs.chain n z)) ∧
      ∃ n, (run E k σ.rs.chain n z).pc = .exit := by
  obtain ⟨w, hσ⟩ := h.good
  obtain ⟨hE, hs⟩ := hz.walk hσ
  have hok' : ∀ i, LoopOk E k σ.rs.chain w (run E k σ.rs.chain i z) :=
    fun i => (hok i).of_unchanged hσ.rs.words
  exact ⟨w, fun n => walk_run hσ.rs.ready hE hs fun i _ => hok' i,
    exists_exit hσ.rs.ready hE hs hok'⟩

/-- The rule 100 is `reass`. -/
def reassRules : Ruleset := (Ruleset.init false).step (.add (actionRule 100 .reass 0) true true)

theorem reassRules_reach {P : RoundCond} : Sys.Reach default P ⟨reassRules, ∅⟩ := by
  have h : RuleOp.Accepted default (.add (actionRule 100 .reass 0) true true) :=
    ⟨actionRule 100 .reass 0, (actionRule 100 .reass 0).ruleSize, rfl⟩
  have hid : (1 : BitVec 32) ≤ 1 + 1 := by decide
  exact .next (.init false) (.op _ h hid)

theorem reassRules_start : Start ⟨reassRules, ∅⟩ (dynEnv none) reassRules.chk :=
  Ruleset.chk_start nofun rfl

/-- There is no `O_LOG`, and there are no dynamic rules. -/
theorem reassRules_loop {k : Hdr}
    (hexit : (run (dynEnv none) k reassRules.chain 4 reassRules.chk).pc = .exit)
    (hop : ∀ i < 4, (Insn.ofWord ((run (dynEnv none) k reassRules.chain i reassRules.chk).words
      (run (dynEnv none) k reassRules.chain i reassRules.chk).f
      (run (dynEnv none) k reassRules.chain i reassRules.chk).cmd)).opcode ≠ some .log) (i : ℕ) :
    loopCond (dynEnv none) k reassRules.chain reassRules.words
      (run (dynEnv none) k reassRules.chain i reassRules.chk) := by
  refine ⟨fun hpc _ _ hlog => ?_, fun _ _ _ g hg => absurd hg.2.2 nofun⟩
  rcases Nat.lt_or_ge i 4 with hi | hi
  · exact absurd hlog (hop i hi)
  · rw [run_of_exit hexit hi] at hpc
    cases hpc

/-- A fragment: `IP_MF` is set. -/
def fragment : Hdr := { (default : Hdr) with byte := fun i => if i = 6 then 0x20 else 0 }

end Ipfw
