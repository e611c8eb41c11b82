import Dummynet.Ipfw.Action
import Dummynet.Ipfw.Checker

/-!
# The uses of accepted rules

The kernel evaluates the rules for packets and resets their counters. The memory of the rules is
shared by all these uses.

## Main definitions

* `clearCounters`: the reset of the counters of a rule, which looks at `ACTION_PTR`.
* `Use`: the evaluation of rules for one packet, or the reset of a rule.
* `BoundedUses`: a history of uses in which all accesses are in bounds and no packet panics.

## Main results

* `bounded_iff`: the check is sound for exactly the histories in which `ACTION_PTR` is an
  instruction where it matters, and the instructions that the check is too lax about are in order.
-/

namespace Ipfw

variable {Δ : Type} {E : Env Δ} {k : Hdr} {C : Chain} {s : Chk Δ} {K : Kernel}
  {w : RulePtr → ℕ → BitVec 32} {f : RulePtr} {n : ℕ}

/-! ### The reset of the counters -/

/-- `clear_counters` of the rule `f`. -/
def clearCounters (C : Chain) (f : RulePtr) (logOnly : Bool) (s : Chk Δ) : Ev Δ (Chk Δ) := do
  let s := if logOnly then s else { s with stats := Function.update s.stats f ⟨0, 0, 0⟩ }
  let p := (C.rule f).actOfs.toNat
  let c ← insnAt s.words f p
  if c.opcode = some .log then
    let maxLog ← wordAt s.words f p 1
    Reads.touch fun _ => .word f p 2
    return { s with
      words := Function.update s.words f (Function.update (s.words f) (p + 2) maxLog) }
  else return s

theorem clearCounters_words (C : Chain) (f : RulePtr) (logOnly : Bool) (s : Chk Δ) :
    ((clearCounters C f logOnly s).val s).words = s.words ∨
    (Insn.ofWord (s.words f (C.rule f).actOfs.toNat)).opcode = some .log ∧
      ((clearCounters C f logOnly s).val s).words = Function.update s.words f
        (Function.update (s.words f) ((C.rule f).actOfs.toNat + 2)
          (s.words f ((C.rule f).actOfs.toNat + 1))) := by
  have hwords : ∀ t : Chk Δ, (if logOnly then s else
      { s with stats := Function.update s.stats f ⟨0, 0, 0⟩ }) = t → t.words = s.words := by
    rintro t rfl
    split_ifs <;> rfl
  simp only [clearCounters, insnAt, wordAt, Reads.val_bind, Reads.val_read, Reads.val_pure,
    Reads.val_ite, Nat.add_zero]
  generalize ht : (if logOnly then s else
      { s with stats := Function.update s.stats f ⟨0, 0, 0⟩ }) = t
  rw [hwords t ht]
  split_ifs with hlog
  · exact .inr ⟨hlog, rfl⟩
  · exact .inl (hwords t ht)

section
variable (hload : Loaded K C w)
include hload

/-- The reset of the counters stays within an instruction if there is one at `ACTION_PTR`. -/
theorem within_clearCounters_iff {logOnly : Bool} (hw : Intact C w s) :
    Reads.Within (InBounds C w) s (clearCounters C f logOnly s) ↔
      Visited C w f (C.rule f).actOfs.toNat := by
  have hwords : (if logOnly then s else
      { s with stats := Function.update s.stats f ⟨0, 0, 0⟩ }).words = s.words := by
    split_ifs <;> rfl
  simp only [clearCounters, insnAt, wordAt, Reads.within_bind, Reads.within_read,
    Reads.within_pure, Reads.val_bind, Reads.val_read, Reads.val_pure, Reads.within_ite,
    Reads.within_touch, Nat.add_zero, and_true, implies_true, hwords]
  refine ⟨fun h => h.1.1, fun hv => ⟨inBounds_zero hload hv, fun hlog => ?_⟩⟩
  obtain ⟨x, hx, -, -⟩ := hload.fits hv
  rw [hw f _ hv] at hlog
  have hlen : lenAt (w f) (C.rule f).actOfs.toNat = 3 := by
    unfold checkInsn at hx
    rw [hlog] at hx
    simp only [require_bind, beq_iff_eq] at hx
    exact hx.1
  constructor <;> rw [inBounds_iff hload hv, hlen] <;> omega

theorem clearCounters_intact {logOnly : Bool} (hw : Intact C w s)
    (hv : Visited C w f (C.rule f).actOfs.toNat) :
    Intact C w ((clearCounters C f logOnly s).val s) := by
  intro g q hq
  rcases clearCounters_words C f logOnly s with h | ⟨hlog, h⟩
  · rw [h, hw g q hq]
  · rw [h]
    rcases eq_or_ne g f with rfl | hg
    · rw [Function.update_self]
      obtain ⟨x, hx, -, -⟩ := hload.fits hv
      rw [hw g _ hv] at hlog
      have hlen : lenAt (w g) (C.rule g).actOfs.toNat = 3 := by
        unfold checkInsn at hx
        rw [hlog] at hx
        simp only [require_bind, beq_iff_eq] at hx
        exact hx.1
      rw [Function.update_of_ne, hw g q hq]
      rintro rfl
      exact not_visited_of_lt hv (by omega) (by omega) hq
    · rw [Function.update_of_ne hg, hw g q hq]

end

/-! ### Runs of the interpreter -/

theorem run_succ' : run E k C (n + 1) s = (step E k C (run E k C n s)).val (run E k C n s) := by
  induction n generalizing s with
  | zero => rfl
  | succ n ih => exact ih

theorem Entry.inv (hload : Loaded K C w) (hs : Entry C s) (hw : Intact C w s) : Inv C w s := by
  rcases hs with h | ⟨hpc, hcmd, hl⟩
  · exact ⟨hw, fun h' => absurd (h.symm.trans h') nofun, by simp [h]⟩
  · refine ⟨hw, fun _ _ => ⟨hl, ?_⟩, by simp [hpc]⟩
    rcases hcmd with h | h
    · rw [h]
      exact .inl (hload.visited_zero _)
    · exact .inr h

/-- The invariant holds as long as the conditions on the instructions hold. -/
theorem run_inv (hload : Loaded K C w) (hs : Inv C w s)
    (hok : ∀ i < n, StepOk E k C w (run E k C i s)) : Inv C w (run E k C n s) := by
  induction n with
  | zero => exact hs
  | succ n ih =>
    rw [run_succ']
    exact step_inv hload (ih fun i hi => hok i (by omega)) (hok n (by omega))

/-! ### Histories -/

/-- A use of the rules of `C`: some rounds of the interpreter for a packet, from the state `s` on but
with the memory of the rules as it is then, or the reset of a rule. -/
inductive Use (Δ : Type) (C : Chain)
  | packet (E : Env Δ) (k : Hdr) (s : Chk Δ) (hs : Entry C s) (n : ℕ)
  | clear (f : RulePtr) (logOnly : Bool) (s : Chk Δ)

namespace Use

/-- The memory of the rules after a use. -/
def after (m : RulePtr → ℕ → BitVec 32) : Use Δ C → RulePtr → ℕ → BitVec 32
  | packet E k s _ n => (run E k C n { s with words := m }).words
  | clear f logOnly s =>
    ((clearCounters C f logOnly { s with words := m }).val { s with words := m }).words

/-- All accesses of a use are to words of instructions that the check has visited, and it does not
panic. -/
def Bounded (w m : RulePtr → ℕ → BitVec 32) : Use Δ C → Prop
  | packet E k s _ n =>
    ∀ i < n, (∀ x ∈ accesses E k C (run E k C i { s with words := m }), InBounds C w x) ∧
      (run E k C (i + 1) { s with words := m }).pc ≠ .panic
  | clear f logOnly s =>
    Reads.Within (InBounds C w) { s with words := m }
      (clearCounters C f logOnly { s with words := m })

/-- The conditions on a use. -/
def Ok (w m : RulePtr → ℕ → BitVec 32) : Use Δ C → Prop
  | packet E k s _ n => ∀ i < n, StepOk E k C w (run E k C i { s with words := m })
  | clear f _ _ => Visited C w f (C.rule f).actOfs.toNat

end Use

/-- The check has left the first words of the instructions as they are in `m`. -/
def Unchanged (C : Chain) (w m : RulePtr → ℕ → BitVec 32) : Prop :=
  ∀ f p, Visited C w f p → m f p = w f p

/-- All uses of a history are in bounds. -/
def BoundedUses (w : RulePtr → ℕ → BitVec 32) :
    (RulePtr → ℕ → BitVec 32) → List (Use Δ C) → Prop
  | _, [] => True
  | m, u :: us => u.Bounded w m ∧ BoundedUses w (u.after m) us

/-- All uses of a history meet the conditions. -/
def OkUses (w : RulePtr → ℕ → BitVec 32) : (RulePtr → ℕ → BitVec 32) → List (Use Δ C) → Prop
  | _, [] => True
  | m, u :: us => u.Ok w m ∧ OkUses w (u.after m) us

variable {m : RulePtr → ℕ → BitVec 32} {u : Use Δ C}

theorem Use.bounded_iff (hload : Loaded K C w) (hm : Unchanged C w m) :
    u.Bounded w m ↔ u.Ok w m := by
  cases u with
  | packet E k s hs n =>
    have hinv : Inv C w { s with words := m } := Entry.inv hload hs hm
    constructor
    · intro h i
      induction i using Nat.strong_induction_on with
      | _ i ih =>
        intro hi
        have hinv := run_inv hload hinv fun j hj => ih j hj (by omega)
        exact (within_step_iff hload hinv).1 (h i hi).1
    · intro h i hi
      refine ⟨(within_step_iff hload (run_inv hload hinv fun j hj => h j (by omega))).2 (h i hi), ?_⟩
      exact (run_inv hload hinv fun j hj => h j (by omega)).panic
  | clear f logOnly s => exact within_clearCounters_iff hload hm

/-- A use that meets the conditions does not write to the first word of an instruction. -/
theorem Use.unchanged_after (hload : Loaded K C w) (hm : Unchanged C w m) (hu : u.Ok w m) :
    Unchanged C w (u.after m) := by
  cases u with
  | packet E k s hs n => exact (run_inv hload (Entry.inv (s := { s with words := m }) hload hs hm) hu).intact
  | clear f logOnly s => exact clearCounters_intact hload (s := { s with words := m }) hm hu

theorem boundedUses_iff_of_unchanged (hload : Loaded K C w) (us : List (Use Δ C))
    (hm : Unchanged C w m) : BoundedUses w m us ↔ OkUses w m us := by
  induction us generalizing m with
  | nil => exact Iff.rfl
  | cons u us ih =>
    rw [BoundedUses, OkUses, Use.bounded_iff hload hm]
    exact and_congr_right fun hu => ih (u.unchanged_after hload hm hu)

/-- **Soundness of the check.** In a history of packets and resets of accepted rules, all accesses
are to words of instructions that the check has visited, within the instruction and the rule, and no
packet panics, exactly if every use meets the conditions. -/
theorem boundedUses_iff (hload : Loaded K C w) (us : List (Use Δ C)) :
    BoundedUses w w us ↔ OkUses w w us :=
  boundedUses_iff_of_unchanged hload us fun _ _ _ => rfl

/-- A rule that keeps state: `probe-state`, the test of a source address, `keep-state` and `allow`. -/
def stateRule (actOfs : BitVec 16) : IpFw :=
  { (default : IpFw) with
    cmdLen := 5
    actOfs := actOfs
    cmd := fun p =>
      if p = 0 then Opcode.probeState.word 1 0
      else if p = 1 then Opcode.ipSrc.word 2 0
      else if p = 2 then 0x000000ff#32
      else if p = 3 then Opcode.keepState.word 1 0
      else Opcode.accept.word 1 0 }

/-- The code that the interpreter calls, with a dynamic rule of the rule 0. -/
def hitEnv : Env Unit :=
  { (default : Env Unit) with lookupDynRule := fun _ _ d => (some 0, .forward, d) }

theorem loaded_single {r : IpFw} (h : checkIpfwStruct K r r.ruleSize = .ok r) :
    Loaded K (.single r) fun _ => r.cmd :=
  fun _ => ⟨r, r.ruleSize, r, h, rfl, rfl⟩

/-- With `ACTION_PTR` at the action, everything is in bounds. -/
theorem boundedUses_of_action :
    BoundedUses (C := .single (stateRule 4)) (fun _ => (stateRule 4).cmd)
      (fun _ => (stateRule 4).cmd)
      [.packet hitEnv default (startOf (stateRule 4) []) (.inr ⟨rfl, .inl rfl, rfl⟩) 3,
        .clear 0 false (startOf (stateRule 4) [])] := by
  have hlast : Boundary (stateRule 4).cmd 5 4 4 := .here (by decide)
  have hv : ∀ f, Visited (.single (stateRule 4)) (fun _ => (stateRule 4).cmd) f 4 := fun _ =>
    (.step (by decide) (.step (by decide) (.step (by decide) hlast)) :
      Boundary (stateRule 4).cmd 5 0 4)
  refine (boundedUses_iff (K := default) (loaded_single rfl) _).2
    ⟨fun i hi _ _ => ⟨fun h => h ▸ hv _, fun _ => ?_⟩, hv 0, trivial⟩
  set t := run hitEnv default (.single (stateRule 4)) i
    { startOf (stateRule 4) [] with words := fun _ => (stateRule 4).cmd } with ht
  have hop : (Insn.ofWord (t.words t.f t.cmd)).opcode ≠ some .ip6SrcMask ∧
      (Insn.ofWord (t.words t.f t.cmd)).opcode ≠ some .ip6DstMask ∧
      (Insn.ofWord (t.words t.f t.cmd)).opcode ≠ some .log := by
    rw [ht]
    obtain rfl | rfl | rfl : i = 0 ∨ i = 1 ∨ i = 2 := by omega
    all_goals decide +kernel
  exact ⟨fun h => absurd h hop.1, fun h => absurd h hop.2.1, fun h => absurd h hop.2.2,
    fun g _ => hv g⟩

/-- The check accepts the rule with `ACTION_PTR` in the middle of the second instruction. A packet
that hits a dynamic rule panics then. -/
theorem not_boundedUses_of_operand :
    Loaded default (.single (stateRule 2)) (fun _ => (stateRule 2).cmd) ∧
    ¬ BoundedUses (C := .single (stateRule 2)) (fun _ => (stateRule 2).cmd)
      (fun _ => (stateRule 2).cmd)
      [.packet hitEnv default (startOf (stateRule 2) []) (.inr ⟨rfl, .inl rfl, rfl⟩) 2] := by
  refine ⟨loaded_single rfl, fun h => ?_⟩
  exact (h.1 1 (by decide)).2 (by decide +kernel)

end Ipfw
