import Dummynet.Ipfw.State

/-!
# Accepted rules

What the check of a rule establishes. The instructions that it has visited follow each other from
the start of the rule to its end, each is of a known size, and the last one is the action.

## Main definitions

* `Boundary`: an instruction that the check visits.
* `Fits`: an instruction is accepted, and ends with the rule exactly if it is the action.
* `Loaded`: the rules of a chain are accepted.

## Main results

* `checkLoop_spec`, `Loaded.fits`: every instruction of an accepted rule fits.
* `Boundary.disjoint`: instructions do not overlap.
-/

namespace Ipfw

/-- The length of the instruction at `p`. -/
def lenAt (w : ℕ → BitVec 32) (p : ℕ) : ℕ := (Insn.ofWord (w p)).fLen

/-- The check, at `p` with `e` the end of the rule, comes to an instruction at `q`. -/
inductive Boundary (w : ℕ → BitVec 32) (e : ℕ) : ℕ → ℕ → Prop
  | here {p : ℕ} : p < e → Boundary w e p p
  | step {p q : ℕ} : p < e → Boundary w e (p + lenAt w p) q → Boundary w e p q

variable {K : Kernel} {w w' : ℕ → BitVec 32} {e p q : ℕ}

namespace Boundary

theorem lt (h : Boundary w e p q) : q < e := by
  induction h with
  | here h => exact h
  | step _ _ ih => exact ih

theorem le (h : Boundary w e p q) : p ≤ q := by
  induction h with
  | here => exact le_rfl
  | step _ _ ih => omega

/-- The check goes on with the next instruction. -/
theorem next (h : Boundary w e p q) (he : q + lenAt w q < e) :
    Boundary w e p (q + lenAt w q) := by
  induction h with
  | here h => exact .step h (.here he)
  | step h _ ih => exact .step h (ih he)

/-- Only the lengths of the instructions matter. -/
theorem congr_len (h : Boundary w e p q) (hw : ∀ x, Boundary w e p x → lenAt w' x = lenAt w x) :
    Boundary w' e p q := by
  induction h with
  | here h => exact .here h
  | @step p q h hrest ih =>
    refine .step h ?_
    rw [hw p (.here h)]
    exact ih fun x hx => hw x (.step h hx)

/-- Two rules whose instructions have the same lengths have the same instructions. -/
theorem congr_len_iff (hw : ∀ x, Boundary w e p x → lenAt w' x = lenAt w x) :
    Boundary w' e p q ↔ Boundary w e p q := by
  refine ⟨fun h => ?_, fun h => h.congr_len hw⟩
  induction h with
  | here h => exact .here h
  | @step p q h hrest ih =>
    rw [hw p (.here h)] at ih
    exact .step h (ih fun x hx => hw x (.step h hx))

/-- Only the first words of the instructions matter. -/
theorem congr (h : Boundary w e p q) (hw : ∀ x, Boundary w e p x → w' x = w x) :
    Boundary w' e p q :=
  h.congr_len fun x hx => by rw [lenAt, lenAt, hw x hx]

/-- Two rules whose instructions have the same first words have their instructions in common. -/
theorem congr_iff (hw : ∀ x, Boundary w e p x → w' x = w x) :
    Boundary w' e p q ↔ Boundary w e p q :=
  congr_len_iff fun x hx => by rw [lenAt, lenAt, hw x hx]

/-- Between two instructions there is room for the first one. -/
theorem disjoint {x : ℕ} (h : Boundary w e p q) (hx : Boundary w e p x) (hlt : x < q) :
    x + lenAt w x ≤ q := by
  induction hx with
  | here =>
    cases h with
    | here => omega
    | step _ h => exact h.le
  | step _ hx ih =>
    cases h with
    | here => exact absurd hx.le (by omega)
    | step _ h => exact ih h hlt

end Boundary

/-- The instruction at `q` is accepted and lies within the rule, and it is the action exactly if it
ends with the rule. -/
def Fits (K : Kernel) (w : ℕ → BitVec 32) (e q : ℕ) : Prop :=
  ∃ x, checkInsn K (.ofWord (w q)) = .ok x ∧ q + lenAt w q ≤ e ∧
    (x = .action ↔ q + lenAt w q = e)

theorem Fits.congr (h : Fits K w e q) (hw : w' q = w q) : Fits K w' e q := by
  rw [Fits, lenAt, hw]
  exact h

theorem require_bind {α : Type} {b : Bool} {err : CheckErr} {y : Except CheckErr α} {x : α} :
    (do require b err; y) = .ok x ↔ b = true ∧ y = .ok x := by
  cases b
  · exact iff_of_false (fun h => by cases h) (by simp)
  · exact ⟨fun h => ⟨rfl, h⟩, fun h => h.2⟩

theorem ok_bind {α β : Type} (x : α) (y : α → Except CheckErr β) : (.ok x >>= y) = y x := rfl

/-- **The loop of the check.** If it succeeds, it has changed nothing before its position and only
operands after it, and every instruction that it has visited fits. -/
theorem checkLoop_spec {n : ℕ} :
    ∀ {w w' : ℕ → BitVec 32} {l p : ℕ} {ha : Bool}, checkLoop K n w l p ha = .ok w' → l ≤ n →
      (ha = true → l = 0) →
      (∀ x, x < p → w' x = w x) ∧ (∀ q, Boundary w' (p + l) p q → w' q = w q) ∧
        (∀ q, Boundary w' (p + l) p q → Fits K w' (p + l) q) ∧ (ha = false → 0 < l) := by
  induction n with
  | zero =>
    intro w w' l p ha h hl hha
    obtain rfl : l = 0 := by omega
    rw [checkLoop, require_bind] at h
    obtain ⟨hact, h⟩ := h
    obtain rfl := Except.ok.inj h
    refine ⟨fun _ _ => rfl, fun _ _ => rfl, fun q hq => absurd hq.le (by have := hq.lt; omega), ?_⟩
    simp [hact]
  | succ n ih =>
    intro w w' l p ha h hl hha
    rw [checkLoop] at h
    split_ifs at h with h0
    · subst h0
      rw [require_bind] at h
      obtain ⟨hact, h⟩ := h
      obtain rfl := Except.ok.inj h
      refine ⟨fun _ _ => rfl, fun _ _ => rfl, fun q hq => absurd hq.le (by have := hq.lt; omega),
        ?_⟩
      simp [hact]
    · have hfalse : ha = false := by
        cases ha
        · rfl
        · exact absurd (hha rfl) h0
      subst hfalse
      rw [require_bind] at h
      obtain ⟨hlen, h⟩ := h
      have hlen : lenAt w p ≤ l := of_decide_eq_true hlen
      cases hchk : checkInsn K (.ofWord (w p)) with
      | error err =>
        rw [hchk] at h
        cases h
      | ok x =>
        have hpos : 0 < lenAt w p := fLen_pos_of_checkInsn hchk
        have hend : p + lenAt w p + (l - lenAt w p) = p + l := by omega
        rw [hchk] at h
        -- the rest of the loop, on a rule that agrees with this one up to an operand
        have key : ∀ {v : ℕ → BitVec 32} {hb : Bool}, v p = w p →
            (∀ y, p + lenAt w p ≤ y → v y = w y) → (∀ y, y < p → v y = w y) →
            (hb = true → l - lenAt w p = 0) → (x = .action ↔ hb = true) →
            checkLoop K n v (l - lenAt w p) (p + lenAt w p) hb = .ok w' →
            (∀ y, y < p → w' y = w y) ∧ (∀ q, Boundary w' (p + l) p q → w' q = w q) ∧
              (∀ q, Boundary w' (p + l) p q → Fits K w' (p + l) q) := by
          intro v hb hvp hv hv0 hhb hx h
          obtain ⟨h1, h2, h3, h4⟩ := ih h (by omega) hhb
          rw [hend] at h2 h3
          have hp : w' p = w p := (h1 p (by omega)).trans hvp
          have hlen' : lenAt w' p = lenAt w p := by rw [lenAt, hp, lenAt]
          refine ⟨fun y hy => (h1 y (by omega)).trans (hv0 y hy), fun q hq => ?_, fun q hq => ?_⟩
          · cases hq with
            | here => exact hp
            | step _ hq =>
              rw [hlen'] at hq
              exact (h2 q hq).trans (hv q hq.le)
          · cases hq with
            | here =>
              refine ⟨x, by rw [hp]; exact hchk, by omega, ?_⟩
              rw [hx, hlen']
              constructor
              · intro hb'
                have := hhb hb'
                omega
              · intro he
                by_contra hb'
                have := h4 (by simpa using hb')
                omega
            | step _ hq =>
              rw [hlen'] at hq
              exact h3 q hq
        cases x with
        | pattern =>
          have hlog : (Insn.ofWord (w p)).opcode = some .log → lenAt w p = 3 := by
            intro hop
            unfold checkInsn at hchk
            rw [hop] at hchk
            simp only [require_bind] at hchk
            simpa [lenAt] using hchk.1
          rw [ok_bind] at h
          have hv : ∀ y, (y < p ∨ y = p ∨ p + lenAt w p ≤ y) →
              (if (Insn.ofWord (w p)).opcode = some .log
                then Function.update w (p + 2) (w (p + 1)) else w) y = w y := by
            intro y hy
            split_ifs with hop
            · have := hlog hop
              exact Function.update_of_ne (by omega) _ _
            · rfl
          obtain ⟨h1, h2, h3⟩ := key (hv p (.inr (.inl rfl))) (fun y hy => hv y (.inr (.inr hy)))
            (fun y hy => hv y (.inl hy)) (by simp) (by simp) h
          exact ⟨h1, h2, h3, fun _ => by omega⟩
        | action =>
          rw [ok_bind, Bool.not_false] at h
          simp only [require_bind] at h
          obtain ⟨-, hl0, h⟩ := h
          have hl0 : l = lenAt w p := eq_of_beq hl0
          obtain ⟨h1, h2, h3⟩ := key rfl (fun _ _ => rfl) (fun _ _ => rfl)
            (by omega) (by simp) h
          exact ⟨h1, h2, h3, fun _ => by omega⟩

/-- What the interpreter reads of a rule besides its instructions. -/
def IpFw.rule (r : IpFw) : Rule := ⟨r.actOfs, r.cmdLen, r.rulenum, r.set, r.id⟩

/-- The rules of the chain `C`, with their instructions in `w`, are as the check has left them. -/
def Loaded (K : Kernel) (C : Chain) (w : RulePtr → ℕ → BitVec 32) : Prop :=
  ∀ f, ∃ r size r', checkIpfwStruct K r size = .ok r' ∧ C.rule f = r'.rule ∧ w f = r'.cmd

/-- An instruction of the rule `f` that the check has visited. -/
def Visited (C : Chain) (w : RulePtr → ℕ → BitVec 32) (f : RulePtr) (p : ℕ) : Prop :=
  Boundary (w f) (C.rule f).cmdLen.toNat 0 p

namespace Loaded

variable {C : Chain} {w : RulePtr → ℕ → BitVec 32} {f : RulePtr}

theorem accepted (h : Loaded K C w) (f : RulePtr) :
    (C.rule f).actOfs.toNat < (C.rule f).cmdLen.toNat ∧
      ∀ q, Visited C w f q → Fits K (w f) (C.rule f).cmdLen.toNat q := by
  obtain ⟨r, size, r', hr, hrule, hw⟩ := h f
  rw [checkIpfwStruct, require_bind, require_bind, require_bind] at hr
  obtain ⟨-, -, hact, hr⟩ := hr
  cases hloop : checkLoop K r.cmdLen.toNat r.cmd r.cmdLen.toNat 0 false with
  | error err =>
    rw [hloop] at hr
    cases hr
  | ok cmd =>
    rw [hloop] at hr
    obtain rfl := Except.ok.inj hr
    obtain ⟨-, -, hfits, -⟩ := checkLoop_spec hloop le_rfl (by simp)
    rw [Nat.zero_add] at hfits
    refine ⟨?_, fun q hq => ?_⟩
    · rw [hrule]
      exact of_decide_eq_true hact
    · rw [Visited, hrule, hw] at hq
      rw [hrule, hw]
      exact hfits q hq

theorem actOfs_lt (h : Loaded K C w) (f : RulePtr) :
    (C.rule f).actOfs.toNat < (C.rule f).cmdLen.toNat := (h.accepted f).1

theorem fits (h : Loaded K C w) (hq : Visited C w f q) :
    Fits K (w f) (C.rule f).cmdLen.toNat q := (h.accepted f).2 q hq

/-- A rule has a first instruction. -/
theorem visited_zero (h : Loaded K C w) (f : RulePtr) : Visited C w f 0 :=
  .here (by have := h.actOfs_lt f; omega)

end Loaded

end Ipfw
