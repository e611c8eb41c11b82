import Dummynet.Ipfw.Nat
import Dummynet.Ipfw.Resume

/-!
# Cached NAT instances

`O_NAT` keeps a pointer to the instance that it has found in its last two words, and the requests that
change instances clear the pointers with `flush_nat_ptrs`. The words come with the rule from user space,
and `flush_nat_ptrs` looks only at `ACTION_PTR`.

## Main definitions

* `CacheOp`, `NatSys.cacheStep`: requests for instances, changes of the ruleset and packets.
* `NatSys.CacheLive`: the cached pointers are those of instances in the list.
* `RuleReady`: the conditions on a new rule.

## Main results

* `step_live`: one round of the interpreter.
* `NatSys.cacheLive_of_run`: the cached pointers are live in runs whose rules meet the conditions.
-/

namespace Ipfw

/-- What can happen: a request for an instance arrives or goes on, the ruleset changes, or `n` rounds of
the evaluation of a packet are made. -/
inductive CacheOp (Δ : Type)
  | nat (op : NatOp)
  | rule (op : RuleOp)
  | packet (E : Env Δ) (k : Hdr) (z : Chk Δ) (n : ℕ)

/-- The conditions on a new rule: `ACTION_PTR` is one of its instructions; this one has room for an
`O_LOG` and is no `O_NAT` if the rule has an `O_LOG`; and an `O_NAT` is at `ACTION_PTR`, without a
pointer. -/
structure RuleReady (r : IpFw) : Prop where
  act : Boundary r.cmd r.cmdLen.toNat 0 r.actOfs.toNat
  log : ∀ p, Boundary r.cmd r.cmdLen.toNat 0 p → (r.insn p).opcode = some .log →
    3 ≤ lenAt r.cmd r.actOfs.toNat ∧ (r.insn r.actOfs.toNat).opcode ≠ some .nat
  nat : ∀ p, Boundary r.cmd r.cmdLen.toNat 0 p → (r.insn p).opcode = some .nat →
    p = r.actOfs.toNat ∧ natPtrAt r.cmd p = 0

variable {Δ : Type}

/-- The condition on an operation. -/
def CacheOp.Ready : CacheOp Δ → Prop
  | .rule (.add r _ _) => RuleReady r
  | .rule _ | .nat _ | .packet _ _ _ _ => True

namespace NatSys

/-- The interpreter finds the instances that are in the list. -/
def env (σ : NatSys) (E : Env Δ) : Env Δ := { E with lookupNat := lookupNat σ.inst σ.nat }

/-- The start of `ipfw_chk`. -/
def start (σ : NatSys) (z : Chk Δ) : Chk Δ :=
  { z with
    pc := .outer
    fPos := startPos σ.rs.chain z.ref
    words := σ.rs.words
    cache := σ.rs.cache
    done := false
    dynDir := .unknown }

/-- Rounds of the evaluation of a packet. -/
def packet (σ : NatSys) (E : Env Δ) (k : Hdr) (z : Chk Δ) (n : ℕ) : NatSys :=
  let s := run (σ.env E) k σ.rs.chain n (σ.start z)
  { σ with rs := { σ.rs with words := s.words, cache := s.cache } }

/-- One step. -/
def cacheStep (σ : NatSys) : CacheOp Δ → Option (Unit × NatSys)
  | .nat op => σ.step op
  | .rule op => some ((), { σ with rs := σ.rs.step op })
  | .packet E k z n => some ((), σ.packet E k z n)

/-- Besides what it promises for the requests, the environment adds only rules that are accepted. -/
def CachePromised (K : Kernel) (σ : NatSys) : CacheOp Δ → Prop
  | .nat op => σ.Promised op
  | .rule op => op.Accepted K
  | .packet _ _ _ _ => True

end NatSys

/-- The pointers that are cached in the rules of the chain `C`, with the instructions `w` that the check
has visited, are those of instances in the list that have the ids of their instructions. -/
def PtrsLive (C : Chain) (w : RulePtr → ℕ → BitVec 32) (inst : NatPtr → CfgNat) (nat : List NatPtr)
    (m : RulePtr → ℕ → BitVec 32) : Prop :=
  ∀ f ∈ C.map, ∀ p, Visited C w f p → (Insn.ofWord (w f p)).opcode = some .nat →
    natPtrAt (m f) p ≠ 0 → natPtrAt (m f) p ∈ nat ∧
      (inst (natPtrAt (m f) p)).id = (Insn.ofWord (w f p)).arg1.setWidth 32

/-- **The cached pointers are live.** -/
def NatSys.CacheLive (σ : NatSys) : Prop :=
  PtrsLive σ.rs.chain σ.rs.words σ.inst σ.nat σ.rs.words

variable {E : Env Δ} {k : Hdr} {C C' : Chain} {s t z : Chk Δ} {c : Insn} {K : Kernel}
  {w m : RulePtr → ℕ → BitVec 32} {f g : RulePtr} {p q : ℕ} {inst : NatPtr → CfgNat}
  {nat : List NatPtr} {x : NatPtr}

/-! ### Pointers in instructions -/

theorem natPtrAt_setNatPtr (w : ℕ → BitVec 32) (p : ℕ) (x : NatPtr) :
    natPtrAt (setNatPtr w p x) p = x := by
  have hhi : setNatPtr w p x (p + 3) = x.extractLsb' 32 32 := Function.update_self ..
  have hlo : setNatPtr w p x (p + 2) = x.extractLsb' 0 32 := by
    rw [setNatPtr, Function.update_of_ne (by omega), Function.update_self]
  rw [natPtrAt, hhi, hlo]
  ext i hi
  simp only [BitVec.getElem_append, BitVec.getElem_extractLsb']
  split_ifs with h
  · rw [Nat.zero_add, BitVec.getLsbD_eq_getElem]
  · rw [show 32 + (i - 32) = i by omega, BitVec.getLsbD_eq_getElem]

/-- The first words of instructions are not written. -/
theorem setNatPtr_of_ne {w : ℕ → BitVec 32} (h2 : q ≠ p + 2) (h3 : q ≠ p + 3) :
    setNatPtr w p x q = w q := by
  rw [setNatPtr, Function.update_of_ne h3, Function.update_of_ne h2]

/-- The pointer is the same if its words are. -/
theorem natPtrAt_congr {w w' : ℕ → BitVec 32} (h2 : w' (p + 2) = w (p + 2))
    (h3 : w' (p + 3) = w (p + 3)) : natPtrAt w' p = natPtrAt w p := by
  rw [natPtrAt, natPtrAt, h2, h3]

/-! ### Rounds of the interpreter -/

/-- The rules of the chain `C`, with their instructions in `w`, are accepted and meet the conditions. -/
structure Chain.NatReady (K : Kernel) (C : Chain) (w : RulePtr → ℕ → BitVec 32) : Prop where
  loaded : Loaded K C w
  act : ∀ f, Visited C w f (C.rule f).actOfs.toNat
  log : ∀ f p, Visited C w f p → (Insn.ofWord (w f p)).opcode = some .log →
    3 ≤ lenAt (w f) (C.rule f).actOfs.toNat ∧
      (Insn.ofWord (w f (C.rule f).actOfs.toNat)).opcode ≠ some .nat
  nat : ∀ f p, Visited C w f p → (Insn.ofWord (w f p)).opcode = some .nat →
    p = (C.rule f).actOfs.toNat

/-- `O_NAT` writes nothing, or the instance that it finds. -/
theorem execNat_words :
    ((execNat E C c s).val z).2.words = s.words ∨
      ∃ x, E.lookupNat (s.arg c) = some x ∧ c.arg1 ≠ ipFwTablearg ∧
        ((execNat E C c s).val z).2.words =
          Function.update s.words s.f (setNatPtr (s.words s.f) s.cmd x) := by
  rw [execNat, Reads.val_ite]
  split_ifs
  · exact .inl rfl
  · simp only [execNatLoaded, Reads.val_bind, Reads.val_ite, Reads.val_pure]
    split_ifs
    · exact .inl rfl
    · cases hx : E.lookupNat ((s.setMatch C).arg c) with
      | none => exact .inl rfl
      | some x =>
        simp only [execNatFound, Reads.val_bind, Reads.val_ite, Reads.val_pure]
        split_ifs with htab
        · exact .inr ⟨x, hx, htab, rfl⟩
        · exact .inl rfl

/-- What the instructions other than `O_NAT` write is no pointer. -/
theorem exec_natPtrAt (hC : C.NatReady K w) (hw : Intact C w s) (hv : Visited C w s.f s.cmd)
    (hc : c = .ofWord (s.words s.f s.cmd)) (hne : c.opcode ≠ some .nat)
    (hp : Visited C w f p) (hop : (Insn.ofWord (w f p)).opcode = some .nat) :
    natPtrAt (((exec E k C c s).val z).2.words f) p = natPtrAt (s.words f) p := by
  have hout := exec_outcome (E := E) (k := k) (C := C) (c := c) (s := s) (z := z)
  generalize (exec E k C c s).val z = r at hout ⊢
  cases hout with
  | @stays t hst =>
    -- the word that is counted down is at ACTION_PTR, where there is no O_NAT
    have hsame : ∀ q, q ≠ (C.rule s.f).actOfs.toNat + 2 ∨ f ≠ s.f ∨ c.opcode ≠ some .log →
        t.words f q = s.words f q := by
      intro q hq
      rcases hst.words f q with heq | ⟨hf, ⟨hlog, -, hq'⟩ | ⟨hnat, -⟩⟩
      · exact heq
      · rcases hq with hq | hq | hq
        · exact absurd hq' hq
        · exact absurd hf hq
        · exact absurd hlog hq
      · exact absurd hnat hne
    obtain rfl := hC.nat f p hp hop
    refine natPtrAt_congr (hsame _ ?_) (hsame _ ?_)
    · by_contra hall
      simp only [not_or, not_not] at hall
      obtain ⟨-, rfl, hlog⟩ := hall
      rw [hc, hw _ _ hv] at hlog
      exact (hC.log _ _ hv hlog).2 hop
    · rcases eq_or_ne f s.f with rfl | hf
      · exact .inl (by omega)
      · exact .inr (.inl hf)
  | jump _ hgo => rw [hgo.words]
  | skipto hgo => rw [hgo.words]
  | panic _ => rfl

/-- A round writes what the instruction that is executed writes. -/
theorem step_words :
    ((step E k C s).val s).words = s.words ∨ s.pc = .inner ∧ 0 < s.l ∧ ∃ c t,
      c = .ofWord (s.words s.f s.cmd) ∧ t = { s with cmdlen := c.fLen, matched := false } ∧
        ((step E k C s).val s).words = ((exec E k C c t).val s).2.words := by
  have hleave : ∀ u : Chk Δ, u.leave.words = u.words := by
    intro u
    unfold Chk.leave
    split_ifs <;> rfl
  by_cases hpc : s.pc = .inner
  · by_cases hl : 0 < s.l
    · by_cases hskip : s.skipOr = true
      · rw [step_skip hpc hl hskip rfl]
        refine .inl ?_
        split_ifs <;> rfl
      · refine .inr ⟨hpc, hl, _, _, rfl, rfl, ?_⟩
        rw [step_inner hpc hl, body, Reads.val_bind, val_insnAt, if_neg hskip, Reads.val_bind]
        generalize (exec E k C (.ofWord (s.words s.f s.cmd)) _).val s = r
        obtain ⟨_ | _ | _, u⟩ := r
        · change (u.close (.ofWord (u.words u.f u.cmd))).words = u.words
          rcases close_cases (.ofWord (u.words u.f u.cmd)) u with ⟨m, h⟩ | ⟨m, o, -, h⟩
          · rw [h, hleave]
          · rw [h]
            rfl
        · rfl
        · rfl
    · simp only [step, hpc, if_neg hl, Reads.val_pure]
      exact .inl (hleave s)
  · cases hpc' : s.pc with
    | inner => exact absurd hpc' hpc
    | exit | panic =>
      simp only [step, hpc']
      exact .inl rfl
    | outer =>
      simp only [step, hpc', Reads.val_pure, enter]
      split_ifs <;> exact .inl rfl

/-- The interpreter is at an instruction that the check has visited. -/
theorem Chain.NatReady.visited (hC : C.NatReady K w) (hs : Inv C w s) (hpc : s.pc = .inner)
    (hl : 0 < s.l) : Visited C w s.f s.cmd := by
  rcases (hs.pos hpc hl).2 with h | h
  · exact h
  · rw [h]
    exact hC.act s.f

/-- A round keeps the invariant of the check. -/
theorem Chain.NatReady.step_inv (hC : C.NatReady K w) (hs : Inv C w s) :
    Inv C w ((step E k C s).val s) := by
  refine step_inv_of hC.loaded hs fun hpc hl => ⟨fun hact => ?_, fun _ hop _ => ?_⟩
  · rw [hact]
    exact hC.act s.f
  · have hv := hC.visited hs hpc hl
    rw [hs.intact _ _ hv] at hop
    exact ⟨hC.act s.f, (hC.log _ _ hv hop).1⟩

/-- **One round** of the interpreter keeps the cached pointers live: an `O_NAT` caches the instance that
it has found in the list. -/
theorem step_live (hC : C.NatReady K w) (hs : Inv C w s) (hlook : E.lookupNat = lookupNat inst nat)
    (h : PtrsLive C w inst nat s.words) : PtrsLive C w inst nat ((step E k C s).val s).words := by
  rcases step_words (E := E) (k := k) (C := C) (s := s) with heq | ⟨hpc, hl, c, t, hc, ht, heq⟩
  · rw [heq]
    exact h
  have hv := hC.visited hs hpc hl
  intro f hf p hp hop
  rw [heq]
  by_cases hnat : c.opcode = some .nat
  · have hexec : ((exec E k C c t).val s).2.words = ((execNat E C c t).val s).2.words := by
      simp only [exec, hnat]
    rw [hexec]
    rcases execNat_words (E := E) (C := C) (c := c) (s := t) (z := s) with hsame | ⟨x, hx, htab, hset⟩
    · rw [hsame, ht]
      exact h f hf p hp hop
    · rw [hset, ht]
      rcases eq_or_ne f s.f with rfl | hne
      · have hcmd : p = s.cmd := by
          rw [hc, hs.intact _ _ hv] at hnat
          rw [hC.nat _ _ hp hop, hC.nat _ _ hv hnat]
        subst hcmd
        rw [Function.update_self, natPtrAt_setNatPtr]
        intro _
        have harg : t.arg c = c.arg1.setWidth 32 := if_neg htab
        rw [hlook, harg] at hx
        rw [← hs.intact _ _ hp, ← hc]
        exact NatSys.lookupNat_some hx
      · rw [Function.update_of_ne hne]
        exact h f hf p hp hop
  · have hw' : Intact C w t := by
      rw [ht]
      exact hs.intact
    rw [exec_natPtrAt hC hw' (by rw [ht]; exact hv) (by rw [ht]; exact hc) hnat hp hop, ht]
    exact h f hf p hp hop

/-- **A packet** keeps the cached pointers live. -/
theorem run_live (hC : C.NatReady K w) (hlook : E.lookupNat = lookupNat inst nat) (n : ℕ) :
    ∀ {s : Chk Δ}, Inv C w s → PtrsLive C w inst nat s.words →
      Inv C w (run E k C n s) ∧ PtrsLive C w inst nat (run E k C n s).words := by
  induction n with
  | zero => exact fun hs h => ⟨hs, h⟩
  | succ n ih => exact fun hs h => ih (hC.step_inv hs) (step_live hC hs hlook h)

/-! ### Changes of the ruleset -/

/-- The rules of the ruleset `t` are among those of `s`, with the same instructions. -/
structure Ruleset.Less (s t : Ruleset) : Prop where
  words : t.words = s.words
  map : ∀ f ∈ t.chain.map, f ∈ s.chain.map
  rule : ∀ f, t.chain.rule f = { s.chain.rule f with set := (t.chain.rule f).set }

theorem Ruleset.Less.refl (s : Ruleset) : s.Less s := ⟨rfl, fun _ h => h, fun _ => rfl⟩

theorem Ruleset.Less.visited {s t : Ruleset} (h : s.Less t) :
    Visited t.chain w f p ↔ Visited s.chain w f p := by
  rw [Visited, Visited, h.rule f]

theorem deleteSpan_less (s : Ruleset) (keep : RulePtr → Bool) (p : Span) (all mapOk : Bool) :
    s.Less (deleteSpan s keep p all mapOk).2 := by
  unfold deleteSpan
  dsimp only
  split
  · exact .refl s
  split
  · exact .refl s
  refine ⟨rfl, fun f hf => ?_, fun f => rfl⟩
  rcases List.mem_append.1 hf with hf | hf
  · rcases List.mem_append.1 hf with hf | hf
    · exact List.mem_of_mem_take hf
    · exact List.mem_of_mem_drop (List.mem_of_mem_take (List.mem_of_mem_filter hf))
  · exact List.mem_of_mem_drop hf

theorem mapSets_less (s : Ruleset) (k : Rule → BitVec 8) :
    s.Less { s with chain := s.chain.mapSets k } :=
  ⟨rfl, fun _ h => h, s.chain.mapSets_rule k⟩

/-- **Deletions** leave the remaining rules as they are. -/
theorem delEntry_less (s : Ruleset) (arg : BitVec 32) (mapOk : Bool) :
    s.Less (delEntry s arg mapOk).2 := by
  unfold delEntry
  dsimp only
  split_ifs
  · exact .refl s
  · exact .refl s
  · exact .refl s
  · exact deleteSpan_less ..
  · exact mapSets_less ..
  · exact mapSets_less ..
  · exact mapSets_less ..
  · exact deleteSpan_less ..

/-- What a new rule changes. -/
structure Ruleset.Adds (s : Ruleset) (r : IpFw) (t : Ruleset) : Prop where
  words : t.words = Function.update s.words s.brk r.cmd
  map : ∀ f ∈ t.chain.map, f = s.brk ∨ f ∈ s.chain.map
  rule : ∃ num id, t.chain.rule = Function.update s.chain.rule s.brk
    ⟨r.actOfs, r.cmdLen, num, r.set, id⟩

theorem ipfwAddRule_adds (s : Ruleset) (r : IpFw) (ruleOk mapOk : Bool) :
    (ipfwAddRule s r ruleOk mapOk).2 = s ∨ s.Adds r (ipfwAddRule s r ruleOk mapOk).2 := by
  unfold ipfwAddRule
  dsimp only
  split
  · exact .inl rfl
  split
  · exact .inl rfl
  split
  · exact .inl rfl
  refine .inr ⟨rfl, fun f hf => ?_, _, _, rfl⟩
  rcases List.mem_append.1 hf with hf | hf
  · exact .inr (List.mem_of_mem_take hf)
  · rcases List.mem_cons.1 hf with rfl | hf
    · exact .inl rfl
    · exact .inr (List.mem_of_mem_drop hf)

/-! ### The invariant -/

namespace NatSys

variable {σ τ : NatSys} {t : Ruleset} {r : IpFw} {op : CacheOp Δ}

/-- What holds between the operations, with the instructions of the rules in `w` as the check has left
them. -/
structure Cached (K : Kernel) (w : RulePtr → ℕ → BitVec 32) (σ : NatSys) : Prop where
  owned : σ.Owned
  ready : σ.rs.chain.NatReady K w
  words : Unchanged σ.rs.chain w σ.rs.words
  live : PtrsLive σ.rs.chain w σ.inst σ.nat σ.rs.words

theorem Cached.less (h : σ.Cached K w) (hl : σ.rs.Less t) : ({ σ with rs := t } : NatSys).Cached K w := by
  have hrule : ∀ f, (t.chain.rule f).actOfs = (σ.rs.chain.rule f).actOfs := fun f => by rw [hl.rule f]
  refine ⟨⟨h.owned.nodup, h.owned.hooked, h.owned.held, h.owned.sole⟩,
    ⟨h.ready.loaded.sets hl.rule, fun f => ?_, fun f p hp => ?_, fun f p hp => ?_⟩,
    fun f p hp => ?_, fun f hf p hp => ?_⟩
  · rw [hrule]
    exact hl.visited.2 (h.ready.act f)
  · rw [hrule]
    exact h.ready.log f p (hl.visited.1 hp)
  · rw [hrule]
    exact h.ready.nat f p (hl.visited.1 hp)
  · rw [hl.words]
    exact h.words f p (hl.visited.1 hp)
  · rw [hl.words]
    exact h.live f (hl.map f hf) p (hl.visited.1 hp)

/-- **A new rule** that meets the conditions has no pointer. -/
theorem Cached.adds (h : σ.Cached K w) (ha : σ.rs.Adds r t) (hr : RuleReady r)
    (hacc : ∃ r₀ size, checkIpfwStruct K r₀ size = .ok r) :
    ({ σ with rs := t } : NatSys).Cached K (Function.update w σ.rs.brk r.cmd) := by
  obtain ⟨num, id, hrule⟩ := ha.rule
  obtain ⟨r₀, size, hr₀⟩ := hacc
  have hnew : t.chain.rule σ.rs.brk = ⟨r.actOfs, r.cmdLen, num, r.set, id⟩ := by
    rw [hrule, Function.update_self]
  have hold : ∀ f, f ≠ σ.rs.brk → t.chain.rule f = σ.rs.chain.rule f := fun f hf => by
    rw [hrule, Function.update_of_ne hf]
  have hvnew : ∀ p, Visited t.chain (Function.update w σ.rs.brk r.cmd) σ.rs.brk p ↔
      Boundary r.cmd r.cmdLen.toNat 0 p := fun p => by
    rw [Visited, hnew, Function.update_self]
  have hvold : ∀ f p, f ≠ σ.rs.brk → (Visited t.chain (Function.update w σ.rs.brk r.cmd) f p ↔
      Visited σ.rs.chain w f p) := fun f p hf => by
    rw [Visited, Visited, hold f hf, Function.update_of_ne hf]
  refine ⟨⟨h.owned.nodup, h.owned.hooked, h.owned.held, h.owned.sole⟩,
    ⟨fun f => ?_, fun f => ?_, fun f p hp hop => ?_, fun f p hp hop => ?_⟩,
    fun f p hp => ?_, fun f hf p hp hop => ?_⟩
  all_goals rcases eq_or_ne f σ.rs.brk with rfl | hne
  · exact ⟨_, size, _, checkIpfwStruct_renumber hr₀ num r.set id, hnew, Function.update_self ..⟩
  · rw [hold f hne, Function.update_of_ne hne]
    exact h.ready.loaded f
  · rw [hvnew, hnew]
    exact hr.act
  · rw [hvold _ _ hne, hold f hne]
    exact h.ready.act f
  · rw [Function.update_self] at hop ⊢
    rw [hnew]
    exact hr.log p ((hvnew p).1 hp) hop
  · rw [Function.update_of_ne hne] at hop ⊢
    rw [hold f hne]
    exact h.ready.log f p ((hvold f p hne).1 hp) hop
  · rw [Function.update_self] at hop
    rw [hnew]
    exact (hr.nat p ((hvnew p).1 hp) hop).1
  · rw [Function.update_of_ne hne] at hop
    rw [hold f hne]
    exact h.ready.nat f p ((hvold f p hne).1 hp) hop
  · rw [ha.words, Function.update_self, Function.update_self]
  · rw [ha.words, Function.update_of_ne hne, Function.update_of_ne hne]
    exact h.words f p ((hvold f p hne).1 hp)
  · rw [Function.update_self] at hop
    rw [ha.words, Function.update_self]
    exact fun hptr => absurd (hr.nat p ((hvnew p).1 hp) hop).2 hptr
  · rw [Function.update_of_ne hne] at hop ⊢
    rw [ha.words, Function.update_of_ne hne]
    exact h.live f ((ha.map f hf).resolve_left hne) p ((hvold f p hne).1 hp) hop

/-- **The ruleset changes.** -/
theorem Cached.rule {op : RuleOp} (h : σ.Cached K w) (hacc : op.Accepted K)
    (hr : (CacheOp.rule op : CacheOp Δ).Ready) :
    ∃ w', ({ σ with rs := σ.rs.step op } : NatSys).Cached K w' := by
  cases op with
  | add r ruleOk mapOk =>
    rcases ipfwAddRule_adds σ.rs r ruleOk mapOk with heq | ha
    · exact ⟨w, h.less (by rw [Ruleset.step, heq]; exact .refl _)⟩
    · exact ⟨_, h.adds ha hr hacc⟩
  | del arg mapOk => exact ⟨w, h.less (delEntry_less σ.rs arg mapOk)⟩
  | sets disable enable => exact ⟨w, h.less ⟨rfl, fun _ hf => hf, fun _ => rfl⟩⟩
  | autoinc step => exact ⟨w, h.less ⟨rfl, fun _ hf => hf, fun _ => rfl⟩⟩

theorem Cached.packet (h : σ.Cached K w) (E : Env Δ) (k : Hdr) (z : Chk Δ) (n : ℕ) :
    (σ.packet E k z n).Cached K w := by
  have hstart : Inv σ.rs.chain w (σ.start z) := ⟨h.words, nofun, nofun⟩
  obtain ⟨hinv, hlive⟩ := run_live (E := σ.env E) (k := k) h.ready rfl n hstart h.live
  exact ⟨⟨h.owned.nodup, h.owned.hooked, h.owned.held, h.owned.sole⟩, h.ready, hinv.intact, hlive⟩

/-! ### Requests for instances -/

/-- `flush_nat_ptrs` writes to the last two words of the `O_NAT` at `ACTION_PTR`, or not at all. -/
theorem flushNatPtrs_words (i : BitVec 32) (s : Ruleset) (inst : NatPtr → CfgNat) (f : RulePtr) :
    (flushNatPtrs inst i s).words f = s.words f ∨
      (Insn.ofWord (s.words f (s.chain.rule f).actOfs.toNat)).opcode = some .nat ∧
        (flushNatPtrs inst i s).words f =
          setNatPtr (s.words f) (s.chain.rule f).actOfs.toNat 0 := by
  unfold flushNatPtrs flushNatPtr
  dsimp only
  split_ifs with hf hc
  · exact .inr ⟨hc.1, rfl⟩
  · exact .inl rfl
  · exact .inl rfl

/-- The pointer of an `O_NAT` at `ACTION_PTR` after `flush_nat_ptrs`: it is not one of an instance with
the id. -/
theorem flushNatPtrs_ptr {i : BitVec 32} {s : Ruleset} (hf : f ∈ s.chain.map)
    (hop : (Insn.ofWord (s.words f (s.chain.rule f).actOfs.toNat)).opcode = some .nat)
    (hne : natPtrAt ((flushNatPtrs inst i s).words f) (s.chain.rule f).actOfs.toNat ≠ 0) :
    (flushNatPtrs inst i s).words f = s.words f ∧
      (inst (natPtrAt (s.words f) (s.chain.rule f).actOfs.toNat)).id ≠ i := by
  have hwords : (flushNatPtrs inst i s).words f =
      flushNatPtr inst i (s.chain.rule f).actOfs.toNat (s.words f) := if_pos hf
  rw [hwords] at hne ⊢
  unfold flushNatPtr at hne ⊢
  split_ifs at hne ⊢ with hc
  · exact absurd (natPtrAt_setNatPtr ..) hne
  · exact ⟨rfl, fun hid => hc ⟨hop, hne, .inr hid⟩⟩

/-- **The pointers are cleared** when an instance is taken out of the list. -/
theorem Cached.unhook (h : σ.Cached K w) {i : BitVec 32} (hmem : x ∈ σ.nat) (hid : (σ.inst x).id = i) :
    Unchanged σ.rs.chain w (σ.unhook i x).rs.words ∧
      PtrsLive σ.rs.chain w σ.inst (σ.nat.erase x) (σ.unhook i x).rs.words := by
  have hact : ∀ f, σ.rs.words f (σ.rs.chain.rule f).actOfs.toNat =
      w f (σ.rs.chain.rule f).actOfs.toNat := fun f => h.words f _ (h.ready.act f)
  refine ⟨fun f q hq => ?_, fun f hf p hp hop => ?_⟩
  · rcases flushNatPtrs_words i σ.rs σ.inst f with heq | ⟨hnat, heq⟩
    · exact (congrFun heq q).trans (h.words f q hq)
    · rw [hact] at hnat
      have hlen := lenAt_of_nat h.ready.loaded (h.ready.act f) hnat
      have hne : ∀ j, 0 < j → j < 4 → q ≠ (σ.rs.chain.rule f).actOfs.toNat + j := by
        rintro j hpos hlt rfl
        exact not_visited_of_lt (h.ready.act f) (by omega) (by omega) hq
      exact (congrFun heq q).trans
        ((setNatPtr_of_ne (hne 2 (by omega) (by omega)) (hne 3 (by omega) (by omega))).trans
          (h.words f q hq))
  · obtain rfl := h.ready.nat f p hp hop
    intro hptr
    obtain ⟨heq, hother⟩ := flushNatPtrs_ptr hf (by rw [hact]; exact hop) hptr
    change (flushNatPtrs σ.inst i σ.rs).words f = σ.rs.words f at heq
    change natPtrAt ((flushNatPtrs σ.inst i σ.rs).words f) _ ∈ _ ∧
      (σ.inst (natPtrAt ((flushNatPtrs σ.inst i σ.rs).words f) _)).id = _
    change natPtrAt ((flushNatPtrs σ.inst i σ.rs).words f) _ ≠ 0 at hptr
    rw [heq] at hptr ⊢
    obtain ⟨hin, hin'⟩ := h.live f hf _ hp hop hptr
    refine ⟨(List.mem_erase_of_ne ?_).2 hin, hin'⟩
    rintro rfl
    exact hother hid

/-- The pointers stay live if the instances in the list stay as they are. -/
theorem PtrsLive_mono {inst' : NatPtr → CfgNat} {nat' : List NatPtr} (h : PtrsLive C w inst nat m)
    (hinst : ∀ x ∈ nat, inst' x = inst x) (hnat : ∀ x ∈ nat, x ∈ nat') :
    PtrsLive C w inst' nat' m := by
  intro f hf p hp hop hptr
  obtain ⟨hin, hid⟩ := h f hf p hp hop hptr
  refine ⟨hnat _ hin, ?_⟩
  rw [hinst _ hin]
  exact hid

/-- **A section of a request** keeps the cached pointers live. -/
theorem Cached.next {j : ℕ} {a : NatAlloc} (h : σ.Cached K w) (hp : σ.Promised (.next j a)) :
    (σ.next j a).Cached K w := by
  have howned := h.owned.next hp
  have hsec := next_cases σ j a
  generalize σ.next j a = τ at hsec howned ⊢
  cases hsec with
  | found htask hmem hid | removed htask hmem hid =>
    obtain ⟨hwords, hlive⟩ := h.unhook hmem hid
    exact ⟨howned, h.ready, hwords, hlive⟩
  | @created ser x htask hnone hptr =>
    refine ⟨howned, h.ready, h.words, PtrsLive_mono h.live (fun y hy => ?_) fun _ hy => hy⟩
    refine Function.update_of_ne ?_ _ _
    rintro rfl
    exact (hp y hptr).2 (h.owned.hooked y hy)
  | failed _ _ | missed _ _ | freed _ => exact ⟨howned, h.ready, h.words, h.live⟩
  | @filled ser x htask =>
    refine ⟨howned, h.ready, h.words, PtrsLive_mono h.live (fun y hy => ?_) fun _ hy => hy⟩
    refine Function.update_of_ne ?_ _ _
    rintro rfl
    exact (h.owned.held j y (held_of_task htask)).2 hy
  | @hooked x htask =>
    exact ⟨howned, h.ready, h.words,
      PtrsLive_mono h.live (fun _ _ => rfl) fun _ hy => List.mem_cons_of_mem x hy⟩
  | idle => exact h

theorem Cached.arrive {j : ℕ} {t : NatTask} (h : σ.Cached K w) (hj : σ.task j = none)
    (ht : t.held = none) : (σ.setTask j t).Cached K w :=
  ⟨h.owned.arrive hj ht, h.ready, h.words, h.live⟩

/-! ### Runs -/

/-- **One operation.** -/
theorem Cached.step {o : Unit} (h : σ.Cached K w) (hp : σ.CachePromised K op) (hr : op.Ready)
    (hst : σ.cacheStep op = some (o, τ)) : ∃ w', τ.Cached K w' := by
  cases op with
  | nat op =>
    cases op with
    | cfg j ser => exact ⟨w, (Prod.mk.inj (Option.some.inj hst)).2 ▸ h.arrive hp rfl⟩
    | del j i => exact ⟨w, (Prod.mk.inj (Option.some.inj hst)).2 ▸ h.arrive hp rfl⟩
    | next j a => exact ⟨w, (Prod.mk.inj (Option.some.inj hst)).2 ▸ h.next hp⟩
  | rule op => exact (Prod.mk.inj (Option.some.inj hst)).2 ▸ h.rule hp hr
  | packet E k z n => exact ⟨w, (Prod.mk.inj (Option.some.inj hst)).2 ▸ h.packet E k z n⟩

theorem Cached.cacheLive (h : σ.Cached K w) : σ.CacheLive := by
  intro f hf p hp hop
  have hv : Visited σ.rs.chain w f p := (Boundary.congr_iff (h.words f)).1 hp
  rw [h.words f p hv] at hop ⊢
  exact h.live f hf p hv hop

theorem cached_init (b : Bool) : (init (.init b)).Cached K (Ruleset.init b).words := by
  have hpos : ∀ {f p}, Visited (Ruleset.init b).chain (Ruleset.init b).words f p → p = 0 := by
    intro f p hp
    have hlt : p < 1 := hp.lt
    omega
  have hop : ∀ f p op, op = .log ∨ op = .nat →
      (Insn.ofWord ((Ruleset.init b).words f p)).opcode ≠ some op := by
    intro f p op hop
    change (Insn.ofWord (if b then Opcode.accept.word 1 0 else Opcode.deny.word 1 0)).opcode ≠ _
    cases b <;> rcases hop with rfl | rfl <;> decide
  exact ⟨owned_init _, ⟨fun f => ⟨_, _, _, checkIpfwStruct_default b, rfl, rfl⟩,
    fun f => .here Nat.zero_lt_one, fun f p _ h => absurd h (hop f p _ (.inl rfl)),
    fun f p _ h => absurd h (hop f p _ (.inr rfl))⟩, fun _ _ _ => rfl,
    fun f _ p _ h => absurd h (hop f p _ (.inr rfl))⟩

/-- **Cached pointers are live** in every run whose new rules meet the conditions: the pointer in an
`O_NAT`, if there is one, is that of an instance in the list with the id of the instruction. -/
theorem cacheLive_of_run {b : Bool} {l : List (CacheOp Δ × Unit)}
    (hrun : Runs.Run cacheStep (fun σ op _ => σ.CachePromised K op ∧ op.Ready) (init (.init b)) l σ) :
    σ.CacheLive := by
  obtain ⟨w, h⟩ := hrun.invariant (I := fun σ => ∃ w, σ.Cached K w)
    (fun _ _ _ _ ⟨_, h⟩ hok hst => h.step hok.1 hok.2 hst) ⟨_, cached_init b⟩
  exact h.cacheLive

/-! ### An instance that is cached, and one that is freed -/

/-- Requests for instances alone are a run. -/
theorem run_of_requests {l : List (NatOp × Unit)}
    (h : Runs.Run NatSys.step (fun σ op _ => σ.Promised op) σ l τ) :
    ∃ l', Runs.Run (cacheStep (Δ := Δ)) (fun σ op _ => σ.CachePromised K op ∧ op.Ready) σ l' τ := by
  induction h with
  | nil => exact ⟨[], .nil _⟩
  | @snoc υ _ _ op _ _ hok hst ih =>
    obtain ⟨l', hl'⟩ := ih
    have hok' : υ.CachePromised K (.nat op : CacheOp Δ) ∧ (CacheOp.nat op : CacheOp Δ).Ready :=
      ⟨hok, trivial⟩
    exact ⟨_, .snoc hl' hok' hst⟩

/-- The rule `nat 1`, with `O_NAT` after other instructions. -/
def natRule (pre : List (BitVec 32)) : IpFw where
  actOfs := 0
  cmdLen := BitVec.ofNat 16 (pre.length + 4)
  rulenum := 100
  set := 0
  id := 0
  cmd := fun i => (pre ++ [Opcode.nat.word 4 1]).getD i 0

/-- The instructions of `nat 1 log` before `O_NAT`. -/
def logWords : List (BitVec 32) := [Opcode.log.word 3 0, 0, 0]

/-- A kernel with NAT. -/
def natKernel : Kernel := { (default : Kernel) with natLoaded := true }

/-- The ruleset with the instance 1 and a rule. -/
def natAdded (r : IpFw) : NatSys := { oneCfg 3 with rs := (oneCfg 3).rs.step (.add r true true) }

/-- An environment with NAT. -/
def natEnv : Env Unit := { (default : Env Unit) with natLoaded := true }

/-- The ruleset after a packet. -/
def natSent (r : IpFw) : NatSys := (natAdded r).packet natEnv default default 4

/-- The ruleset after the instance is deleted. -/
def natDeleted (r : IpFw) : NatSys :=
  (((natSent r).setTask 1 (.del 1)).next 1 ⟨none, true⟩).next 1 ⟨none, true⟩

theorem natRule_ready : RuleReady (natRule []) := by
  have hpos : ∀ {p}, Boundary (natRule []).cmd (natRule []).cmdLen.toNat 0 p → p = 0 := by
    intro p hp
    cases hp with
    | here => rfl
    | step _ hp =>
      have hle : 4 ≤ p := hp.le
      have hlt : p < 4 := hp.lt
      omega
  refine ⟨.here (by decide), fun p hp hop => ?_, fun p hp _ => ?_⟩
  · obtain rfl := hpos hp
    exact absurd hop (by decide)
  · obtain rfl := hpos hp
    exact ⟨rfl, by decide⟩

theorem natRule_accepted :
    checkIpfwStruct natKernel (natRule []) (natRule []).ruleSize = .ok (natRule []) := rfl

theorem natSent_run : ∃ l, Runs.Run (cacheStep (Δ := Unit))
    (fun σ op _ => σ.CachePromised natKernel op ∧ op.Ready) (init (.init true)) l
      (natSent (natRule [])) := by
  obtain ⟨l, hl⟩ := oneCfg_run
  obtain ⟨l', hl'⟩ := run_of_requests (Δ := Unit) (K := natKernel) (hl.mono fun _ _ _ hok => hok.1)
  have hadd : (oneCfg 3).CachePromised natKernel (.rule (.add (natRule []) true true) : CacheOp Unit) ∧
      (CacheOp.rule (.add (natRule []) true true) : CacheOp Unit).Ready :=
    ⟨⟨natRule [], _, natRule_accepted⟩, natRule_ready⟩
  have hpkt : (natAdded (natRule [])).CachePromised natKernel (.packet natEnv default default 4) ∧
      (CacheOp.packet natEnv default default 4).Ready := ⟨trivial, trivial⟩
  exact ⟨_, .snoc (.snoc hl' hadd rfl) hpkt rfl⟩

/-- A packet caches the instance, and the pointer is live. -/
theorem cacheLive_natSent :
    natPtrAt ((natSent (natRule [])).rs.words 1) 0 = 8 ∧ (natSent (natRule [])).CacheLive :=
  have ⟨_, hrun⟩ := natSent_run
  ⟨by decide +kernel, cacheLive_of_run hrun⟩

/-- The rule `nat 1 log` is accepted. -/
theorem natRule_log_accepted :
    checkIpfwStruct natKernel (natRule logWords) (natRule logWords).ruleSize =
      .ok (natRule logWords) := by
  have hcmd : Function.update (natRule logWords).cmd 2 ((natRule logWords).cmd 1) =
      (natRule logWords).cmd := Function.update_eq_self 2 (natRule logWords).cmd
  have hchk : checkIpfwStruct natKernel (natRule logWords) (natRule logWords).ruleSize =
      .ok { natRule logWords with
        cmd := Function.update (natRule logWords).cmd 2 ((natRule logWords).cmd 1) } := rfl
  rw [hchk, hcmd]

/-- **A stale pointer.** With the rule `nat 1 log`, the instance that a packet has cached is still
cached when it is deleted. -/
theorem not_cacheLive :
    ¬ ∀ (l : List (CacheOp Unit × Unit)) (σ : NatSys),
      Runs.Run (cacheStep (Δ := Unit)) (fun σ op _ => σ.CachePromised natKernel op) (init (.init true))
        l σ → σ.CacheLive := by
  intro h
  obtain ⟨l, hl⟩ := oneCfg_run
  obtain ⟨l', hready⟩ := run_of_requests (Δ := Unit) (K := natKernel)
    (hl.mono fun _ _ _ hok => hok.1)
  have hl' : Runs.Run (cacheStep (Δ := Unit)) (fun σ op _ => σ.CachePromised natKernel op)
      (init (.init true)) l' (oneCfg 3) := hready.mono fun _ _ _ hok => hok.1
  set r := natRule logWords with hr
  have hadd : (oneCfg 3).CachePromised natKernel (.rule (.add r true true) : CacheOp Unit) :=
    ⟨r, _, natRule_log_accepted⟩
  have hpkt : (natAdded r).CachePromised natKernel (.packet natEnv default default 4) := trivial
  have hdel : (natSent r).CachePromised natKernel (.nat (.del 1 1) : CacheOp Unit) :=
    (rfl : (natSent r).task 1 = none)
  have hnext : ∀ σ : NatSys, σ.CachePromised natKernel (.nat (.next 1 ⟨none, true⟩) : CacheOp Unit) :=
    fun _ => nofun
  have hrun := h _ _ (.snoc (.snoc (.snoc (.snoc (.snoc hl' hadd rfl) hpkt rfl) hdel rfl) (hnext _) rfl)
    (hnext _) rfl)
  change (natDeleted r).CacheLive at hrun
  have hptr : natPtrAt ((natDeleted r).rs.words 1) 3 = 8 := by decide +kernel
  have hlen : (natDeleted r).rs.chain.rule 1 = ⟨0, 7, 100, 0, 2⟩ := by decide +kernel
  have hstep : lenAt ((natDeleted r).rs.words 1) 0 = 3 := by decide +kernel
  have hv : Visited (natDeleted r).rs.chain (natDeleted r).rs.words 1 3 := by
    rw [Visited, hlen]
    refine .step (by decide) ?_
    rw [hstep]
    exact .here (by decide)
  have hlive := hrun 1 (by decide +kernel) 3 hv (by decide +kernel) (by rw [hptr]; decide)
  exact absurd hlive.1 (by decide +kernel)

end NatSys

end Ipfw
