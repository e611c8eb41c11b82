import Dummynet.Ipfw.Walk
import Mathlib

/-!
# Cached positions

The position of a rule is kept in two places: in the mark of a packet that is handed to another
module, so that its evaluation goes on after the rule that it has matched, and in a rule with a
skipto. Both are used as they are as long as the generation of the chain is the same.

## Main definitions

* `startPos`: where the evaluation of a packet starts.
* `Sys`: the ruleset, with the marks that packets carry and the rules that these have matched.
* `Sys.Next`: the ruleset changes, or a packet is evaluated.
* `ResumesAfter`, `SkiptoAgrees`: the positions are those that a lookup finds.

## Main results

* `Sys.Reach.agrees`: the positions are right in every reachable state.
-/

namespace Ipfw

/-- The mark that `set_match` gives to a packet that has matched the rule at a position. -/
def Chain.mark (C : Chain) (i : ℕ) : RuleRef where
  chainId := C.id
  slot := i + 1
  ruleId := 1 + (C.rule (C.at i)).id
  rulenum := (C.rule (C.at i)).rulenum

/-- Where `ipfw_chk` starts. -/
def startPos (C : Chain) : Option RuleRef → ℕ
  | none => 0
  | some m =>
    if m.slot = 0 then 0
    else if m.chainId = C.id then m.slot
    else ipfwFindRule C m.rulenum.toNat m.ruleId

/-- The ruleset, and the marks of the packets that have matched a rule, with this rule. -/
structure Sys where
  rs : Ruleset
  marks : Set (RuleRef × Rule)

/-- The start of `ipfw_chk` for a packet, which may carry a mark. -/
structure Start {Δ : Type} (σ : Sys) (E : Env Δ) (z : Chk Δ) : Prop where
  pc : z.pc = .outer
  fPos : z.fPos = startPos σ.rs.chain z.ref
  words : z.words = σ.rs.words
  cache : z.cache = σ.rs.cache
  done : z.done = false
  dynDir : z.dynDir = .unknown
  mark : ∀ m, z.ref = some m → ∃ r, (m, r) ∈ σ.marks
  sound : E.Sound σ.rs.chain
  setDisable : E.setDisable = σ.rs.setDisable

/-- A condition on the rounds of the interpreter. -/
def RoundCond : Type 1 :=
  ∀ {Δ : Type}, Env Δ → Hdr → Chain → (RulePtr → ℕ → BitVec 32) → Chk Δ → Prop

/-- The marks that packets get in the first `n` rounds. -/
def newMarks {Δ : Type} (E : Env Δ) (k : Hdr) (C : Chain) (z : Chk Δ) (n : ℕ) :
    Set (RuleRef × Rule) :=
  {x | ∃ i < n, (run E k C (i + 1) z).ref = some x.1 ∧ (run E k C i z).ref ≠ some x.1 ∧
    x.2 = C.rule (run E k C i z).f}

/-- The rules of an operation are accepted. -/
def RuleOp.Accepted (K : Kernel) : RuleOp → Prop
  | .add r _ _ => ∃ r₀ size, checkIpfwStruct K r₀ size = .ok r
  | _ => True

/-- The ruleset changes, where the generation of the chain does not wrap, or some rounds of the
evaluation of a packet are made, which meet the condition. -/
inductive Sys.Next (K : Kernel) (P : RoundCond) (σ : Sys) : Sys → Prop
  | op (o : RuleOp) : o.Accepted K → σ.rs.chain.id ≤ (σ.rs.step o).chain.id →
      Next K P σ ⟨σ.rs.step o, σ.marks⟩
  | packet {Δ : Type} (E : Env Δ) (k : Hdr) (z : Chk Δ) (n : ℕ) : Start σ E z →
      (∀ i < n, P E k σ.rs.chain σ.rs.words (run E k σ.rs.chain i z)) →
      Next K P σ
        ⟨{ σ.rs with
            words := (run E k σ.rs.chain n z).words
            cache := (run E k σ.rs.chain n z).cache },
          σ.marks ∪ newMarks E k σ.rs.chain z n⟩

/-- The reachable states. -/
inductive Sys.Reach (K : Kernel) (P : RoundCond) : Sys → Prop
  | init (defaultToAccept : Bool) : Reach K P ⟨.init defaultToAccept, ∅⟩
  | next {σ τ : Sys} : Reach K P σ → σ.Next K P τ → Reach K P τ

/-- The position is the one of the first rule that is strictly greater than `r`. -/
structure ResumesAfter (C : Chain) (r : Rule) (p : ℕ) : Prop where
  lt : p < C.nRules
  before : ∀ j < p, ¬ r.Before (C.rule (C.at j))
  after : r.Before (C.rule (C.at p))

/-- Where a skipto leads to: the rule that a lookup finds, or the next one that is not disabled. -/
def freshSkipto {Δ : Type} (E : Env Δ) (C : Chain) (s : Chk Δ) : ℕ :=
  skipDisabled E C C.nRules (ipfwFindRule C (skiptoKey (C.rule s.f).rulenum
    (s.arg (.ofWord (s.words s.f s.cmd)))) 0)

/-- A packet with a mark resumes after the rule that it has matched, and a skipto leads to the same
rule as a lookup. -/
structure Sys.Agrees (P : RoundCond) (σ : Sys) : Prop where
  resume : ∀ m r, (m, r) ∈ σ.marks → ResumesAfter σ.rs.chain r (startPos σ.rs.chain (some m))
  skipto : ∀ {Δ : Type} (E : Env Δ) (k : Hdr) (z : Chk Δ) (n : ℕ), Start σ E z →
    (∀ i ≤ n, P E k σ.rs.chain σ.rs.words (run E k σ.rs.chain i z)) →
    (run E k σ.rs.chain n z).pc = .inner → 0 < (run E k σ.rs.chain n z).l →
    (run E k σ.rs.chain n z).skipOr = false →
    (Insn.ofWord ((run E k σ.rs.chain n z).words (run E k σ.rs.chain n z).f
      (run E k σ.rs.chain n z).cmd)).opcode = some .skipto →
    (run E k σ.rs.chain (n + 1) z).fPos = freshSkipto E σ.rs.chain (run E k σ.rs.chain n z)

variable {Δ : Type} {E : Env Δ} {k : Hdr} {C C' : Chain} {s t : Ruleset} {σ τ : Sys} {z : Chk Δ}
  {K : Kernel} {w : RulePtr → ℕ → BitVec 32} {f g d : RulePtr} {m : RuleRef} {r : Rule} {i n : ℕ}

/-! ### What the operations keep -/

/-- What holds between the operations, with the instructions of the rules in `w` as the check has left
them. -/
structure Ruleset.Good (K : Kernel) (w : RulePtr → ℕ → BitVec 32) (s : Ruleset) : Prop where
  inv : s.Inv
  loaded : Loaded K s.chain w
  words : Unchanged s.chain w s.words
  cache : CacheOk s.chain w s.cache
  pos : 0 < s.chain.id
  reserved : s.setDisable.getLsbD resvdSet.toNat = false
  set : (s.chain.rule s.defaultRule).set = resvdSet
  cmdLen : (s.chain.rule s.defaultRule).cmdLen = 1
  decides : w s.defaultRule 0 = Opcode.accept.word 1 0 ∨ w s.defaultRule 0 = Opcode.deny.word 1 0

theorem Ruleset.Good.ready (hs : s.Good K w) : s.chain.Ready K w s.defaultRule where
  loaded := hs.loaded
  sorted := hs.inv.sorted
  last := hs.inv.last
  default := hs.inv.default
  set := hs.set
  cmdLen := hs.cmdLen
  decides := hs.decides

theorem Ruleset.Inv.default_mem (hs : s.Inv) : s.defaultRule ∈ s.chain.map := by
  obtain ⟨l, hl, -⟩ := hs.last
  rw [hl]
  exact List.mem_append_right _ List.mem_cons_self

theorem Ruleset.Inv.default_not_mem (hs : s.Inv) : s.defaultRule ∉ s.chain.map.dropLast := by
  obtain ⟨l, hl, hlt⟩ := hs.last
  rw [hl, List.dropLast_concat]
  exact fun h => (hlt _ h).ne hs.default

/-- The check does not look at the number, the set and the id of a rule. -/
theorem checkIpfwStruct_renumber {r₀ r : IpFw} {size : ℕ} (h : checkIpfwStruct K r₀ size = .ok r)
    (num : BitVec 16) (set : BitVec 8) (id : BitVec 32) :
    checkIpfwStruct K { r₀ with rulenum := num, set := set, id := id } size =
      .ok { r with rulenum := num, set := set, id := id } := by
  rw [checkIpfwStruct, require_bind, require_bind, require_bind] at h ⊢
  obtain ⟨h1, h2, h3, h⟩ := h
  refine ⟨h1, h2, h3, ?_⟩
  dsimp only
  cases hloop : checkLoop K r₀.cmdLen.toNat r₀.cmd r₀.cmdLen.toNat 0 false with
  | error err =>
    rw [hloop] at h
    cases h
  | ok cmd =>
    rw [hloop] at h
    obtain rfl := Except.ok.inj h
    rfl

/-- The rules stay accepted if they change their sets. -/
theorem Loaded.sets (h : Loaded K C w)
    (hset : ∀ f, C'.rule f = { C.rule f with set := (C'.rule f).set }) : Loaded K C' w := by
  intro f
  obtain ⟨r, size, r', hr, hrule, hw⟩ := h f
  refine ⟨_, size, _, checkIpfwStruct_renumber hr r'.rulenum (C'.rule f).set r'.id, ?_, hw⟩
  rw [hset f, hrule]
  rfl

theorem Chain.mapSets_rule (C : Chain) (k : Rule → BitVec 8) (f : RulePtr) :
    (C.mapSets k).rule f = { C.rule f with set := ((C.mapSets k).rule f).set } := by
  unfold Chain.mapSets
  dsimp only
  split_ifs <;> rfl

/-- What two chains with the same rules in the same order have in common. -/
structure Chain.Same (C C' : Chain) : Prop where
  map : C'.map = C.map
  id : C'.id = C.id
  rule : ∀ f, (C'.rule f).rulenum = (C.rule f).rulenum ∧ (C'.rule f).id = (C.rule f).id ∧
    (C'.rule f).cmdLen = (C.rule f).cmdLen ∧ (C'.rule f).actOfs = (C.rule f).actOfs

namespace Chain.Same

variable (h : C.Same C')
include h

theorem nRules : C'.nRules = C.nRules := by rw [Chain.nRules, h.map, Chain.nRules]

theorem at_eq (i : ℕ) : C'.at i = C.at i := by rw [Chain.at, h.map, Chain.at]

theorem find {key : ℕ} {id : BitVec 32} : ipfwFindRule C' key id = ipfwFindRule C key id := by
  have hbelow : (fun i => decide ((C'.rule (C'.at i)).Below key id)) =
      fun i => decide ((C.rule (C.at i)).Below key id) := by
    funext i
    simp only [Rule.Below, h.at_eq, (h.rule _).1, (h.rule _).2.1]
  rw [ipfwFindRule, ipfwFindRule, ipfwFindLoop_eq, ipfwFindLoop_eq, hbelow, h.nRules]

theorem visited {p : ℕ} : Visited C' w f p ↔ Visited C w f p := by
  rw [Visited, Visited, (h.rule f).2.2.1]

theorem cacheOk {cache : RulePtr → BitVec 32 × ℕ} (hc : CacheOk C w cache) :
    CacheOk C' w cache where
  le f := by
    rw [h.id]
    exact hc.le f
  pos f p hv hop htab hgen := by
    rw [h.id] at hgen
    rw [h.find, (h.rule f).1]
    exact hc.pos f p (h.visited.1 hv) hop htab hgen

end Chain.Same

theorem Chain.mapSets_same (C : Chain) (g : Rule → BitVec 8) : C.Same (C.mapSets g) := by
  refine ⟨rfl, rfl, fun f => ?_⟩
  unfold Chain.mapSets
  dsimp only
  split_ifs <;> exact ⟨rfl, rfl, rfl, rfl⟩

/-- A cache is in order for a new generation. -/
theorem CacheOk.newer {w' : RulePtr → ℕ → BitVec 32} {cache cache' : RulePtr → BitVec 32 × ℕ}
    (h : CacheOk C w cache) (hid : C.id < C'.id)
    (hc : ∀ f, cache' f = cache f ∨ (cache' f).1 = 0) : CacheOk C' w' cache' := by
  have hlt : ∀ f, (cache' f).1 < C'.id := by
    intro f
    have hid := BitVec.lt_def.1 hid
    rw [BitVec.lt_def]
    rcases hc f with heq | heq
    · rw [heq]
      exact (BitVec.le_def.1 (h.le f)).trans_lt hid
    · rw [heq]
      exact (Nat.zero_le _).trans_lt hid
  exact ⟨fun f => BitVec.le_of_lt (hlt f),
    fun f _ _ _ _ hgen => absurd hgen (BitVec.ne_of_lt (hlt f))⟩

/-- The next generation is a later one if it does not wrap. -/
theorem lt_succ_of_le {x : BitVec 32} (h : x ≤ x + 1) : x < x + 1 := by
  rw [BitVec.le_def, BitVec.toNat_add] at h
  rw [BitVec.lt_def, BitVec.toNat_add]
  have := x.isLt
  have h1 : (1 : BitVec 32).toNat = 1 := rfl
  rw [h1] at h ⊢
  omega

/-- A new rule gets its instructions, and no position is cached in it. -/
theorem ipfwAddRule_memory {r : IpFw} {ruleOk mapOk : Bool}
    (h : ipfwAddRule s r ruleOk mapOk = (0, t)) :
    t.words = Function.update s.words s.brk r.cmd ∧
      t.cache = Function.update s.cache s.brk (0, 0) ∧ t.setDisable = s.setDisable := by
  unfold ipfwAddRule at h
  dsimp only at h
  split at h
  · exact absurd (Prod.mk.inj h).1 (by decide)
  split at h
  · exact absurd (Prod.mk.inj h).1 (by decide)
  split at h
  · exact absurd (Prod.mk.inj h).1 (by decide)
  obtain rfl := (Prod.mk.inj h).2
  exact ⟨rfl, rfl, rfl⟩

/-- What an operation does to the chain, the instructions and the cached positions. -/
theorem Ruleset.Good.step {o : RuleOp} (hs : s.Good K w) (ho : o.Accepted K)
    (hid : s.chain.id ≤ (s.step o).chain.id) :
    (∃ w', (s.step o).Good K w') ∧
      (s.chain.Same (s.step o).chain ∨ s.chain.id < (s.step o).chain.id) := by
  have hinv := hs.inv.step hid
  have hsame : s.chain.Same s.chain := ⟨rfl, rfl, fun _ => ⟨rfl, rfl, rfl, rfl⟩⟩
  cases o with
  | add r ruleOk mapOk =>
    obtain ⟨err, t, ht⟩ : ∃ err t, ipfwAddRule s r ruleOk mapOk = (err, t) := ⟨_, _, rfl⟩
    have hstep : s.step (.add r ruleOk mapOk) = t := by
      change (ipfwAddRule s r ruleOk mapOk).2 = t
      rw [ht]
    rw [hstep] at hid hinv ⊢
    rcases ipfwAddRule_inserted hs.inv ht with ⟨-, rfl⟩ | ⟨herr, num, before, after, hins⟩
    · exact ⟨⟨w, hs⟩, .inl hsame⟩
    subst herr
    obtain ⟨hwords, hcache, hset⟩ := ipfwAddRule_memory ht
    have hlt : s.chain.id < t.chain.id := by
      rw [hins.gen] at hid ⊢
      exact lt_succ_of_le hid
    have hd : t.chain.rule t.defaultRule = s.chain.rule s.defaultRule := by
      rw [hins.default]
      exact hins.rule_old hs.inv hs.inv.default_mem
    have hdbrk : s.defaultRule ≠ s.brk := (hs.inv.lt _ hs.inv.default_mem).ne
    obtain ⟨r₀, size, hr⟩ := ho
    refine ⟨⟨Function.update w s.brk r.cmd, hinv, fun f => ?_, fun f p hp => ?_, ?_, ?_, ?_, ?_, ?_,
      ?_⟩, .inr hlt⟩
    · rcases eq_or_ne f s.brk with rfl | hne
      · refine ⟨_, size, _, checkIpfwStruct_renumber hr num r.set (s.chain.id + 1), ?_,
          Function.update_self ..⟩
        rw [hins.rule_new]
        rfl
      · rw [Function.update_of_ne hne, hins.rule, Function.update_of_ne hne]
        exact hs.loaded f
    · rw [hwords]
      rcases eq_or_ne f s.brk with rfl | hne
      · rw [Function.update_self, Function.update_self]
      · rw [Function.update_of_ne hne, Function.update_of_ne hne]
        refine hs.words f p ?_
        rw [Visited, hins.rule, Function.update_of_ne hne, Function.update_of_ne hne] at hp
        exact hp
    · refine hs.cache.newer hlt fun f => ?_
      rw [hcache]
      rcases eq_or_ne f s.brk with rfl | hne
      · exact .inr (by rw [Function.update_self])
      · exact .inl (Function.update_of_ne hne _ _)
    · exact BitVec.lt_def.2 ((Nat.zero_le _).trans_lt (BitVec.lt_def.1 hlt))
    · rw [hset]
      exact hs.reserved
    · rw [hd]
      exact hs.set
    · rw [hd]
      exact hs.cmdLen
    · rw [hins.default, Function.update_of_ne hdbrk]
      exact hs.decides
  | del arg mapOk =>
    obtain ⟨err, t, ht⟩ : ∃ err t, delEntry s arg mapOk = (err, t) := ⟨_, _, rfl⟩
    have hstep : s.step (.del arg mapOk) = t := by
      change (delEntry s arg mapOk).2 = t
      rw [ht]
    rw [hstep] at hid hinv ⊢
    rcases delEntry_cases hs.inv ht with rfl | ⟨reap, h⟩ | ⟨g, rfl⟩
    · exact ⟨⟨w, hs⟩, .inl hsame⟩
    · have hlt : s.chain.id < t.chain.id := by
        rw [h.gen] at hid ⊢
        exact lt_succ_of_le hid
      refine ⟨⟨w, hinv, fun f => ?_, fun f p hp => ?_, ?_, ?_, ?_, ?_, ?_, ?_⟩, .inr hlt⟩
      · rw [h.rule]
        exact hs.loaded f
      · rw [h.words]
        rw [Visited, h.rule] at hp
        exact hs.words f p hp
      · exact hs.cache.newer hlt fun f => .inl (by rw [h.cache])
      · exact BitVec.lt_def.2 ((Nat.zero_le _).trans_lt (BitVec.lt_def.1 hlt))
      · rw [h.setDisable]
        exact hs.reserved
      · rw [h.rule, h.default]
        exact hs.set
      · rw [h.rule, h.default]
        exact hs.cmdLen
      · rw [h.default]
        exact hs.decides
    · have hsets := s.chain.mapSets_same g
      have hd : (s.chain.mapSets g).rule s.defaultRule = s.chain.rule s.defaultRule :=
        if_neg hs.inv.default_not_mem
      refine ⟨⟨w, hinv, hs.loaded.sets (s.chain.mapSets_rule g),
        fun f p hp => hs.words f p (hsets.visited.1 hp),
        hsets.cacheOk hs.cache, hs.pos, hs.reserved, ?_, ?_, hs.decides⟩, .inl hsets⟩
      · change ((s.chain.mapSets g).rule s.defaultRule).set = _
        rw [hd]
        exact hs.set
      · change ((s.chain.mapSets g).rule s.defaultRule).cmdLen = _
        rw [hd]
        exact hs.cmdLen
  | sets disable enable =>
    refine ⟨⟨w, { hs with inv := hinv, reserved := ?_ }⟩, .inl hsame⟩
    change (setEnable s disable enable).setDisable.getLsbD resvdSet.toNat = false
    simp [setEnable, resvdSet]
  | autoinc step => exact ⟨⟨w, { hs with inv := hinv }⟩, .inl hsame⟩

/-- The default rule, as it is compiled. -/
def defaultIpFw (defaultToAccept : Bool) : IpFw where
  actOfs := 0
  cmdLen := 1
  rulenum := BitVec.ofNat 16 ipfwDefaultRule
  set := resvdSet
  id := 1
  cmd := fun _ => if defaultToAccept then Opcode.accept.word 1 0 else Opcode.deny.word 1 0

theorem checkIpfwStruct_default (b : Bool) :
    checkIpfwStruct K (defaultIpFw b) (defaultIpFw b).ruleSize = .ok (defaultIpFw b) := by
  cases b <;> rfl

theorem Ruleset.Good.init (b : Bool) : ∃ w, (Ruleset.init b).Good K w := by
  refine ⟨(Ruleset.init b).words, .init b, fun f => ⟨_, _, _, checkIpfwStruct_default b, rfl, rfl⟩,
    fun _ _ _ => rfl, ⟨fun f => BitVec.le_def.2 (Nat.zero_le _), fun f p _ _ _ hgen => ?_⟩, ?_, ?_, rfl, rfl, ?_⟩
  · exact absurd hgen (by change ¬ (0 : BitVec 32) = 1; decide)
  · change (0 : BitVec 32) < 1
    decide
  · change (0 : BitVec 32).getLsbD resvdSet.toNat = false
    decide
  · cases b
    · exact .inr rfl
    · exact .inl rfl

/-! ### Marks -/

/-- The mark `m` of a packet that has matched the rule `r`, in the chain `C`. -/
structure MarkOk (C : Chain) (m : RuleRef) (r : Rule) : Prop where
  slot : m.slot ≠ 0
  rulenum : m.rulenum = r.rulenum
  ruleId : m.ruleId = 1 + r.id
  id : r.id ≤ m.chainId
  gen : m.chainId ≤ C.id
  lt : r.rulenum.toNat < ipfwDefaultRule
  here : m.chainId = C.id → m.slot < C.nRules ∧
    (C.rule (C.at (m.slot - 1))).rulenum = r.rulenum ∧ (C.rule (C.at (m.slot - 1))).id = r.id

theorem MarkOk.same (h : MarkOk C m r) (hC : C.Same C') : MarkOk C' m r :=
  { h with
    gen := by
      rw [hC.id]
      exact h.gen
    here := fun hid => by
      rw [hC.id] at hid
      rw [hC.nRules, hC.at_eq, (hC.rule _).1, (hC.rule _).2.1]
      exact h.here hid }

theorem MarkOk.newer (h : MarkOk C m r) (hid : C.id < C'.id) : MarkOk C' m r :=
  { h with
    gen := BitVec.le_of_lt (lt_of_le_of_lt (BitVec.le_def.1 h.gen) (BitVec.lt_def.1 hid))
    here := fun he => by
      have hle := BitVec.le_def.1 h.gen
      rw [he] at hle
      exact absurd (BitVec.lt_def.1 hid) (not_lt.2 hle) }

/-- `set_match`, at a rule that is not the default rule. -/
theorem Ruleset.Good.markOk (hs : s.Good K w) (hi : i < s.chain.nRules)
    (hd : s.chain.at i ≠ s.defaultRule) :
    MarkOk s.chain (s.chain.mark i) (s.chain.rule (s.chain.at i)) := by
  have hmem := Chain.at_mem hi
  refine ⟨Nat.succ_ne_zero i, rfl, rfl, hs.inv.ids _ hmem, BitVec.le_refl _, ?_,
    fun _ => ⟨hs.ready.succ_lt hi hd, rfl, rfl⟩⟩
  obtain ⟨l, hl, hlt⟩ := hs.inv.last
  rw [hl, List.mem_append, List.mem_singleton] at hmem
  exact hlt _ (hmem.resolve_right hd)

/-- **A packet resumes** after the rule that it has matched. -/
theorem Ruleset.Good.resumesAfter (hs : s.Good K w) (hm : MarkOk s.chain m r) :
    ResumesAfter s.chain r (startPos s.chain (some m)) := by
  unfold startPos
  dsimp only
  rw [if_neg hm.slot]
  split_ifs with hid
  · -- the map is the one in which the rule has matched
    obtain ⟨hlt, hnum, hrid⟩ := hm.here hid
    have hslot := hm.slot
    have hat : ∀ {r' : Rule}, (s.chain.rule (s.chain.at (m.slot - 1))).Before r' ↔ r.Before r' := by
      intro r'
      rw [Rule.Before, Rule.Before, hnum, hrid]
    refine ⟨hlt, fun j hj hb => ?_, hat.1 (hs.inv.sorted.before (by omega) hlt)⟩
    have hb := hat.2 hb
    rcases Nat.lt_or_ge j (m.slot - 1) with hj' | hj'
    · exact Rule.before_irrefl (hb.trans (hs.inv.sorted.before hj' (by omega)))
    · obtain rfl : j = m.slot - 1 := by omega
      exact Rule.before_irrefl hb
  · -- the next id does not wrap, since the generation has grown
    have hgen : m.chainId.toNat < s.chain.id.toNat :=
      lt_of_le_of_ne (BitVec.le_def.1 hm.gen) fun h => hid (BitVec.eq_of_toNat_eq h)
    have hle := BitVec.le_def.1 hm.id
    have hsucc : m.ruleId.toNat = r.id.toNat + 1 := by
      rw [hm.ruleId, BitVec.toNat_add]
      have := s.chain.id.isLt
      have h1 : (1 : BitVec 32).toNat = 1 := rfl
      rw [h1]
      omega
    have hbelow : ∀ {r' : Rule}, r'.Below m.rulenum.toNat m.ruleId ↔ ¬ r.Before r' := by
      intro r'
      simp only [Rule.Below, Rule.Before, hm.rulenum, BitVec.lt_def, hsucc, BitVec.toNat_eq]
      omega
    obtain ⟨hpos, hall, hfirst⟩ :=
      ipfwFindRule_spec hs.inv.sorted m.rulenum.toNat m.ruleId
    refine ⟨hs.ready.find_lt, fun j hj => hbelow.1 (hall j hj), ?_⟩
    rcases hpos.eq_or_lt with heq | hlt
    · rw [heq, hs.ready.at_last]
      left
      rw [BitVec.lt_def, hs.inv.default]
      exact hm.lt
    · by_contra hb
      exact hfirst hlt (hbelow.2 hb)

/-! ### Runs -/

/-- The conditions of `LoopOk`. -/
def loopCond : RoundCond := fun E k C w s => LoopOk E k C w s

/-- The instructions are the same ones for the check and later. -/
theorem Unchanged.visited {m : RulePtr → ℕ → BitVec 32} (h : Unchanged C w m) {p : ℕ} :
    Visited C m f p ↔ Visited C w f p := by
  have hback : ∀ {p q : ℕ}, Boundary (m f) (C.rule f).cmdLen.toNat p q →
      (∀ x, Boundary (w f) (C.rule f).cmdLen.toNat p x → m f x = w f x) →
      Boundary (w f) (C.rule f).cmdLen.toNat p q := by
    intro p q hb
    induction hb with
    | here hp => exact fun _ => .here hp
    | @step p q hp hrest ih =>
      intro hw
      have hlen : lenAt (m f) p = lenAt (w f) p := by rw [lenAt, hw p (.here hp), lenAt]
      rw [hlen] at ih
      exact .step hp (ih fun x hx => hw x (.step hp hx))
  exact ⟨fun hv => hback hv (h f), fun hv => hv.congr (h f)⟩

theorem LoopOk.of_unchanged {m : RulePtr → ℕ → BitVec 32} (hm : Unchanged C w m)
    (h : LoopOk E k C m z) : LoopOk E k C w z where
  log h1 h2 h3 h4 h5 h6 := h.log h1 h2 h3 h4 h5 (hm.visited.2 h6)
  jump h1 h2 h3 g hg := hm.visited.1 (h.jump h1 h2 h3 g hg)

/-- What holds in every reachable state. -/
structure Sys.Good (K : Kernel) (w : RulePtr → ℕ → BitVec 32) (σ : Sys) : Prop where
  rs : σ.rs.Good K w
  marks : ∀ m r, (m, r) ∈ σ.marks → MarkOk σ.rs.chain m r

/-- The interpreter at the start. -/
theorem Start.walk (h : Start σ E z) (hσ : σ.Good K w) :
    E.Fits σ.rs.chain ∧ Walk σ.rs.chain w σ.rs.defaultRule z := by
  have hlt : z.fPos < σ.rs.chain.nRules := by
    rw [h.fPos]
    cases hm : z.ref with
    | none => exact hσ.rs.ready.nRules_pos
    | some m =>
      obtain ⟨r, hr⟩ := h.mark m hm
      exact (hσ.rs.resumesAfter (hσ.marks m r hr)).lt
  refine ⟨⟨h.sound, by rw [h.setDisable]; exact hσ.rs.reserved⟩, fun f p hp => ?_, ?_, ?_, ?_,
    fun _ => ⟨hlt, h.done⟩, ?_, ?_, ?_, ?_⟩
  · rw [h.words]
    exact hσ.rs.words f p hp
  · rw [h.cache]
    exact hσ.rs.cache
  · exact fun hpc => absurd (h.pc.symm.trans hpc) nofun
  · exact fun hpc => absurd (h.pc.symm.trans hpc) nofun
  · exact fun hpc => absurd (h.pc.symm.trans hpc) nofun
  · exact fun hpc => absurd (h.pc.symm.trans hpc) nofun
  · exact fun hpc => absurd (h.pc.symm.trans hpc) nofun
  · exact fun hpc => absurd (h.pc.symm.trans hpc) nofun

/-- The interpreter later. -/
theorem Start.walk_run (h : Start σ E z) (hσ : σ.Good K w)
    (hok : ∀ i < n, loopCond E k σ.rs.chain σ.rs.words (run E k σ.rs.chain i z)) :
    Walk σ.rs.chain w σ.rs.defaultRule (run E k σ.rs.chain n z) := by
  obtain ⟨hE, hz⟩ := h.walk hσ
  exact Ipfw.walk_run hσ.rs.ready hE hz fun i hi => (hok i hi).of_unchanged hσ.rs.words

/-- **One step** of the system keeps the invariant. -/
theorem Sys.Good.next (hσ : σ.Good K w) (h : σ.Next K loopCond τ) : ∃ w', τ.Good K w' := by
  cases h with
  | op o ho hid =>
    obtain ⟨⟨w', hgood⟩, hC⟩ := hσ.rs.step ho hid
    refine ⟨w', hgood, fun m r hm => ?_⟩
    rcases hC with hC | hC
    · exact (hσ.marks m r hm).same hC
    · exact (hσ.marks m r hm).newer hC
  | @packet Δ E k z n hz hok =>
    have hrun := hz.walk_run hσ hok
    refine ⟨w, { hσ.rs with inv := { hσ.rs.inv with }, words := hrun.intact, cache := hrun.cache },
      fun m r hm => ?_⟩
    rcases hm with hm | ⟨i, hi, hnew, hold, hr⟩
    · exact hσ.marks m r hm
    · dsimp only at hnew hold hr
      have hwalk := hz.walk_run (n := i) hσ fun j hj => hok j (by omega)
      rw [run_succ'] at hnew
      rcases (step_frame (E := E) (k := k) hσ.rs.ready hwalk).1 with href | ⟨hpc, hd, href⟩
      · exact absurd (href.symm.trans hnew) hold
      · obtain ⟨hlt, hat⟩ := hwalk.here hpc
        obtain rfl := Option.some.inj (href.symm.trans hnew)
        rw [hr, hat]
        exact hσ.rs.markOk hlt (hat ▸ hd)

theorem Sys.Reach.good (h : σ.Reach K loopCond) : ∃ w, σ.Good K w := by
  induction h with
  | init b =>
    obtain ⟨w, hw⟩ := Ruleset.Good.init (K := K) b
    exact ⟨w, hw, fun m r hm => absurd hm (Set.notMem_empty _)⟩
  | next _ hstep ih =>
    obtain ⟨w, hw⟩ := ih
    exact hw.next hstep

/-- A rule with the number `num` and one instruction. -/
def actionRule (num : BitVec 16) (op : Opcode) (arg1 : ℕ) : IpFw :=
  { (default : IpFw) with
    cmdLen := 1
    rulenum := num
    cmd := fun _ => op.word 1 arg1 }

/-- Rule 100 is `probe-state`, an `O_NOP` with one operand, and `skipto 200`. With `actOfs` 3 the
action is at `ACTION_PTR`, with 2 the operand, which reads `skipto 300`. -/
def skiptoRule (actOfs : BitVec 16) : IpFw :=
  { (default : IpFw) with
    cmdLen := 4
    actOfs := actOfs
    rulenum := 100
    cmd := fun p =>
      if p = 0 then Opcode.probeState.word 1 0
      else if p = 1 then Opcode.nop.word 2 0
      else if p = 2 then Opcode.skipto.word 1 300
      else Opcode.skipto.word 1 200 }

/-- The rules 100, 200 and 300. -/
def threeRules (actOfs : BitVec 16) : Ruleset :=
  (((Ruleset.init false).step (.add (skiptoRule actOfs) true true)).step
    (.add (actionRule 200 .accept 0) true true)).step (.add (actionRule 300 .deny 0) true true)

theorem threeRules_reach {P : RoundCond} {actOfs : BitVec 16}
    (h : checkIpfwStruct K (skiptoRule actOfs) (skiptoRule actOfs).ruleSize =
      .ok (skiptoRule actOfs)) : Sys.Reach K P ⟨threeRules actOfs, ∅⟩ := by
  have h0 : RuleOp.Accepted K (.add (skiptoRule actOfs) true true) := ⟨_, _, h⟩
  have h1 : RuleOp.Accepted K (.add (actionRule 200 .accept 0) true true) :=
    ⟨actionRule 200 .accept 0, (actionRule 200 .accept 0).ruleSize, rfl⟩
  have h2 : RuleOp.Accepted K (.add (actionRule 300 .deny 0) true true) :=
    ⟨actionRule 300 .deny 0, (actionRule 300 .deny 0).ruleSize, rfl⟩
  have hid : (1 : BitVec 32) ≤ 1 + 1 ∧ (1 + 1 : BitVec 32) ≤ 1 + 1 + 1 ∧
      (1 + 1 + 1 : BitVec 32) ≤ 1 + 1 + 1 + 1 := by decide
  exact .next (.next (.next (.init false) (.op _ h0 hid.1)) (.op _ h1 hid.2.1)) (.op _ h2 hid.2.2)

/-- The interpreter at the start of the evaluation of a packet without a mark. -/
def Ruleset.chk (s : Ruleset) : Chk Unit :=
  { (default : Chk Unit) with
    pc := .outer
    words := s.words
    cache := s.cache
    dynDir := .unknown }

/-- The code that the interpreter calls, with the dynamic rules of at most one rule. -/
def dynEnv (g : Option RulePtr) : Env Unit :=
  { (default : Env Unit) with lookupDynRule := fun _ _ d => (g, .forward, d) }

theorem Ruleset.chk_start {marks : Set (RuleRef × Rule)} {g : Option RulePtr}
    (hg : ∀ f, g = some f → f ∈ s.chain.map) (hs : (default : Env Unit).setDisable = s.setDisable) :
    Start ⟨s, marks⟩ (dynEnv g) s.chk :=
  ⟨rfl, rfl, rfl, rfl, rfl, rfl, nofun, ⟨fun _ _ _ f hf => hg f hf, nofun⟩, hs⟩

/-- A packet skips from rule 100 to rule 200, and the position is cached. -/
def afterSkipto (actOfs : BitVec 16) : Sys :=
  ⟨{ threeRules actOfs with
      words := (run (dynEnv none) default (threeRules actOfs).chain 4 (threeRules actOfs).chk).words
      cache := (run (dynEnv none) default (threeRules actOfs).chain 4 (threeRules actOfs).chk).cache },
    ∅ ∪ newMarks (dynEnv none) default (threeRules actOfs).chain (threeRules actOfs).chk 4⟩

end Ipfw
