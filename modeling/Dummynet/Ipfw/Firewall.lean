import Dummynet.Ipfw.DynRuns

/-!
# The ruleset and its dynamic rules

The table of dynamic rules over whole runs, together with the ruleset. `del_entry` first takes the rules
out of the map, and then it removes their dynamic rules, one rule after the other, while packets go on.

## Main results

* `Firewall.Reach.table_intact`: the integrity of the table in every reachable state.
-/

namespace Ipfw

/-- The ruleset, the dynamic rules, and the rules that have gone from the map while `del_entry` has
still to remove their dynamic rules. -/
structure Firewall where
  rs : Ruleset
  dyn : DynTable
  reap : List RulePtr

/-- The rules that go from the map. -/
def reaped (s t : Ruleset) : List RulePtr := s.chain.map.filter fun f => f ∉ t.chain.map

/-- An operation on the ruleset. -/
def Firewall.op (σ : Firewall) (o : RuleOp) : Firewall :=
  ⟨σ.rs.step o, σ.dyn, σ.reap ++ reaped σ.rs (σ.rs.step o)⟩

/-- The sysctl variables of the table. -/
structure DynSysctl where
  buckets : BitVec 32
  max : BitVec 32
  ackLifetime : BitVec 32
  synLifetime : BitVec 32
  finLifetime : BitVec 32
  rstLifetime : BitVec 32
  udpLifetime : BitVec 32
  shortLifetime : BitVec 32
  keepalivePeriod : BitVec 32

/-- The sysctl variables are set. -/
def DynTable.tune (T : DynTable) (v : DynSysctl) : DynTable :=
  { T with
    buckets := v.buckets
    max := v.max
    ackLifetime := v.ackLifetime
    synLifetime := v.synLifetime
    finLifetime := v.finLifetime
    rstLifetime := v.rstLifetime
    udpLifetime := v.udpLifetime
    shortLifetime := v.shortLifetime
    keepalivePeriod := v.keepalivePeriod }

/-- A condition on the packets that make entries, with the arguments of `installState`. -/
abbrev InstallCond : Type :=
  DynMem → RulePtr → Opcode → BitVec 32 → BitVec 32 → FlowId → FlowId → BitVec 32 → DynTable → Prop

/-- One step. A packet makes an entry for a rule of the map, or for one whose dynamic rules are still
to go. -/
inductive Firewall.Next (P : InstallCond) (σ : Firewall) : Firewall → Prop
  | op (o : RuleOp) : Next P σ (σ.op o)
  | children {f : RulePtr} {fs : List RulePtr} (now : BitVec 32) : σ.reap = f :: fs →
      Next P σ ⟨σ.rs, removeDynChildren f now σ.dyn, fs⟩
  | install (M : DynMem) (f : RulePtr) (op : Opcode) (cmd tablearg : BitVec 32)
      (pkt junk : FlowId) (now : BitVec 32) : f ∈ σ.rs.chain.map ∨ f ∈ σ.reap →
      P M f op cmd tablearg pkt junk now σ.dyn →
      Next P σ { σ with dyn := (installState M f op cmd tablearg pkt junk now σ.dyn).2 }
  | lookup (pkt : FlowId) (ack : Option (BitVec 32)) (now : BitVec 32) :
      Next P σ { σ with dyn := (lookupDynRule pkt ack now σ.dyn).2.2 }
  | remove (rule : Option RulePtr) (keep : Option DynPtr) (force : Bool) (now : BitVec 32) :
      Next P σ { σ with dyn := removeDynRule rule keep force now σ.dyn }
  | sysctl (v : DynSysctl) : v.buckets ≠ 0 → Next P σ { σ with dyn := σ.dyn.tune v }

theorem Firewall.Next.mono {P Q : InstallCond} {σ τ : Firewall} (h : σ.Next P τ)
    (hPQ : ∀ M f op cmd tablearg pkt junk now, f ∈ σ.rs.chain.map ∨ f ∈ σ.reap →
      P M f op cmd tablearg pkt junk now σ.dyn → Q M f op cmd tablearg pkt junk now σ.dyn) :
    σ.Next Q τ := by
  cases h with
  | op o => exact .op o
  | children now hreap => exact .children now hreap
  | install M f op cmd tablearg pkt junk now hf hP =>
    exact .install M f op cmd tablearg pkt junk now hf (hPQ _ _ _ _ _ _ _ _ hf hP)
  | lookup pkt ack now => exact .lookup pkt ack now
  | remove rule keep force now => exact .remove rule keep force now
  | sysctl v hv => exact .sysctl v hv

/-- The reachable states. -/
inductive Firewall.Reach (P : InstallCond) : Firewall → Prop
  | init (defaultToAccept : Bool) : Reach P ⟨.init defaultToAccept, .init, []⟩
  | next {σ τ : Firewall} : Reach P σ → σ.Next P τ → Reach P τ

/-- The entries are counted, each one is in the bucket of its hash, and the parents of sessions are
linked and count them. No entry refers to a rule that is deleted. -/
structure Firewall.Intact (σ : Firewall) : Prop where
  nodup : σ.dyn.entries.Nodup
  count : σ.dyn.count.toNat = σ.dyn.entries.length
  bucket : ∀ i, ∀ q ∈ σ.dyn.list i,
    i < σ.dyn.curr.toNat ∧ hashPacket σ.dyn.curr (σ.dyn.ent q).id = i
  parent : ∀ q ∈ σ.dyn.entries, (σ.dyn.ent q).dynType = .limit →
    (σ.dyn.ent q).parent ∈ σ.dyn.entries ∧
      (σ.dyn.ent (σ.dyn.ent q).parent).dynType = .limitParent ∧
      (σ.dyn.ent (σ.dyn.ent q).parent).rule = (σ.dyn.ent q).rule
  sessions : ∀ p ∈ σ.dyn.entries, (σ.dyn.ent p).dynType = .limitParent →
    (σ.dyn.ent p).count.toNat = σ.dyn.sessions p
  rule : ∀ q ∈ σ.dyn.entries, (σ.dyn.ent q).rule ∈ σ.rs.chain.map ∨ (σ.dyn.ent q).rule ∈ σ.reap
  deleted : σ.reap = [] → ∀ q ∈ σ.dyn.entries, (σ.dyn.ent q).rule ∈ σ.rs.chain.map

variable {σ τ : Firewall}

/-- The rules that entries may refer to. -/
def Firewall.rules (σ : Firewall) : Set RulePtr := {f | f ∈ σ.rs.chain.map ∨ f ∈ σ.reap}

theorem DynTable.Inv.init {S : Set RulePtr} : DynTable.init.Inv S where
  curr := by decide
  buckets := by decide
  alloc _ _ := rfl
  nodup _ := List.nodup_nil
  bucket _ _ hq := absurd hq List.not_mem_nil
  lt q hq := by
    obtain ⟨i, -, hi⟩ := Buckets.mem_all.1 hq
    exact absurd hi List.not_mem_nil
  count := by
    have hnil : DynTable.init.entries = [] := Buckets.all_nil fun _ => rfl
    rw [hnil]
    rfl
  rule q hq := by
    obtain ⟨i, -, hi⟩ := Buckets.mem_all.1 hq
    exact absurd hi List.not_mem_nil
  parent q hq := by
    obtain ⟨i, -, hi⟩ := Buckets.mem_all.1 hq
    exact absurd hi List.not_mem_nil
  sessions q hq := by
    obtain ⟨i, -, hi⟩ := Buckets.mem_all.1 hq
    exact absurd hi List.not_mem_nil

theorem lookupDynRule_table (pkt : FlowId) (ack : Option (BitVec 32)) (now : BitVec 32)
    (T : DynTable) : (lookupDynRule pkt ack now T).2.2 = (lookupDynRuleLocked pkt ack now T).2 := by
  unfold lookupDynRule
  rcases lookupDynRuleLocked pkt ack now T with ⟨_ | ⟨q, dir⟩, T'⟩ <;> rfl

/-- Every step keeps the invariant. -/
theorem Firewall.Next.inv (h : σ.Next InstallBounded τ) (hσ : σ.dyn.Inv σ.rules) : τ.dyn.Inv τ.rules := by
  cases h with
  | op o =>
    refine hσ.mono fun f hf => ?_
    rcases hf with hf | hf
    · by_cases hmem : f ∈ (σ.rs.step o).chain.map
      · exact .inl hmem
      · exact .inr (List.mem_append_right _ (List.mem_filter.2 ⟨hf, decide_eq_true hmem⟩))
    · exact .inr (List.mem_append_left _ hf)
  | @children f fs now hreap =>
    refine (removeDynChildren_inv hσ).mono fun g hg => ?_
    rcases hg.1 with hmem | hmem
    · exact .inl hmem
    · rw [hreap] at hmem
      exact .inr ((List.mem_cons.1 hmem).resolve_left hg.2)
  | install M f op cmd tablearg pkt junk now hf hb => exact installState_inv hσ hf hb
  | lookup pkt ack now =>
    rw [lookupDynRule_table]
    exact lookupDynRuleLocked_inv hσ
  | remove rule keep force now => exact removeDynRule_inv hσ
  | sysctl v hv => exact { hσ with buckets := hv }

theorem Firewall.Reach.inv (h : σ.Reach InstallBounded) : σ.dyn.Inv σ.rules := by
  induction h with
  | init b => exact .init
  | next _ hnext ih => exact hnext.inv ih

/-- **The integrity of the table of dynamic rules** in every reachable state. -/
theorem Firewall.Reach.table_intact (h : σ.Reach InstallBounded) : σ.Intact where
  nodup := h.inv.nodup_entries
  count := h.inv.count
  bucket i q hq := ⟨h.inv.lt_curr hq, h.inv.bucket i q hq⟩
  parent := h.inv.parent
  sessions := h.inv.sessions
  rule := h.inv.rule
  deleted hreap q hq := (h.inv.rule q hq).resolve_right fun hmem => by
    rw [hreap] at hmem
    exact absurd hmem List.not_mem_nil

theorem DynTable.Bounded.of_length {T : DynTable} (h : T.entries.length < 2 ^ 16) : T.Bounded :=
  ⟨h.trans (by decide), fun _ => List.countP_le_length.trans_lt h⟩

/-- A rule is added, a packet makes a session of it, and the rule is deleted again. -/
def addedRule : Firewall := (Firewall.mk (.init false) .init []).op (.add default true true)

def addedSession : Firewall :=
  { addedRule with
    dyn := (installState ⟨fun _ => true, true, true⟩ 1 .limit 0x10100#32 0 default default 0
      addedRule.dyn).2 }

theorem intact_of_deleted :
    (Firewall.mk (addedSession.op (.del 100 true)).rs
      (removeDynChildren 1 1 (addedSession.op (.del 100 true)).dyn) []).Intact := by
  have hadd : addedRule.Reach InstallBounded := .next (.init false) (.op _)
  have hinstall : addedSession.Reach InstallBounded := by
    refine .next hadd (.install _ 1 .limit _ 0 default default 0 (.inl (by decide)) fun _ => ?_)
    exact .of_length (by decide +kernel)
  have hdel : (addedSession.op (.del 100 true)).Reach InstallBounded := .next hinstall (.op _)
  exact Firewall.Reach.table_intact (.next hdel (.children 1 (by decide +kernel)))

end Ipfw
