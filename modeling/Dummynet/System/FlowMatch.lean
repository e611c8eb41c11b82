import Dummynet.System.Flow

/-!
# Flow ids as keys

The tables of queues and of scheduler instances hash an object by its flow id and compare the ids
within one bucket. The comparison branches on the family of its first argument, so that it is an
equivalence that the hash respects only where no IPv6 id meets the id of another family with the
same IPv6 fields.

## Main definitions

* `FlowId.Compatible`: what a lookup needs of the comparison of two ids.
* `FlowId.Crossed`: the pairs on which the comparison fails.
* `DnHt.Filled`: the tables that insertions and removals make.

## Main results

* `flowIdCmp_equivalence`: the comparison is an equivalence that agrees with the hash, and lookups
  are right, exactly without crossed ids.
-/

namespace Dummynet

variable {α : Type} {a b c : FlowId} {fid : α → FlowId} {ht : DnHt α}

/-- Two ids are of one address family. -/
def FlowId.SameFamily (a b : FlowId) : Prop := a.isIp6 ↔ b.isIp6

/-- The fields that are compared for IPv4 are the same. -/
structure FlowId.Agree4 (a b : FlowId) : Prop where
  dstIp : a.dstIp = b.dstIp
  srcIp : a.srcIp = b.srcIp
  dstPort : a.dstPort = b.dstPort
  srcPort : a.srcPort = b.srcPort
  proto : a.proto = b.proto
  extra : a.extra = b.extra

/-- The fields that are compared for IPv6 are the same. -/
structure FlowId.Agree6 (a b : FlowId) : Prop where
  dstIp6 : a.dstIp6 = b.dstIp6
  srcIp6 : a.srcIp6 = b.srcIp6
  dstPort : a.dstPort = b.dstPort
  srcPort : a.srcPort = b.srcPort
  proto : a.proto = b.proto
  extra : a.extra = b.extra
  flowId6 : a.flowId6 = b.flowId6

/-- Ids of different families with the same IPv6 fields. -/
def FlowId.Crossed (a b : FlowId) : Prop := ¬ a.SameFamily b ∧ a.Agree6 b

/-- The comparison of two ids does not depend on their order, and ids that compare equal are of
one family and have one hash. -/
structure FlowId.Compatible (a b : FlowId) : Prop where
  symm : flowIdCmp a b = true ↔ flowIdCmp b a = true
  family : flowIdCmp a b = true → a.SameFamily b
  hash : flowIdCmp a b = true → flowIdHash a = flowIdHash b

namespace FlowId

theorem Agree4.symm (h : a.Agree4 b) : b.Agree4 a :=
  ⟨h.dstIp.symm, h.srcIp.symm, h.dstPort.symm, h.srcPort.symm, h.proto.symm, h.extra.symm⟩

theorem Agree6.symm (h : a.Agree6 b) : b.Agree6 a :=
  ⟨h.dstIp6.symm, h.srcIp6.symm, h.dstPort.symm, h.srcPort.symm, h.proto.symm, h.extra.symm,
    h.flowId6.symm⟩

theorem Agree4.trans (h : a.Agree4 b) (h' : b.Agree4 c) : a.Agree4 c :=
  ⟨h.dstIp.trans h'.dstIp, h.srcIp.trans h'.srcIp, h.dstPort.trans h'.dstPort,
    h.srcPort.trans h'.srcPort, h.proto.trans h'.proto, h.extra.trans h'.extra⟩

theorem Agree6.trans (h : a.Agree6 b) (h' : b.Agree6 c) : a.Agree6 c :=
  ⟨h.dstIp6.trans h'.dstIp6, h.srcIp6.trans h'.srcIp6, h.dstPort.trans h'.dstPort,
    h.srcPort.trans h'.srcPort, h.proto.trans h'.proto, h.extra.trans h'.extra,
    h.flowId6.trans h'.flowId6⟩

theorem SameFamily.symm (h : a.SameFamily b) : b.SameFamily a := Iff.symm h

theorem Crossed.symm (h : a.Crossed b) : b.Crossed a :=
  ⟨fun hf => h.1 hf.symm, h.2.symm⟩

/-- The hash looks at what is compared. -/
theorem Agree4.flowIdHash_eq (h : a.Agree4 b) (ha : ¬ a.isIp6) (hb : ¬ b.isIp6) :
    flowIdHash a = flowIdHash b := by
  unfold flowIdHash
  rw [if_neg ha, if_neg hb, h.dstIp, h.srcIp, h.dstPort, h.srcPort, h.proto, h.extra]

theorem Agree6.flowIdHash_eq (h : a.Agree6 b) (ha : a.isIp6) (hb : b.isIp6) :
    flowIdHash a = flowIdHash b := by
  unfold flowIdHash
  rw [if_pos ha, if_pos hb, h.dstIp6, h.srcIp6, h.dstPort, h.srcPort, h.proto, h.extra, h.flowId6]

/-! ### The comparison -/

/-- An IPv6 id does not look at the family of the other one. -/
theorem flowIdCmp_of_isIp6 (ha : a.isIp6) : flowIdCmp a b = true ↔ a.Agree6 b := by
  unfold flowIdCmp
  rw [if_neg (not_not.2 ha), decide_eq_true_iff]
  constructor
  · rintro ⟨hd, hs, hdp, hsp, hp, he, hf⟩
    exact ⟨hd, hs, hdp, hsp, hp, he, hf⟩
  · intro h
    exact ⟨h.dstIp6, h.srcIp6, h.dstPort, h.srcPort, h.proto, h.extra, h.flowId6⟩

theorem flowIdCmp_of_not_isIp6 (ha : ¬ a.isIp6) :
    flowIdCmp a b = true ↔ ¬ b.isIp6 ∧ a.Agree4 b := by
  unfold flowIdCmp
  rw [if_pos ha]
  by_cases hb : b.isIp6
  · simp [hb]
  · rw [if_neg hb, decide_eq_true_iff, and_iff_right hb]
    constructor
    · rintro ⟨hd, hs, hdp, hsp, hp, he⟩
      exact ⟨hd, hs, hdp, hsp, hp, he⟩
    · intro h
      exact ⟨h.dstIp, h.srcIp, h.dstPort, h.srcPort, h.proto, h.extra⟩

theorem flowIdCmp_self (a : FlowId) : flowIdCmp a a = true := by
  by_cases ha : a.isIp6
  · exact (flowIdCmp_of_isIp6 ha).2 ⟨rfl, rfl, rfl, rfl, rfl, rfl, rfl⟩
  · exact (flowIdCmp_of_not_isIp6 ha).2 ⟨ha, rfl, rfl, rfl, rfl, rfl, rfl⟩

/-- Without crossed ids, two ids compare equal if they are of one family and its fields agree. -/
theorem flowIdCmp_iff (h : ¬ a.Crossed b) :
    flowIdCmp a b = true ↔
      (a.isIp6 ∧ b.isIp6 ∧ a.Agree6 b) ∨ (¬ a.isIp6 ∧ ¬ b.isIp6 ∧ a.Agree4 b) := by
  by_cases ha : a.isIp6
  · rw [flowIdCmp_of_isIp6 ha]
    constructor
    · intro h6
      have hb : b.isIp6 := by
        by_contra hb
        exact h ⟨fun hf => hb (hf.1 ha), h6⟩
      exact .inl ⟨ha, hb, h6⟩
    · rintro (⟨-, -, h6⟩ | ⟨hna, -, -⟩)
      · exact h6
      · exact absurd ha hna
  · rw [flowIdCmp_of_not_isIp6 ha]
    constructor
    · rintro ⟨hb, h4⟩
      exact .inr ⟨ha, hb, h4⟩
    · rintro (⟨ha', -, -⟩ | ⟨-, hb, h4⟩)
      · exact absurd ha' ha
      · exact ⟨hb, h4⟩

/-- The comparison fails exactly on the crossed pairs. -/
theorem compatible_iff : a.Compatible b ↔ ¬ a.Crossed b := by
  constructor
  · rintro hc ⟨hf, h6⟩
    by_cases ha : a.isIp6
    · exact hf (hc.family ((flowIdCmp_of_isIp6 ha).2 h6))
    · have hb : b.isIp6 := by
        by_contra hb
        exact hf (iff_of_false ha hb)
      exact hf (hc.family (hc.symm.2 ((flowIdCmp_of_isIp6 hb).2 h6.symm)))
  · intro h
    refine ⟨?_, fun hcmp => ?_, fun hcmp => ?_⟩
    · rw [flowIdCmp_iff h, flowIdCmp_iff fun h' => h h'.symm]
      constructor
      · rintro (⟨ha, hb, h6⟩ | ⟨ha, hb, h4⟩)
        · exact .inl ⟨hb, ha, h6.symm⟩
        · exact .inr ⟨hb, ha, h4.symm⟩
      · rintro (⟨hb, ha, h6⟩ | ⟨hb, ha, h4⟩)
        · exact .inl ⟨ha, hb, h6.symm⟩
        · exact .inr ⟨ha, hb, h4.symm⟩
    · rcases (flowIdCmp_iff h).1 hcmp with ⟨ha, hb, -⟩ | ⟨ha, hb, -⟩
      · exact iff_of_true ha hb
      · exact iff_of_false ha hb
    · rcases (flowIdCmp_iff h).1 hcmp with ⟨ha, hb, h6⟩ | ⟨ha, hb, h4⟩
      · exact h6.flowIdHash_eq ha hb
      · exact h4.flowIdHash_eq ha hb

/-- Ids that compare equal to one id are equal to each other. -/
theorem flowIdCmp_trans (hab : ¬ a.Crossed b)
    (h : flowIdCmp a b = true) (h' : flowIdCmp b c = true) : flowIdCmp a c = true := by
  rcases (flowIdCmp_iff hab).1 h with ⟨ha, hb, h6⟩ | ⟨ha, hb, h4⟩
  · exact (flowIdCmp_of_isIp6 ha).2 (h6.trans ((flowIdCmp_of_isIp6 hb).1 h'))
  · obtain ⟨hc, h4'⟩ := (flowIdCmp_of_not_isIp6 hb).1 h'
    exact (flowIdCmp_of_not_isIp6 ha).2 ⟨hc, h4.trans h4'⟩

end FlowId

/-! ### Tables -/

namespace DnHt

/-- The tables whose objects have been inserted by the hash of their flow ids. -/
inductive Filled (fid : α → FlowId) : DnHt α → Prop
  | init (n : ℕ) : Filled fid { buckets := n }
  | insert {ht : DnHt α} (o : α) (h : Filled fid ht) : Filled fid (ht.insert (flowIdHash (fid o)) o)
  | remove [DecidableEq α] {ht : DnHt α} (o : α) (h : Filled fid ht) : Filled fid (ht.remove o)

/-- Each object is in the bucket of its flow id. -/
theorem Filled.bucket_eq (h : ht.Filled fid) :
    ∀ e ∈ ht.objs, e.1 = ht.bucket (flowIdHash (fid e.2)) := by
  induction h with
  | init n => exact fun e he => absurd he List.not_mem_nil
  | insert o h ih =>
    intro e he
    rcases List.mem_cons.1 he with rfl | he
    · rfl
    · exact ih e he
  | remove o h ih => exact fun e he => ih e (List.mem_filter.1 he).1

/-- A lookup finds an object whose id is equal and has the same hash. -/
theorem Filled.find_ne_none (h : ht.Filled fid) {o : α} (ho : o ∈ ht.ordered)
    (hhash : flowIdHash (fid o) = flowIdHash b) (hcmp : flowIdCmp (fid o) b = true) :
    ht.find (flowIdHash b) (fun p => flowIdCmp (fid p) b) ≠ none := by
  obtain ⟨i, hi⟩ := mem_ordered.1 ho
  have hbucket : i = ht.bucket (flowIdHash b) := by
    rw [← hhash]
    exact h.bucket_eq _ hi
  intro hnone
  have hmiss := List.find?_eq_none.1 hnone o (mem_chain.2 (hbucket ▸ hi))
  exact hmiss hcmp

end DnHt

/-- **The comparison of flow ids**. It is reflexive; it is symmetric and respects the family and the
hash of two ids exactly if they are not crossed, and without crossed ids it is transitive. A lookup
in a table without an object whose id is crossed with the one that it looks for returns an object of the
same family only, and does not miss an equal one. -/
theorem flowIdCmp_equivalence (a b : FlowId) :
    flowIdCmp a a = true ∧ (a.Compatible b ↔ ¬ a.Crossed b) ∧
      (∀ c : FlowId, ¬ a.Crossed b → flowIdCmp a b = true → flowIdCmp b c = true →
        flowIdCmp a c = true) ∧
      ∀ (α : Type) (fid : α → FlowId) (ht : DnHt α), ht.Filled fid →
        (∀ o ∈ ht.ordered, ¬ (fid o).Crossed a) →
        (∀ o, ht.find (flowIdHash a) (fun p => flowIdCmp (fid p) a) = some o →
          (fid o).SameFamily a ∧ flowIdCmp a (fid o) = true) ∧
        ((∃ o ∈ ht.ordered, flowIdCmp a (fid o) = true) →
          ht.find (flowIdHash a) (fun p => flowIdCmp (fid p) a) ≠ none) := by
  refine ⟨FlowId.flowIdCmp_self a, FlowId.compatible_iff, fun c => FlowId.flowIdCmp_trans,
    fun α fid ht hfill hcross => ⟨fun o ho => ?_, ?_⟩⟩
  · obtain ⟨hmem, hcmp⟩ := DnHt.find_eq_some ho
    have hcompat := FlowId.compatible_iff.2 (hcross o hmem)
    exact ⟨hcompat.family hcmp, hcompat.symm.1 hcmp⟩
  · rintro ⟨o, hmem, hcmp⟩
    have hcompat := FlowId.compatible_iff.2 (hcross o hmem)
    have hcmp' := hcompat.symm.2 hcmp
    exact hfill.find_ne_none hmem (hcompat.hash hcmp') hcmp'

/-- The id of an IPv6 packet whose addresses a mask has zeroed. -/
def maskedIp6 : FlowId := { proto := 17, addrType := 6 }

/-- The id of an IPv4 packet to 10.0.0.1. -/
def flowIp4 : FlowId := { dstIp := 0x0a000001#32, proto := 17, addrType := 4 }

/-- The IPv6 id compares equal to the IPv4 one, not the other way round, and their hashes
differ. -/
theorem flowIdCmp_crossed :
    ¬ ∀ a b : FlowId, (flowIdCmp a b = true ↔ flowIdCmp b a = true) ∧
      (flowIdCmp a b = true → a.SameFamily b ∧ flowIdHash a = flowIdHash b) := by
  intro h
  have hcmp : flowIdCmp maskedIp6 flowIp4 = true := by decide
  have hback : flowIdCmp flowIp4 maskedIp6 = false := by decide
  rw [(h maskedIp6 flowIp4).1.1 hcmp] at hback
  exact Bool.noConfusion hback

/-- A table with the queue of an IPv6 flow finds it again. -/
theorem flowIdCmp_equivalence_table :
    (DnHt.insert { buckets := 63 } (flowIdHash maskedIp6) ()).find (flowIdHash maskedIp6)
      (fun _ => flowIdCmp maskedIp6 maskedIp6) ≠ none :=
  ((flowIdCmp_equivalence maskedIp6 flowIp4).2.2.2 Unit (fun _ => maskedIp6) _
    (.insert () (.init 63)) fun _ _ h => h.1 Iff.rfl).2
      ⟨(), by decide, (flowIdCmp_equivalence maskedIp6 flowIp4).1⟩

end Dummynet
