import Dummynet.Wf2q.Membership

/-!
# An eligible queue for those that wait

The virtual time never stays behind all queues that wait: as long as `ne` holds a queue, so does
`sch`. Every operation keeps this, whatever the timestamps are, except that a queue with packets
can be freed when it is the only one in `sch`.

## Main definitions

* `SomeEligible`: the invariant, about the number of entries of two heaps only.
* `Strands`: the operations that break it.
* `stamped`, `Ouch`: when `wf2qp_enqueue` prints that nothing is eligible.

## Main results

* `someEligible_iff`: one operation keeps the invariant exactly if it does not strand the others.
* `someEligible_of_run`: the same for the states of a run, with the diagnostic out of reach.
-/

namespace Dummynet

section Elements

variable {Obj : Type} [DecidableEq Obj]

theorem bubbleUp_elements (fuel : ℕ) (h : DnHeap Obj) (pos : Obj → ℤ) (son : ℕ) :
    (bubbleUp fuel h pos son).1.elements = h.elements := by
  induction fuel generalizing h pos son with
  | zero => rfl
  | succ fuel ih =>
    rw [bubbleUp]
    split_ifs
    · rfl
    · rfl
    · exact ih ..

theorem sinkHole_elements (fuel : ℕ) (h : DnHeap Obj) (pos : Obj → ℤ) (max father : ℕ) :
    (sinkHole fuel h pos max father).1.elements = h.elements := by
  induction fuel generalizing h pos father with
  | zero => rfl
  | succ fuel ih =>
    rw [sinkHole]
    split_ifs
    · exact ih ..
    · rfl

/-- `heap_insert` adds one entry. -/
theorem heapInsert_elements (h : DnHeap Obj) (pos : Obj → ℤ) (k : BitVec 64) (o : Obj) :
    (heapInsert true h pos k o).2.1.elements = h.elements + 1 := by
  obtain ⟨size, hsize⟩ := heapInsert_eq h pos k o
  rw [hsize]
  exact bubbleUp_elements ..

/-- `heap_extract` takes one entry out, if there is one. -/
theorem heapExtract_elements {h : DnHeap Obj} {pos : Obj → ℤ} {o : Option Obj}
    {r : DnHeap Obj × (Obj → ℤ)} (hr : heapExtract h pos o = some r) :
    r.1.elements = h.elements - 1 := by
  unfold heapExtract at hr
  split_ifs at hr with h0
  · obtain rfl := Option.some.inj hr
    rw [h0]
  · obtain ⟨father, -, rfl⟩ := Option.map_eq_some_iff.1 hr
    unfold extractAt
    have hsink := sinkHole_elements h.elements h (resetOffset h pos father) (h.elements - 1) father
    dsimp only
    split_ifs
    · rw [heapInsertNull, bubbleUp_elements]
      exact congrArg (· - 1) hsink
    · exact congrArg (· - 1) hsink

end Elements

namespace Wf2qp

variable {s t u : Wf2qp} {q : QPtr} {m : Mbuf} {r : Draws}

/-! ### The number of entries -/

theorem elements_insertIn (s : Wf2qp) (w w' : WHeap) (k : BitVec 64) (q : QPtr) :
    elements (insertIn s w k q) w' = elements s w' + if w' = w then 1 else 0 := by
  unfold insertIn setHeap elements
  rcases eq_or_ne w' w with rfl | hne
  · rw [if_pos rfl]
    dsimp only
    rw [Function.update_self]
    exact heapInsert_elements ..
  · rw [if_neg hne]
    dsimp only
    rw [Function.update_of_ne hne]
    rfl

theorem elements_extractFrom {w : WHeap} {o : Option QPtr} (h : extractFrom s w o = some t)
    (w' : WHeap) : elements t w' = elements s w' - if w' = w then 1 else 0 := by
  obtain ⟨x, hx, rfl⟩ := Option.map_eq_some_iff.1 h
  unfold setHeap elements
  rcases eq_or_ne w' w with rfl | hne
  · rw [if_pos rfl]
    dsimp only
    rw [Function.update_self]
    exact heapExtract_elements hx
  · rw [if_neg hne]
    dsimp only
    rw [Function.update_of_ne hne]
    rfl

/-- The heaps of the backlogged queues have as many entries as before. -/
structure SameSizes (s t : Wf2qp) : Prop where
  sch : elements t .sch = elements s .sch
  ne : elements t .ne = elements s .ne

theorem SameSizes.refl (s : Wf2qp) : SameSizes s s := ⟨rfl, rfl⟩

theorem SameSizes.trans (h : SameSizes s t) (h' : SameSizes t u) : SameSizes s u :=
  ⟨h'.sch.trans h.sch, h'.ne.trans h.ne⟩

theorem SameSizes.of_heap_eq (h : t.priv.heap = s.priv.heap) : SameSizes s t := by
  constructor <;> · unfold elements; rw [h]

theorem SameSizes.extract_idle {o : Option QPtr} (h : extractFrom s .idle o = some t) :
    SameSizes s t :=
  ⟨elements_extractFrom h .sch, elements_extractFrom h .ne⟩

theorem idleCheck_sizes {n : ℕ} {force : Bool} (h : idleCheck n s force = some t) :
    SameSizes s t := by
  induction n generalizing s with
  | zero =>
    obtain rfl := Option.some.inj h
    exact .refl _
  | succ n ih =>
    rw [idleCheck] at h
    dsimp only at h
    split_ifs at h
    · obtain ⟨u, hu, h⟩ := Option.bind_eq_some_iff.1 h
      have hwrite : SameSizes u (subWeight (setTimes u (s.priv.heap .idle).topObject
          ((u.ext (s.priv.heap .idle).topObject).F + 1)
          (u.ext (s.priv.heap .idle).topObject).F) (s.priv.heap .idle).topObject) :=
        .of_heap_eq rfl
      exact ((SameSizes.extract_idle hu).trans hwrite).trans (ih h)
    · obtain rfl := Option.some.inj h
      exact .refl _

theorem restamp_sizes {len : BitVec 64} (h : restamp s q len = some t) : SameSizes s t := by
  unfold restamp at h
  dsimp only at h
  obtain ⟨⟨u, S⟩, hu, rfl⟩ := Option.map_eq_some_iff.1 h
  refine SameSizes.trans (t := u) ?_ (.of_heap_eq rfl)
  split_ifs at hu
  · obtain ⟨u', hu', he⟩ := Option.map_eq_some_iff.1 hu
    obtain ⟨rfl, -⟩ := Prod.mk.inj he
    unfold addWeight at hu'
    dsimp only at hu'
    split_ifs at hu'
    obtain rfl := Option.some.inj hu'
    exact .of_heap_eq rfl
  · obtain ⟨u', hu', he⟩ := Option.map_eq_some_iff.1 hu
    obtain ⟨rfl, -⟩ := Prod.mk.inj he
    exact .extract_idle hu'

/-! ### The invariant -/

/-- A queue is eligible if any queue waits. -/
def SomeEligible (s : Wf2qp) : Prop := 0 < elements s .ne → 0 < elements s .sch

instance (s : Wf2qp) : Decidable (SomeEligible s) := inferInstanceAs (Decidable (_ → _))

/-- The operation frees the only queue in `sch` while others wait. -/
def Strands (s : Wf2qp) : SchedOp → Prop
  | .delete q _ safe =>
    safe = false ∧ ¬ (s.ext q).F + 1 ≤ (s.ext q).S ∧ s.mq q ≠ [] ∧
      keyLT s.priv.V (s.ext q).S = false ∧ elements s .sch = 1 ∧ 0 < elements s .ne
  | _ => False

instance (s : Wf2qp) : (i : SchedOp) → Decidable (Strands s i)
  | .delete .. => inferInstanceAs (Decidable (_ ∧ _ ∧ _))
  | .new .. | .enqueue .. | .dequeue => instDecidableFalse

theorem SameSizes.someEligible_iff (h : SameSizes s t) : SomeEligible t ↔ SomeEligible s := by
  rw [SomeEligible, SomeEligible, h.sch, h.ne]

/-- No start time is after `V` once `V` has moved up to it. -/
theorem keyLT_max64 (x y : BitVec 64) : keyLT (max64 x y) x = false := by
  unfold max64
  split_ifs with h
  · exact decide_eq_false (not_lt.2 h.le)
  · exact Serial.lt_self x

theorem keyLEQ_max64 (x y : BitVec 64) : keyLEQ y (max64 x y) = true := by
  unfold max64
  split_ifs with h
  · exact Serial.le_self y
  · exact decide_eq_true (not_lt.1 h)

/-- **Enqueue.** A queue that waits has found an eligible one. -/
theorem place_someEligible (h : SomeEligible s) (q : QPtr) : SomeEligible (place s q) := by
  unfold place
  dsimp only
  by_cases h0 : elements s .ne = 0 ∧ elements s .sch = 0
  · have hlt : keyLT (setV s (max64 (s.ext q).S s.priv.V)).priv.V (s.ext q).S = false :=
      keyLT_max64 ..
    rw [if_pos h0, if_neg (by rw [hlt]; exact Bool.false_ne_true)]
    intro _
    rw [elements_insertIn, if_pos rfl]
    omega
  · rw [if_neg h0]
    split_ifs with hlt
    · intro _
      rw [elements_insertIn]
      have hsch : elements s .sch ≠ 0 := fun hsch => h0 ⟨by
        by_contra hne
        exact (h (Nat.pos_of_ne_zero hne)).ne' hsch, hsch⟩
      omega
    · intro _
      rw [elements_insertIn, if_pos rfl]
      omega

theorem moveEligible_sch {n : ℕ} (h : moveEligible n s = some t) :
    elements s .sch ≤ elements t .sch ∧ elements t .ne ≤ elements s .ne := by
  induction n generalizing s with
  | zero =>
    obtain rfl := Option.some.inj h
    exact ⟨le_rfl, le_rfl⟩
  | succ n ih =>
    rw [moveEligible] at h
    dsimp only at h
    split_ifs at h
    · obtain ⟨u, hu, h⟩ := Option.bind_eq_some_iff.1 h
      obtain ⟨hsch, hne⟩ := ih h
      rw [elements_insertIn, elements_extractFrom hu] at hsch hne
      simp only [reduceCtorEq, if_false, if_true] at hsch hne
      omega
    · obtain rfl := Option.some.inj h
      exact ⟨le_rfl, le_rfl⟩

/-- **Dequeue.** Both before and after a packet is taken, some queue becomes eligible. -/
theorem settle_someEligible (h : settle s = some t) : SomeEligible t := by
  unfold settle raiseV at h
  dsimp only at h
  split_ifs at h with hc
  · obtain ⟨n, hn⟩ := Nat.exists_eq_succ_of_ne_zero hc.2.ne'
    have hel : elements (setV s (max64 s.priv.V (s.priv.heap .ne).topKey)) .ne = n + 1 := hn
    have htop : 0 < elements (setV s (max64 s.priv.V (s.priv.heap .ne).topKey)) .ne ∧
        keyLEQ ((setV s (max64 s.priv.V (s.priv.heap .ne).topKey)).priv.heap .ne).topKey
          (setV s (max64 s.priv.V (s.priv.heap .ne).topKey)).priv.V = true :=
      ⟨hel ▸ Nat.succ_pos n, keyLEQ_max64 ..⟩
    rw [hel, moveEligible, if_pos htop] at h
    obtain ⟨u, hu, h⟩ := Option.bind_eq_some_iff.1 h
    have hle := (moveEligible_sch h).1
    rw [elements_insertIn, if_pos rfl] at hle
    intro _
    omega
  · intro hne
    obtain ⟨hsch, hle⟩ := moveEligible_sch h
    rcases not_and_or.1 hc with hs | hs
    · omega
    · exact absurd (hne.trans_le hle) hs

theorem dequeue_someEligible {o : Option Mbuf} (h : wf2qpDequeue s = some (o, t)) :
    SomeEligible t := by
  unfold wf2qpDequeue at h
  split_ifs at h with h0
  · obtain ⟨u, hu, he⟩ := Option.map_eq_some_iff.1 h
    obtain ⟨-, rfl⟩ := Prod.mk.inj he
    intro hne
    have hu0 : elements u .ne = 0 := (idleCheck_sizes hu).ne.trans h0.2
    exact absurd hu0 hne.ne'
  · obtain ⟨u, -, h⟩ := Option.bind_eq_some_iff.1 h
    obtain ⟨v, -, h⟩ := Option.bind_eq_some_iff.1 h
    obtain ⟨r, -, h⟩ := Option.bind_eq_some_iff.1 h
    obtain ⟨w, hw, he⟩ := Option.map_eq_some_iff.1 h
    obtain ⟨-, rfl⟩ := Prod.mk.inj he
    exact settle_someEligible hw

theorem activate_someEligible {len : BitVec 64} {b : Bool} (h : SomeEligible s)
    (ht : (restamp s q len).map (fun s => (false, place s q)) = some (b, t)) : SomeEligible t := by
  obtain ⟨u, hu, he⟩ := Option.map_eq_some_iff.1 ht
  obtain ⟨-, rfl⟩ := Prod.mk.inj he
  exact place_someEligible ((restamp_sizes hu).someEligible_iff.2 h) q

theorem enqueue_someEligible {b : Bool} (h : SomeEligible s)
    (ht : wf2qpEnqueue s q m r = some (b, t)) : SomeEligible t := by
  obtain ⟨drop, u, heq, hsame⟩ := s.enqueue_spec q m false r
  have hu : SomeEligible u := (SameSizes.of_heap_eq (by rw [hsame.priv])).someEligible_iff.2 h
  rw [wf2qpEnqueue, heq] at ht
  dsimp only at ht
  split_ifs at ht
  · exact activate_someEligible h ht
  · obtain ⟨-, rfl⟩ := Prod.mk.inj (Option.some.inj ht)
    exact hu
  · exact activate_someEligible hu ht
  · obtain ⟨-, rfl⟩ := Prod.mk.inj (Option.some.inj ht)
    exact hu

theorem qNew_someEligible {fs : DnFsk} (h : SomeEligible s) (ht : qNew wf2qpDesc s q fs = some t) :
    SomeEligible t := by
  obtain ⟨⟨n, u⟩, hu, rfl⟩ := Option.map_eq_some_iff.1 ht
  refine (SameSizes.of_heap_eq rfl).someEligible_iff.2 (?_ : SomeEligible u)
  simp only [wf2qpDesc, wf2qpNewQueue] at hu
  split_ifs at hu
  split at hu
  · obtain ⟨-, rfl⟩ := Prod.mk.inj (Option.some.inj hu)
    exact (SameSizes.of_heap_eq rfl).someEligible_iff.2 h
  · obtain ⟨⟨b, u'⟩, hu', he⟩ := Option.map_eq_some_iff.1 hu
    obtain ⟨-, rfl⟩ := Prod.mk.inj he
    refine enqueue_someEligible ?_ hu'
    exact (SameSizes.of_heap_eq (s := s) rfl).someEligible_iff.2 h

/-- **Free queue.** A queue that leaves `sch` must not be the last one there. -/
theorem freeQueue_someEligible {safe b destroy : Bool} (h : SomeEligible s)
    (ht : wf2qpFreeQueue s q safe = some (b, t)) :
    SomeEligible t ↔ ¬ Strands s (.delete q destroy safe) := by
  unfold wf2qpFreeQueue at ht
  dsimp only at ht
  split_ifs at ht with hstale hsafe hnil hlt
  · obtain ⟨-, rfl⟩ := Prod.mk.inj (Option.some.inj ht)
    exact iff_of_true h fun hs => hs.2.1 hstale
  · obtain ⟨-, rfl⟩ := Prod.mk.inj (Option.some.inj ht)
    exact iff_of_true h fun hs => Bool.false_ne_true (hs.1.symm.trans hsafe)
  all_goals
    obtain ⟨u, hu, he⟩ := Option.map_eq_some_iff.1 ht
    obtain ⟨-, rfl⟩ := Prod.mk.inj he
    have hel := elements_extractFrom hu
    have hsub : ∀ w, elements (subWeight s q) w = elements s w := fun w => rfl
    simp only [hsub] at hel
  · have hsch : elements u .sch = elements s .sch := hel .sch
    have hne : elements u .ne = elements s .ne := hel .ne
    exact iff_of_true ((SameSizes.mk hsch hne).someEligible_iff.2 h) fun hs => hs.2.2.1 hnil
  · refine iff_of_true (fun hne => ?_) fun hs => ?_
    · rw [hel] at hne ⊢
      exact h (hne.trans_le (Nat.sub_le ..))
    · exact Bool.false_ne_true (hs.2.2.2.1.symm.trans hlt)
  · have hsch : elements u .sch = elements s .sch - 1 := hel .sch
    have hne : elements u .ne = elements s .ne := hel .ne
    rw [SomeEligible, hsch, hne]
    constructor
    · intro hu' hs
      have hpos := hu' hs.2.2.2.2.2
      have hone := hs.2.2.2.2.1
      omega
    · intro hs hpos
      have hmany : elements s .sch ≠ 1 := fun hone =>
        hs ⟨by simpa using hsafe, hstale, hnil, Bool.eq_false_of_not_eq_true hlt, hone, hpos⟩
      have hsome := h hpos
      omega

/-- **One operation** keeps the invariant exactly if it does not strand the queues that wait. -/
theorem someEligible_iff {i : SchedOp} {o : Option Mbuf} (h : SomeEligible s)
    (ht : wf2qpDesc.step s i = some (o, t)) : SomeEligible t ↔ ¬ Strands s i := by
  cases i with
  | new p fs =>
    obtain ⟨u, hu, he⟩ := Option.map_eq_some_iff.1 ht
    obtain ⟨-, rfl⟩ := Prod.mk.inj he
    exact iff_of_true (qNew_someEligible h hu) not_false
  | delete p destroy safe =>
    obtain ⟨⟨b, u⟩, hu, he⟩ := Option.map_eq_some_iff.1 ht
    obtain ⟨-, rfl⟩ := Prod.mk.inj he
    obtain ⟨⟨kept, v⟩, hv, he⟩ := Option.map_eq_some_iff.1 hu
    rw [← freeQueue_someEligible h hv]
    dsimp only at he
    split_ifs at he
    · obtain ⟨-, rfl⟩ := Prod.mk.inj he
      exact Iff.rfl
    · obtain ⟨-, rfl⟩ := Prod.mk.inj he
      exact (SameSizes.of_heap_eq (by rw [(removeQueue_spec v p destroy).1])).someEligible_iff
  | enqueue p m r =>
    obtain ⟨⟨b, u⟩, hu, he⟩ := Option.map_eq_some_iff.1 ht
    obtain ⟨-, rfl⟩ := Prod.mk.inj he
    exact iff_of_true (enqueue_someEligible h hu) not_false
  | dequeue => exact iff_of_true (dequeue_someEligible ht) not_false

/-! ### The diagnostic -/

/-- The state in which `wf2qp_enqueue` looks for a heap for the queue, if it gets there. -/
def stamped (s : Wf2qp) (q : QPtr) (m : Mbuf) (r : Draws) : Option Wf2qp :=
  if s.isHead q m then restamp s q m.len64
  else
    let (drop, s) := s.enqueue q m false r
    if !drop ∧ s.isHead q m then restamp s q m.len64 else none

/-- `wf2qp_enqueue` finds the queue not eligible and the scheduler empty. -/
def Ouch (s : Wf2qp) (q : QPtr) : Prop :=
  let S := (s.ext q).S
  let t := if elements s .ne = 0 ∧ elements s .sch = 0 then setV s (max64 S s.priv.V) else s
  keyLT t.priv.V S = true ∧ elements t .sch = 0

instance (s : Wf2qp) (q : QPtr) : Decidable (Ouch s q) := inferInstanceAs (Decidable (_ ∧ _))

theorem SomeEligible.not_ouch (h : SomeEligible s) (hu : stamped s q m r = some u) :
    ¬ Ouch u q := by
  have hsome : SomeEligible u := by
    obtain ⟨drop, v, heq, hsame⟩ := s.enqueue_spec q m false r
    have hv : SomeEligible v := (SameSizes.of_heap_eq (by rw [hsame.priv])).someEligible_iff.2 h
    rw [stamped, heq] at hu
    dsimp only at hu
    split_ifs at hu
    · exact (restamp_sizes hu).someEligible_iff.2 h
    · exact (restamp_sizes hu).someEligible_iff.2 hv
  rintro ⟨hlt, hsch⟩
  split_ifs at hlt hsch with h0
  · exact Bool.false_ne_true ((keyLT_max64 ..).symm.trans hlt)
  · exact h0 ⟨by
      by_contra hne
      exact (hsome (Nat.pos_of_ne_zero hne)).ne' hsch, hsch⟩

/-! ### Runs -/

theorem IsNew.someEligible (h : IsNew s) : SomeEligible s := by
  intro hne
  unfold elements at hne
  rw [h.priv] at hne
  exact absurd hne (lt_irrefl 0)

theorem someEligible_of_states {l : List (SchedOp × Option Mbuf)} (hs : SomeEligible s)
    (h : Runs.Run wf2qpDesc.step (fun _ _ u => SomeEligible u) s l t) : SomeEligible t :=
  h.invariant (I := SomeEligible) (fun _ _ _ _ _ hok _ => hok) hs

theorem someEligible_of_not_strands {l : List (SchedOp × Option Mbuf)} (hs : SomeEligible s)
    (h : Runs.Run wf2qpDesc.step (fun u i _ => ¬ Strands u i) s l t) : SomeEligible t :=
  h.invariant (fun _ _ _ _ hu hok hst => (someEligible_iff hu hst).2 hok) hs

/-- **A waiting queue never waits alone.** In a run from a new instance, all states have an eligible
queue if one waits exactly if no operation frees the last eligible queue while others wait; and then
`wf2qp_enqueue` never finds the scheduler empty for a queue that is not eligible. -/
theorem someEligible_of_run {l : List (SchedOp × Option Mbuf)} (hs : IsNew s) :
    (Runs.Run wf2qpDesc.step (fun _ _ u => SomeEligible u) s l t ↔
      Runs.Run wf2qpDesc.step (fun u i _ => ¬ Strands u i) s l t) ∧
    (Runs.Run wf2qpDesc.step (fun u i _ => ¬ Strands u i) s l t →
      SomeEligible t ∧ ∀ q m r u, stamped t q m r = some u → ¬ Ouch u q) := by
  refine ⟨⟨fun h => ?_, fun h => ?_⟩, fun h => ?_⟩
  · induction h with
    | nil => exact .nil _
    | snoc hpre hok hst ih =>
      have hpre' := someEligible_of_states hs.someEligible hpre
      exact .snoc ih ((someEligible_iff hpre' hst).1 hok) hst
  · induction h with
    | nil => exact .nil _
    | snoc hpre hok hst ih =>
      have hpre' := someEligible_of_not_strands hs.someEligible hpre
      exact .snoc ih ((someEligible_iff hpre' hst).2 hok) hst
  · have ht := someEligible_of_not_strands hs.someEligible h
    exact ⟨ht, fun q m r u => ht.not_ouch⟩

/-! ### The last eligible queue is freed -/

/-- Three queues get packets: after two rounds the first one is empty, the second one waits for its
next turn, and the third one, which has a long packet, is eligible. -/
def waitOps : List SchedOp :=
  [.new 1 {}, .new 2 {}, .new 3 {}, .enqueue 1 ⟨1, 1000, Mbuf.lt_1000⟩ {},
    .enqueue 2 ⟨2, 1000, Mbuf.lt_1000⟩ {}, .enqueue 2 ⟨3, 1000, Mbuf.lt_1000⟩ {},
    .enqueue 3 ⟨4, 9000, Mbuf.lt_9000⟩ {}, .dequeue, .dequeue]

theorem waitOps_run : ∃ l t, Runs.Run wf2qpDesc.step (fun s i _ => ¬ Strands s i) emptyInst l t ∧
    0 < elements t .ne := by
  have hexec : (Runs.exec wf2qpDesc.step (fun s i _ => ¬ Strands s i) emptyInst waitOps).any
      (fun t => decide (0 < elements t .ne)) = true := by decide +kernel
  obtain ⟨t, ht, hne⟩ := (Option.any_eq_true _ _).1 hexec
  obtain ⟨l, hl⟩ := Runs.Run.of_exec ht
  exact ⟨l, t, hl, of_decide_eq_true hne⟩

/-- While the second queue waits, the third one is eligible. -/
theorem someEligible_of_waitOps : ∃ t : Wf2qp, 0 < elements t .ne ∧ 0 < elements t .sch :=
  have ⟨_, t, hrun, hne⟩ := waitOps_run
  ⟨t, hne, ((someEligible_of_run ⟨rfl, rfl⟩).2 hrun).1 hne⟩

/-- **The last eligible queue is freed.** The third queue is deleted with its packet; the second one
still waits, and a packet for the first one meets the diagnostic. -/
theorem not_someEligible_of_delete :
    ∃ (s t : Wf2qp) (l : List (SchedOp × Option Mbuf)), IsNew s ∧
      Runs.Run wf2qpDesc.step (fun s i _ => i.Promised s) s l t ∧ ¬ SomeEligible t ∧
        ∃ q m r u, stamped t q m r = some u ∧ Ouch u q := by
  have hexec : (Runs.exec wf2qpDesc.step (fun s i _ => i.Promised s) emptyInst
      (waitOps ++ [.delete 3 true false])).any (fun t => decide (¬ SomeEligible t) &&
        (stamped t 1 ⟨5, 1000, by decide⟩ {}).any fun u => decide (Ouch u 1)) = true := by
    decide +kernel
  obtain ⟨t, ht, hbad⟩ := (Option.any_eq_true _ _).1 hexec
  obtain ⟨hsome, houch⟩ := Bool.and_eq_true_iff.1 hbad
  obtain ⟨u, hu, houch⟩ := (Option.any_eq_true _ _).1 houch
  obtain ⟨l, hl⟩ := Runs.Run.of_exec ht
  exact ⟨emptyInst, t, l, ⟨rfl, rfl⟩, hl, of_decide_eq_true hsome, 1, _, _, u, hu,
    of_decide_eq_true houch⟩

end Wf2qp

end Dummynet
