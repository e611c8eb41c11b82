import Dummynet.Wf2q.Enqueue

/-!
# Heap membership in WF2Q+

The runs of a WF2Q+ instance: queues are created and deleted, packets arrive and are taken, in
any order, while the timestamps in use at any moment lie in a window of less than half of the
64-bit words. In every state of such a run a queue is in the heap that its packets and
timestamps ask for, and `wsum` is the sum of the weights of the queues in the heaps, as long as
`wf2qp_free_queue` recognises the queues with invalid timestamps. It compares them as unsigned
numbers, which goes wrong once a finish time has passed `2 ^ 64`: the queue then stays in its
heap after it is freed.

## Main definitions

* `IsNew`, `StepOk`, `FreeOk`, `NoDelete`: the start of a run and the conditions on its steps.
* `HeapMembership`: which queue is in which heap.

## Main results

* `step_inv`, `run_inv`: every step keeps the invariant.
* `heapMembership_of_run`: heap membership in every state reached.
* `not_heapMembership_of_wrap`: a run that leaves a freed queue in a heap.
-/

namespace Dummynet.Wf2qp

open Serial (rank)

/-- An instance right after `wf2qp_new_sched`, without queues. -/
structure IsNew (s : Wf2qp) : Prop where
  priv : s.priv = wf2qpNewSched
  live : s.live = ∅

/-- The state that an operation goes through. -/
def midState (s : Wf2qp) : SchedOp → Option Wf2qp
  | .dequeue => served s
  | _ => none

/-- The timestamps in use before, during and after an operation lie in the window above `c`. -/
def WindowStep (c : BitVec 64) (s : Wf2qp) (i : SchedOp) (t : Wf2qp) : Prop :=
  Window c s ∧ Window c t ∧ ∀ u ∈ midState s i, Window c u

instance (c : BitVec 64) (s : Wf2qp) (i : SchedOp) (t : Wf2qp) : Decidable (WindowStep c s i t) :=
  inferInstanceAs (Decidable (_ ∧ _ ∧ _))

/-- The steps of a run keep the promises of the framework, and the timestamps in use before,
during and after a step lie in one window. -/
structure StepOk (s : Wf2qp) (i : SchedOp) (t : Wf2qp) : Prop where
  promised : i.Promised s
  window : ∃ c, WindowStep c s i t

/-- A queue that is freed has timestamps that `wf2qp_free_queue` recognises. -/
def FreeOk (s : Wf2qp) : SchedOp → Prop
  | .delete q _ _ => FreeRecognised s q
  | _ => True

instance (s : Wf2qp) : (i : SchedOp) → Decidable (FreeOk s i)
  | .delete q _ _ => inferInstanceAs (Decidable (FreeRecognised s q))
  | .new .. | .enqueue .. | .dequeue => instDecidableTrue

/-- The operations of a run in which no queue is deleted. -/
def NoDelete : SchedOp → Prop
  | .delete .. => False
  | _ => True

instance : (i : SchedOp) → Decidable (NoDelete i)
  | .delete .. => instDecidableFalse
  | .new .. | .enqueue .. | .dequeue => instDecidableTrue

/-- A step that can be checked: no deletion, and timestamps that stay below `2 ^ 63`. -/
def CheckedStep (s : Wf2qp) (i : SchedOp) (t : Wf2qp) : Prop :=
  i.Promised s ∧ WindowStep 0 s i t ∧ NoDelete i

instance (s : Wf2qp) (i : SchedOp) (t : Wf2qp) : Decidable (CheckedStep s i t) :=
  inferInstanceAs (Decidable (_ ∧ _ ∧ _))

theorem CheckedStep.stepOk {s t : Wf2qp} {i : SchedOp} (h : CheckedStep s i t) :
    StepOk s i t ∧ NoDelete i :=
  ⟨⟨h.1, 0, h.2.1⟩, h.2.2⟩

theorem NoDelete.freeOk {i : SchedOp} (h : NoDelete i) (s : Wf2qp) : FreeOk s i := by
  cases i with
  | delete => exact h.elim
  | _ => trivial

/-- The invariant, the number of queues, and the window of the last step. -/
structure RunInv (s : Wf2qp) : Prop where
  inv : Inv s
  card : s.live.card < 2 ^ 31
  window : ∃ c, Window c s

variable {s t : Wf2qp} {q : QPtr}

theorem heap_wf2qpNewSched (w : WHeap) :
    (wf2qpNewSched.heap w).elements = 0 ∧ 0 < (wf2qpNewSched.heap w).ofs :=
  ⟨rfl, Int.one_pos⟩

/-- A new instance has the invariant. -/
theorem IsNew.runInv (h : IsNew s) : RunInv s := by
  have hno : ∀ q, q ∉ s.live := by simp [h.live]
  refine ⟨⟨⟨fun q hq => absurd hq (hno q), ?_⟩, ⟨fun w => ?_, fun w k q => ?_⟩⟩, ?_,
    0, fun q hq => absurd hq (hno q)⟩
  · rw [h.priv, h.live]
    rfl
  · obtain ⟨h0, hofs⟩ := heap_wf2qpNewSched w
    rw [h.priv]
    exact ⟨hofs, fun i _ hi => by omega, ⟨fun i j hi => by omega, fun i hi => by omega⟩⟩
  · rw [home_of_not_mem (hno q), h.priv]
    refine iff_of_false ?_ (by simp)
    rintro ⟨i, hi, -⟩
    have := (heap_wf2qpNewSched w).1
    omega
  · simp [h.live]

/-- **Every step keeps the invariant.** -/
theorem step_inv {i : SchedOp} {o : Option Mbuf} (hr : RunInv s) (hok : StepOk s i t)
    (hfree : FreeOk s i) (he : wf2qpDesc.step s i = some (o, t)) : RunInv t := by
  obtain ⟨hp, c, hcs, hct, hcu⟩ := hok
  have hi := hr.inv
  rcases i with ⟨q, fs⟩ | ⟨q, destroy, safe⟩ | ⟨q, m, r⟩ | _
  · -- a new queue
    obtain ⟨u, hu, hut⟩ := Option.map_eq_some_iff.1 he
    obtain rfl : u = t := congrArg Prod.snd hut
    refine ⟨qNew_inv hi hp.1 hu, ?_, c, hct⟩
    have hl := (qNew_eq hu).2.1
    have hcard := Finset.card_insert_le q s.live
    have hlt := hp.2
    rw [hl]
    omega
  · -- a queue is deleted
    obtain ⟨⟨b, u⟩, hu, hut⟩ := Option.map_eq_some_iff.1 he
    obtain rfl : u = t := congrArg Prod.snd hut
    rcases dnDeleteQueue_inv hi hcs hp hfree hu with ⟨-, rfl⟩ | ⟨-, hit, hl, -⟩
    · exact hr
    · refine ⟨hit, ?_, c, hct⟩
      have := Finset.card_erase_le (s := s.live) (a := q)
      have := hr.card
      rw [hl]
      omega
  · -- a packet arrives
    obtain ⟨⟨b, u⟩, hu, hut⟩ := Option.map_eq_some_iff.1 he
    obtain rfl : u = t := congrArg Prod.snd hut
    obtain ⟨hit, hcase⟩ := wf2qpEnqueue_spec hi hcs hp.1 hp.2 hu hct
    have hl : u.live = s.live := by
      rcases hcase with h | ⟨-, h⟩ | ⟨-, h⟩
      · exact h.live
      · exact h.live
      · exact h.live
    exact ⟨hit, hl ▸ hr.card, c, hct⟩
  · -- a packet is taken
    have he' : wf2qpDequeue s = some (o, t) := he
    by_cases hno : ∀ q, ¬ Backlogged s q
    · obtain ⟨u, hu, hiu, hl, -⟩ := wf2qpDequeue_idle hi hcs hr.card hno
      obtain rfl : u = t := by
        rw [hu, Option.some.injEq, Prod.mk.injEq] at he'
        exact he'.2
      exact ⟨hiu, hl ▸ hr.card, c, hct⟩
    · obtain ⟨q, hq⟩ := not_forall_not.1 hno
      obtain ⟨p, m, rest, u, V, hu, hd, hiu, -, -⟩ := wf2qpDequeue_spec hi hcs hcu hq
      obtain rfl : u = t := by
        rw [hu, Option.some.injEq, Prod.mk.injEq] at he'
        exact he'.2
      exact ⟨hiu, hd.live ▸ hr.card, c, hct⟩

/-- **Every run keeps the invariant.** -/
theorem run_inv {l : List (SchedOp × Option Mbuf)} (hs : IsNew s)
    (hrun : Runs.Run wf2qpDesc.step (fun s i t => StepOk s i t ∧ FreeOk s i) s l t) : RunInv t :=
  hrun.invariant (fun _ _ _ _ hr hok he => step_inv hr hok.1 hok.2 he) hs.runInv

open Classical in
/-- The queue and its heap: in `sch` exactly if it holds packets and `S ≤ V`, in `ne` exactly if
it holds packets and `S > V`, in `idle` exactly if it holds none and its timestamps are valid, in
no heap exactly if `S = F + 1`; in one heap at most, at the place it names; and `wsum` is the sum
of the weights of the queues in the heaps. -/
structure HeapMembership (s : Wf2qp) : Prop where
  live : ∀ w q, (s.priv.heap w).Mem q → q ∈ s.live
  unique : ∀ w w' q, (s.priv.heap w).Mem q → (s.priv.heap w').Mem q → w = w'
  pos : ∀ w q, (s.priv.heap w).Mem q → 0 ≤ heapPos s q ∧ heapPos s q < elements s w ∧
    ((s.priv.heap w).p (heapPos s q).toNat).object = q
  sch : ∀ q ∈ s.live, (s.priv.heap .sch).Mem q ↔
    s.mq q ≠ [] ∧ keyLEQ (s.ext q).S s.priv.V = true
  ne : ∀ q ∈ s.live, (s.priv.heap .ne).Mem q ↔
    s.mq q ≠ [] ∧ keyLT s.priv.V (s.ext q).S = true
  idle : ∀ q ∈ s.live, (s.priv.heap .idle).Mem q ↔
    s.mq q = [] ∧ keyLT (s.ext q).F (s.ext q).S = false
  none : ∀ q ∈ s.live, (∀ w, ¬ (s.priv.heap w).Mem q) ↔ (s.ext q).S = (s.ext q).F + 1
  wsum : s.priv.wsum = ∑ q ∈ s.live with ∃ w, (s.priv.heap w).Mem q, weight s q

/-- The heap of a queue of a settled instance. -/
theorem Inv.mem_iff (hi : Inv s) (w : WHeap) (q : QPtr) :
    (s.priv.heap w).Mem q ↔ ∃ k, home s q = some (w, k) := hi.located.mem_iff w q

/-- A queue is in some heap exactly if its timestamps are valid. -/
theorem Inv.exists_mem_iff (hi : Inv s) (hq : q ∈ s.live) :
    (∃ w, (s.priv.heap w).Mem q) ↔ Valid s q := by
  simp only [hi.mem_iff]
  constructor
  · rintro ⟨w, k, hk⟩
    exact ((nearly_home s).valid hi.stamps hk).2.1
  · intro hv
    by_cases hm : s.mq q = []
    · exact ⟨.idle, _, by rw [home_of_idle hq hm, if_pos hv]⟩
    · rw [home_of_backlogged ⟨hq, hm⟩]
      split_ifs
      · exact ⟨.ne, _, rfl⟩
      · exact ⟨.sch, _, rfl⟩

/-- The invariant tells which queue is in which heap. -/
theorem RunInv.heapMembership (h : RunInv s) : HeapMembership s := by
  obtain ⟨hi, -, c, hc⟩ := h
  have hmem := hi.mem_iff
  have hbusy : ∀ q ∈ s.live, s.mq q ≠ [] → (keyLEQ (s.ext q).S s.priv.V = true ↔
      keyLT s.priv.V (s.ext q).S = false) := by
    intro q hq hm
    obtain ⟨hV, hS, -⟩ := hi.stamps.window hc ⟨hq, hm⟩
    rw [keyLEQ, Serial.le_iff hS hV, keyLT, ← Bool.not_eq_true, Serial.lt_iff hV hS, not_lt]
  refine ⟨fun w q hq => ?_, fun w w' q hq hq' => ?_, fun w q hq => ?_, fun q hq => ?_,
    fun q hq => ?_, fun q hq => ?_, fun q hq => ?_, ?_⟩
  · obtain ⟨k, hk⟩ := (hmem w q).1 hq
    exact ((nearly_home s).valid hi.stamps hk).1
  · obtain ⟨k, hk⟩ := (hmem w q).1 hq
    obtain ⟨k', hk'⟩ := (hmem w' q).1 hq'
    exact congrArg Prod.fst (Option.some.inj (hk.symm.trans hk'))
  · obtain ⟨k, i, hilt, he⟩ := hq
    have hpos : heapPos s q = i := by
      have := (hi.located.wf w).indexed.index i hilt hilt.ne
      rwa [he] at this
    rw [hpos]
    refine ⟨by omega, by exact_mod_cast hilt, ?_⟩
    rw [Int.toNat_natCast, he]
  · rw [hmem]
    constructor
    · rintro ⟨k, hk⟩
      obtain ⟨-, hb, hlt, -⟩ := (home_eq_some.1 hk).resolve_right (by simp)
      exact ⟨hb.2, (hbusy q hq hb.2).2 hlt⟩
    · rintro ⟨hm, hle⟩
      exact ⟨_, home_eq_some.2 (.inl ⟨rfl, ⟨hq, hm⟩, (hbusy q hq hm).1 hle, rfl⟩)⟩
  · rw [hmem]
    constructor
    · rintro ⟨k, hk⟩
      obtain ⟨-, hb, hlt, -⟩ := ((home_eq_some.1 hk).resolve_left (by simp)).resolve_right (by simp)
      exact ⟨hb.2, hlt⟩
    · rintro ⟨hm, hlt⟩
      exact ⟨_, home_eq_some.2 (.inr (.inl ⟨rfl, ⟨hq, hm⟩, hlt, rfl⟩))⟩
  · rw [hmem, ← Bool.not_eq_true, hi.stamps.keyLT_iff hc hq, not_not]
    constructor
    · rintro ⟨k, hk⟩
      obtain ⟨-, -, hm, hv, -⟩ :=
        ((home_eq_some.1 hk).resolve_left (by simp)).resolve_left (by simp)
      exact ⟨hm, hv⟩
    · rintro ⟨hm, hv⟩
      exact ⟨_, home_eq_some.2 (.inr (.inr ⟨rfl, hq, hm, hv, rfl⟩))⟩
  · rw [← not_exists, hi.exists_mem_iff hq, not_valid_iff]
  · rw [hi.stamps.wsum, Finset.sum_filter]
    refine Finset.sum_congr rfl fun q hq => ?_
    simp only [share, hq, true_and, hi.exists_mem_iff hq]

/-- **Heap membership.** In every state that a run reaches in which every freed queue is
recognised, each queue is in the heap that its packets and timestamps ask for. -/
theorem heapMembership_of_run {l : List (SchedOp × Option Mbuf)} (hs : IsNew s)
    (hrun : Runs.Run wf2qpDesc.step (fun s i t => StepOk s i t ∧ FreeOk s i) s l t) :
    HeapMembership t :=
  (run_inv hs hrun).heapMembership

/-! ### A finish time that passes `2 ^ 64` -/

/-- The time that a packet of `2 ^ 15` bytes takes at weight 1. -/
def wrapStep : BitVec 64 := 2 ^ 43

/-- One queue of weight 1, address 1, which holds `n` packets of `2 ^ 15` bytes and whose start
time is `x`, the virtual time. -/
structure Cycle (x : BitVec 64) (n : ℕ) (s : Wf2qp) : Prop where
  inv : Inv s
  live : s.live = {1}
  mq : (s.mq 1).map Mbuf.len = List.replicate n (2 ^ 15)
  counted : (s.queue 1).Counted
  si : (s.queue 1).si ≠ none
  fs : (s.queue 1).fs = wf2qpNewFsk {}
  V : s.priv.V = x
  invWsum : s.priv.invWsum = 2 ^ 28
  S : (s.ext 1).S = x
  F : (s.ext 1).F = x + wrapStep
  invW : (s.ext 1).invW = 2 ^ 28

theorem toNat_add_wrapStep (x : BitVec 64) :
    rank x x = 0 ∧ rank x (x + wrapStep) = 2 ^ 43 ∧
      rank x (x + wrapStep + wrapStep) = 2 ^ 44 := by
  refine ⟨Serial.rank_self x, ?_, ?_⟩
  · rw [rank, add_sub_cancel_left]
    rfl
  · rw [rank, add_assoc, add_sub_cancel_left]
    rfl

theorem window_of_rank {x : BitVec 64} (hl : s.live = {1})
    (hV : rank x s.priv.V ≤ 2 ^ 44) (hS : rank x (s.ext 1).S ≤ 2 ^ 44)
    (hF : rank x (s.ext 1).F ≤ 2 ^ 44) : Window x s := by
  intro q hq _
  obtain rfl : q = 1 := by simpa [hl] using hq
  unfold Serial.InWindow
  omega

theorem Cycle.window {x : BitVec 64} {n : ℕ} (h : Cycle x n s) : Window x s := by
  obtain ⟨h0, h1, -⟩ := toNat_add_wrapStep x
  exact window_of_rank h.live (by rw [h.V, h0]; omega) (by rw [h.S, h0]; omega)
    (by rw [h.F, h1]; omega)

theorem Cycle.backlogged {x : BitVec 64} {n : ℕ} (h : Cycle x (n + 1) s) (q : QPtr) :
    Backlogged s q ↔ q = 1 := by
  constructor
  · intro hq
    simpa [h.live] using hq.1
  · rintro rfl
    refine ⟨by simp [h.live], fun h0 => ?_⟩
    have := h.mq
    simp [h0] at this

theorem Cycle.isFirst {x : BitVec 64} {n : ℕ} (h : Cycle x (n + 1) s) : IsFirst s 1 :=
  ⟨(h.backlogged 1).2 rfl, fun q hq => by
    rw [(h.backlogged q).1 hq]
    exact Serial.le_self _⟩

/-- A second packet arrives. -/
theorem Cycle.enqueue {x : BitVec 64} (h : Cycle x 1 s) :
    ∃ q m r o t, StepOk s (.enqueue q m r) t ∧
      wf2qpDesc.step s (.enqueue q m r) = some (o, t) ∧ Cycle x 2 t := by
  obtain ⟨m, hm⟩ : ∃ m, s.mq 1 = [m] := by
    have := congrArg List.length h.mq
    simpa [List.length_eq_one_iff] using this
  let m' : Mbuf := ⟨m.ptr + 1, 2 ^ 15, by decide⟩
  have hhead : ¬ s.isHead 1 m' := by simp [Inst.isHead, hm, m']
  obtain ⟨b, t, ht, hbut⟩ := Inst.enqueue_spec s 1 m' false {}
  have hb : b = false := by
    have hacc := dnEnqueue_accepts s.cfg s.ni m' {}
      h.si (by rw [h.fs]; rfl) (by rw [h.fs]; rfl) (by
        have hc := h.counted
        have hmq : (s.queue 1).mq = [m] := hm
        rw [DnQueue.Counted, hmq] at hc
        rw [hc, h.fs]
        rfl)
    exact (congrArg Prod.fst ht).symm.trans hacc
  subst hb
  simp only [Bool.false_eq_true, if_false, hm, List.singleton_append] at hbut
  have hnot : ¬ Inst.isHead t 1 m' := by simp [Inst.isHead, hbut.mq_self, m']
  have hstep : wf2qpDesc.step s (.enqueue 1 m' {}) = some (none, t) := by
    simp only [DnAlg.step, wf2qpDesc, wf2qpEnqueue, if_neg hhead, ht, if_neg hnot]
    rfl
  have hcyc : Cycle x 2 t := by
    refine ⟨h.inv.of_sameBut hbut (by rw [hm]; rfl), hbut.live.trans h.live, ?_,
      hbut.counted 1 h.counted, by rw [hbut.si]; exact h.si, (hbut.fs 1).trans h.fs,
      by rw [hbut.priv]; exact h.V, by rw [hbut.priv]; exact h.invWsum,
      by rw [hbut.ext]; exact h.S, by rw [hbut.ext]; exact h.F, by rw [hbut.ext]; exact h.invW⟩
    have hlen := h.mq
    rw [hm] at hlen
    rw [hbut.mq_self]
    simpa [m', List.replicate] using hlen
  have hok : StepOk s (.enqueue 1 m' {}) t :=
    ⟨⟨by simp [h.live], hhead⟩, x, h.window, hcyc.window, by simp [midState]⟩
  exact ⟨_, _, _, _, t, hok, hstep, hcyc⟩

/-- The first packet is taken, and all timestamps are one step further. -/
theorem Cycle.dequeue {x : BitVec 64} (h : Cycle x 2 s) :
    ∃ o t, StepOk s .dequeue t ∧ wf2qpDesc.step s .dequeue = some (o, t) ∧
      Cycle (x + wrapStep) 1 t := by
  obtain ⟨h0, h1, h2⟩ := toNat_add_wrapStep x
  have hbusy : elements s .idle = 0 := by
    by_contra hne
    have htop := h.inv.located.top (Nat.pos_of_ne_zero hne)
    obtain ⟨-, hl, hm, -⟩ := ((home_eq_some.1 htop).resolve_left (by simp)).resolve_left (by simp)
    have hb : Backlogged s (s.priv.heap .idle).topObject :=
      (h.backlogged _).2 (by simpa [h.live] using hl)
    exact hb.2 hm
  have hidle : idleCheck 1 s false = some s := by
    rw [idleCheck, if_neg]
    rintro ⟨hpos, -⟩
    exact absurd hbusy hpos.ne'
  obtain ⟨s₂, V, hs₂, hd, hi₂, hc₂, -, hfirst⟩ :=
    settle_spec h.inv.located (nearly_home s) h.inv.stamps h.window
  have hV : V = x := by
    rw [hfirst 1 h.isFirst, h.V, h.S, max64]
    split_ifs <;> rfl
  rw [hV] at hd
  have hl₂ : s₂.live = {1} := (live_eq hd).trans h.live
  have hV₂ : s₂.priv.V = x := V_eq hd
  have hS₂ : (s₂.ext 1).S = x := (S_eq hd 1).trans h.S
  have hF₂ : (s₂.ext 1).F = x + wrapStep := (F_eq hd 1).trans h.F
  have hmq₂ : s₂.mq 1 = s.mq 1 := mq_eq hd 1
  have hpos : 0 < elements s₂ .sch := by
    refine hi₂.located.elements_pos (q := 1) (k := (s₂.ext 1).F) ?_
    rw [home_of_backlogged ⟨by simp [hl₂], hmq₂ ▸ ((h.backlogged 1).2 rfl).2⟩, hV₂, hS₂]
    simp [keyLT]
  -- the only queue is served
  obtain ⟨q, m, rest, u, hs₃, hm, hq, -, -, hsv, hloc⟩ := serve_spec hi₂ hc₂ hpos
  obtain rfl : q = 1 := by simpa [hl₂] using hq
  have hlen : m.len = 2 ^ 15 ∧ rest.map Mbuf.len = [2 ^ 15] := by
    have hlen := h.mq
    rw [← hmq₂, hm] at hlen
    simpa [List.replicate] using hlen
  have hinvW : (s₂.ext 1).invW = 2 ^ 28 := (invW_eq hd 1).trans h.invW
  have hVu : u.priv.V = x + wrapStep := by
    rw [hsv.V, hV₂, Mbuf.len64, hlen.1, show s₂.priv.invWsum = 2 ^ 28 from
      (invWsum_eq hd).trans h.invWsum]
    rfl
  have hSu : (u.ext 1).S = x + wrapStep := hsv.S.trans hF₂
  have hFu : (u.ext 1).F = x + wrapStep + wrapStep := by
    obtain ⟨m', hm'⟩ : ∃ m', rest = [m'] := by
      have := congrArg List.length hlen.2
      simpa [List.length_eq_one_iff] using this
    rw [hsv.F, hF₂, hm', headTime, Mbuf.len64, hinvW]
    have : m'.len = 2 ^ 15 := by simpa [hm'] using hlen.2
    rw [this]
    rfl
  have hlu : u.live = {1} := hsv.live.trans hl₂
  have hcu : Window x u := window_of_rank hlu (by rw [hVu, h1]; omega) (by rw [hSu, h1]; omega)
    (by rw [hFu, h2])
  obtain ⟨loc, hlocu, hnu, hsu⟩ := hloc hcu
  obtain ⟨t, V', ht, hdt, hit, hct, -, hfirst'⟩ := settle_spec hlocu hnu hsu hcu
  obtain ⟨s₁, hbut, hqu⟩ := hsv.queue
  have hqt : t.queue = s₁.queue := (queue_eq hdt).trans hqu
  have hmt : t.mq 1 = rest := by
    rw [Inst.mq, hqt]
    exact hbut.mq_self
  have hV' : V' = x + wrapStep := by
    rw [hfirst' 1 ⟨⟨hlu ▸ Finset.mem_singleton_self 1, fun h0 => ?_⟩, fun q hq => ?_⟩, hVu, hSu,
      max64]
    · split_ifs <;> rfl
    · rw [hsv.mq] at h0
      simp [h0] at hlen
    · obtain rfl : q = 1 := by simpa [hlu] using hq.1
      exact Serial.le_self _
  have hcyc : Cycle (x + wrapStep) 1 t := by
    refine ⟨hit, (live_eq hdt).trans hlu, by rw [hmt]; exact hlen.2, ?_, ?_, ?_,
      (V_eq hdt).trans hV', ?_, (S_eq hdt 1).trans hSu, (F_eq hdt 1).trans hFu,
      (invW_eq hdt 1).trans (hsv.invW.trans hinvW)⟩
    · rw [hqt]
      exact hbut.counted 1 (by rw [queue_eq hd]; exact h.counted)
    · rw [hqt, hbut.si, queue_eq hd]
      exact h.si
    · rw [hqt, hbut.fs, queue_eq hd]
      exact h.fs
    · exact (invWsum_eq hdt).trans (hsv.invWsum.trans ((invWsum_eq hd).trans h.invWsum))
  have hserved : served s = some u := by
    rw [served, hidle, Option.bind_some, hs₂, Option.bind_some, hs₃]
    rfl
  have hstep : wf2qpDesc.step s .dequeue = some (some m, t) := by
    have hsch : ¬ (elements s .sch = 0 ∧ elements s .ne = 0) := by
      rintro ⟨hsch, -⟩
      refine h.inv.located.elements_eq_zero hsch 1 (s.ext 1).F ?_
      rw [home_of_backlogged ((h.backlogged 1).2 rfl), h.V, h.S]
      simp [keyLT]
    simp only [DnAlg.step, wf2qpDesc]
    rw [wf2qpDequeue, if_neg hsch, hidle, Option.bind_some, hs₂, Option.bind_some, hs₃,
      Option.bind_some, ht]
    rfl
  refine ⟨some m, t, ⟨trivial, x, h.window, hct, fun u' hu' => ?_⟩, hstep, hcyc⟩
  rw [midState, hserved, Option.mem_some_iff] at hu'
  exact hu' ▸ hcu

/-- An instance without queues. -/
def emptyInst : Wf2qp where
  si := 1
  cfg := {}
  ni := {}
  qCount := 0
  priv := wf2qpNewSched
  queue := fun _ => {}
  ext := fun _ => {}
  live := ∅

/-- A packet of `2 ^ 15` bytes. -/
def wrapPkt : Mbuf := ⟨0, 2 ^ 15, by decide⟩

/-- A queue of weight 1 is created and gets its first packet. -/
theorem exists_cycle : ∃ l t, Runs.Run wf2qpDesc.step
    (fun s i t => StepOk s i t ∧ NoDelete i) emptyInst l t ∧ Cycle 0 1 t := by
  have hnew : Inv emptyInst := (IsNew.runInv ⟨rfl, rfl⟩).inv
  obtain ⟨s, t, hs, ht, hls, hlt, hqs, hqt, hxt, hV, hW⟩ : ∃ s t : Wf2qp,
      qNew wf2qpDesc emptyInst 1 (wf2qpNewFsk {}) = some s ∧
      wf2qpEnqueue s 1 wrapPkt {} = some (false, t) ∧ s.live = {1} ∧ t.live = {1} ∧
      s.mq 1 = [] ∧
      ((t.queue 1).mq = [wrapPkt] ∧ (t.queue 1).ni.length = 1 ∧ (t.queue 1).si = some 1 ∧
        (t.queue 1).fs = wf2qpNewFsk {}) ∧
      ((t.ext 1).S = 0 ∧ (t.ext 1).F = wrapStep ∧ (t.ext 1).invW = 2 ^ 28) ∧
      t.priv.V = 0 ∧ t.priv.invWsum = 2 ^ 28 :=
    ⟨_, _, rfl, rfl, rfl, rfl, rfl, ⟨rfl, rfl, rfl, rfl⟩, ⟨rfl, rfl, rfl⟩, rfl, rfl⟩
  have hvs : ¬ Valid s 1 := by
    rw [not_valid_iff, (qNew_eq hs).2.2.2.2.1]
    rfl
  have hws : Window 0 s := by
    intro q hq hv
    obtain rfl : q = 1 := by simpa [hls] using hq
    exact absurd hv hvs
  have hwt : Window 0 t := window_of_rank hlt (by rw [hV]; decide) (by rw [hxt.1]; decide)
    (by rw [hxt.2.1]; decide)
  have his : Inv s := qNew_inv hnew (by simp [emptyInst]) hs
  have hhead : ¬ s.isHead 1 wrapPkt := by simp [Inst.isHead, hqs]
  have hit := (wf2qpEnqueue_spec his hws (by simp [hls]) hhead ht hwt).1
  have hok₁ : StepOk emptyInst (.new 1 {}) s :=
    ⟨⟨by simp [emptyInst], by decide⟩, 0, fun q hq => by simp [emptyInst] at hq, hws,
      by simp [midState]⟩
  have hok₂ : StepOk s (.enqueue 1 wrapPkt {}) t :=
    ⟨⟨by simp [hls], hhead⟩, 0, hws, hwt, by simp [midState]⟩
  have hst₁ : wf2qpDesc.step emptyInst (.new 1 {}) = some (none, s) := by
    change (qNew wf2qpDesc emptyInst 1 (wf2qpNewFsk {})).map _ = _
    rw [hs]
    rfl
  have hst₂ : wf2qpDesc.step s (.enqueue 1 wrapPkt {}) = some (none, t) := by
    change (wf2qpEnqueue s 1 wrapPkt {}).map _ = _
    rw [ht]
    rfl
  refine ⟨_, t, .snoc (.single ⟨hok₁, trivial⟩ hst₁) ⟨hok₂, trivial⟩ hst₂, hit, hlt, ?_, ?_, ?_, hqt.2.2.2, hV, hW,
    hxt.1, ?_, hxt.2.2⟩
  · rw [Inst.mq, hqt.1]
    rfl
  · rw [DnQueue.Counted, hqt.1, hqt.2.1]
    rfl
  · simp [hqt.2.2.1]
  · rw [hxt.2.1, zero_add]

/-- After the first packet of a new instance, its queue is in the heap that it should be in. -/
theorem heapMembership_of_one_packet : ∃ t : Wf2qp, Cycle 0 1 t ∧ HeapMembership t :=
  have ⟨_, t, hrun, ht⟩ := exists_cycle
  ⟨t, ht, heapMembership_of_run ⟨rfl, rfl⟩ (hrun.mono fun s _ _ h => ⟨h.1, h.2.freeOk s⟩)⟩

/-- The queue is served for so long that its finish time passes `2 ^ 64`. -/
theorem exists_wrap :
    ∃ l t, Runs.Run wf2qpDesc.step StepOk emptyInst l t ∧ Cycle (-wrapStep) 1 t := by
  obtain ⟨l₀, t₀, hl₀, ht₀⟩ := exists_cycle
  have hround : ∀ n s, Cycle (BitVec.ofNat 64 (n * 2 ^ 43)) 1 s →
      ∃ l t, Runs.Run wf2qpDesc.step StepOk s l t ∧
        Cycle (BitVec.ofNat 64 ((n + 1) * 2 ^ 43)) 1 t := by
    intro n s hs
    obtain ⟨q, m, r, o₁, s₁, hok₁, hst₁, hs₁⟩ := hs.enqueue
    obtain ⟨o₂, s₂, hok₂, hst₂, hs₂⟩ := hs₁.dequeue
    refine ⟨_, s₂, .snoc (.single hok₁ hst₁) hok₂ hst₂, ?_⟩
    rwa [add_mul, one_mul, BitVec.ofNat_add]
  obtain ⟨l, t, hl, ht⟩ := Runs.Run.iterate hround ht₀ (2 ^ 21 - 1)
  exact ⟨l₀ ++ l, t, (hl₀.mono fun _ _ _ h => h.1).trans hl, ht⟩

/-- **A finish time that wraps.** The timestamps stay in a window, but the freed queue is still in
`sch` when its finish time, not its start time, has passed `2 ^ 64`. -/
theorem not_heapMembership_of_wrap :
    ¬ ∀ (s t : Wf2qp) (l : List (SchedOp × Option Mbuf)), IsNew s →
      Runs.Run wf2qpDesc.step StepOk s l t → HeapMembership t := by
  intro hall
  obtain ⟨l, t, hrun, hc⟩ := exists_wrap
  have hfree : dnDeleteQueue wf2qpDesc t 1 true false = some (false, removeQueue t 1 true) := by
    have hle : (t.ext 1).F + 1 ≤ (t.ext 1).S := by
      rw [hc.F, hc.S]
      decide
    simp only [dnDeleteQueue, wf2qpDesc, wf2qpFreeQueue, if_pos hle]
    rfl
  have hst : wf2qpDesc.step t (.delete 1 true false) = some (none, removeQueue t 1 true) := by
    change (dnDeleteQueue wf2qpDesc t 1 true false).map _ = _
    rw [hfree]
    rfl
  have hempty : ∀ q, q ∉ (removeQueue t 1 true).live := by
    intro q hq
    have : (removeQueue t 1 true).live = t.live.erase 1 := rfl
    rw [this, hc.live] at hq
    simp at hq
  have hok : StepOk t (.delete 1 true false) (removeQueue t 1 true) :=
    ⟨by simp [SchedOp.Promised, hc.live], _, hc.window, fun q hq => absurd hq (hempty q),
      by simp [midState]⟩
  have hm := hall _ _ _ ⟨rfl, rfl⟩ (.snoc hrun hok hst)
  have hmem : (t.priv.heap .sch).Mem 1 := by
    refine (hc.inv.mem_iff .sch 1).2 ⟨(t.ext 1).F, ?_⟩
    rw [home_of_backlogged ((hc.backlogged 1).2 rfl), if_neg]
    rw [hc.V, hc.S, keyLT, Serial.lt_self]
    exact Bool.false_ne_true
  exact hempty 1 (hm.live .sch 1 hmem)

end Dummynet.Wf2qp
