import Dummynet.Wf2q.Dequeue

/-!
# Enqueue, creation and deletion in WF2Q+

The other callbacks keep the invariant of WF2Q+: `wf2qp_enqueue`, which gives an idle queue its
timestamps and puts it into a heap, `wf2qp_new_queue`, and `wf2qp_free_queue` as far as it
recognises invalid timestamps.

## Main definitions

* `FreeRecognised`: the unsigned comparison in `wf2qp_free_queue` tells valid from invalid
  timestamps.

## Main results

* `wf2qpEnqueue_spec`: an enqueue operation.
* `qNew_inv`, `dnDeleteQueue_inv`: creation and deletion keep the invariant.
-/

namespace Dummynet.Wf2qp

open Serial (rank)

variable {s t u : Wf2qp} {c : BitVec 64} {q : QPtr}

/-- A change in counters and statistics, or behind the head of the queue. -/
theorem Inv.of_sameBut {l : List Mbuf} (hi : Inv s) (h : SameBut s t q l)
    (hl : l.head? = (s.mq q).head?) : Inv t := by
  have hnil : l = [] ↔ s.mq q = [] := by
    rw [← List.head?_eq_none_iff, hl, List.head?_eq_none_iff]
  have hmq : ∀ q', (t.mq q').head? = (s.mq q').head? := by
    intro q'
    rcases eq_or_ne q' q with rfl | hne
    · rw [h.mq_self, hl]
    · rw [h.mq_of_ne hne]
  have hmq' : ∀ q', t.mq q' = [] ↔ s.mq q' = [] := by
    intro q'
    rw [← List.head?_eq_none_iff, hmq, List.head?_eq_none_iff]
  have hw : ∀ q', Wf2qp.weight t q' = Wf2qp.weight s q' := fun q' => by
    rw [Wf2qp.weight, Wf2qp.weight, h.par]
  have hv : ∀ q', Valid t q' ↔ Valid s q' := fun q' => by rw [Valid, Valid, h.ext]
  have hhome : home t = home s := by
    funext q'
    simp only [home, h.live, hmq', hv, h.ext, h.priv]
  refine ⟨⟨fun q' hq' => ?_, ?_⟩, ?_⟩
  · have hk := hi.stamps.queue q' (h.live ▸ hq')
    refine ⟨by rw [h.par]; exact hk.weight, by rw [h.ext, hw]; exact hk.invW, ?_, ?_⟩
    · rw [hmq', h.ext]
      exact hk.idle
    · rw [hmq, h.ext]
      exact hk.busy
  · rw [h.priv, h.live, hi.stamps.wsum]
    exact Finset.sum_congr rfl fun q' _ => by simp only [share, h.live, hv, hw]
  · rw [hhome]
    exact hi.located.of_heap_eq (by rw [h.priv]) (by unfold heapPos; rw [h.ext])

/-! ### Enqueue -/

/-- The queue `q`, which was empty, has become backlogged: it got the start time `S`, and `V` is
the virtual time. -/
structure Activated (s t : Wf2qp) (q : QPtr) (m : Mbuf) (S V : BitVec 64) : Prop where
  live : t.live = s.live
  other : ∀ q', q' ≠ q → SameAt s t q'
  mq : t.mq q = [m]
  fs : (t.queue q).fs = (s.queue q).fs
  start : (t.ext q).S = S
  finish : (t.ext q).F = S + m.len64 * (s.ext q).invW.setWidth 64
  invW : (t.ext q).invW = (s.ext q).invW
  V : t.priv.V = V
  wsum : t.priv.wsum = s.priv.wsum + Wf2qp.weight s q - share s q

/-- Writing the timestamps into a state `u` that differs from `s` in the packets of `q`, in the
heaps and in the sum of the weights. -/
theorem Activated.of_setTimes {s₁ u : Wf2qp} {m : Mbuf} (h : SameBut s s₁ q [m])
    (hl : u.live = s₁.live) (hqu : u.queue = s₁.queue)
    (hx : ∀ q', (u.ext q').S = (s₁.ext q').S ∧ (u.ext q').F = (s₁.ext q').F ∧
      (u.ext q').invW = (s₁.ext q').invW)
    (hV : u.priv.V = s.priv.V) (hws : u.priv.wsum = s.priv.wsum + Wf2qp.weight s q - share s q)
    (S : BitVec 64) :
    Activated s (setTimes u q S (S + m.len64 * (s.ext q).invW.setWidth 64)) q m S s.priv.V := by
  refine ⟨hl.trans h.live, fun q' hne => ?_, ?_, ?_, ?_, ?_, ?_, hV, hws⟩
  · obtain ⟨hS, hF, hW⟩ := hx q'
    have he := ext_setTimes_of_ne u hne S (S + m.len64 * (s.ext q).invW.setWidth 64)
    refine ⟨by rw [← h.live, ← hl]; rfl, ?_, ?_, ?_, ?_, ?_⟩
    · exact (congrArg (fun f => (f q').mq) hqu).trans (h.mq_of_ne hne)
    · exact (congrArg (fun f => (f q').fs) hqu).trans (h.fs q')
    · rw [he, hS, h.ext]
    · rw [he, hF, h.ext]
    · rw [he, hW, h.ext]
  · exact (congrArg (fun f => (f q).mq) hqu).trans h.mq_self
  · exact (congrArg (fun f => (f q).fs) hqu).trans (h.fs q)
  · rw [ext_setTimes_self]
  · rw [ext_setTimes_self]
  · rw [ext_setTimes_self, ← h.ext]
    exact (hx q).2.2

/-- **The new timestamps** of a queue that was idle. -/
theorem restamp_spec {s₁ : Wf2qp} {m : Mbuf} (hi : Inv s) (hc : Window c s)
    (h : SameBut s s₁ q [m]) (hq : q ∈ s.live) (hm : s.mq q = []) (ht : restamp s₁ q m.len64 = some t) :
    Activated s t q m (if Valid s q then max64 (s.ext q).F s.priv.V else s.priv.V) s.priv.V ∧
      Located t (Function.update (home s) q none) := by
  have hloc₁ : Located s₁ (home s) :=
    hi.located.of_heap_eq (by rw [h.priv]) (by unfold heapPos; rw [h.ext])
  have hk := hi.stamps.queue q hq
  have hxs : s₁.ext q = s.ext q := by rw [h.ext]
  by_cases hv : Valid s q
  · -- the queue was in the idle heap
    have hS : (s.ext q).S = (s.ext q).F := (hk.idle hm).resolve_left hv
    have hplace : home s q = some (.idle, (s.ext q).F) := by rw [home_of_idle hq hm, if_pos hv]
    obtain ⟨u, hu, hdata, hlocu⟩ :=
      extract_obj_spec hloc₁ ((nearly_home s).keysIn hi.stamps hc) hplace
    have hnlt : keyLT (s₁.ext q).F (s₁.ext q).S = false := by
      rw [hxs, hS]
      exact Serial.lt_self _
    have hV : u.priv.V = s.priv.V := (V_eq hdata).trans (by rw [h.priv])
    rw [restamp, hnlt] at ht
    simp only [Bool.false_eq_true, if_false, hu, Option.map_some, Option.some.injEq] at ht
    rw [if_pos hv, ← ht, hxs, h.priv]
    refine ⟨Activated.of_setTimes h (live_eq hdata) (queue_eq hdata)
      (fun q' => ⟨S_eq hdata q', F_eq hdata q', invW_eq hdata q'⟩) hV ?_ _, hlocu.setTimes _ _ _⟩
    rw [wsum_eq hdata, h.priv, share_of_valid hq hv, add_sub_cancel_right]
  · have hlt : keyLT (s₁.ext q).F (s₁.ext q).S = true := by
      rw [hxs, not_valid_iff.1 hv]
      exact keyLT_succ _
    have hnone : home s q = none := by rw [home_of_idle hq hm, if_neg hv]
    have hw : Wf2qp.weight s₁ q = Wf2qp.weight s q := by rw [Wf2qp.weight, Wf2qp.weight, h.par]
    rw [restamp, hlt, if_pos rfl, addWeight] at ht
    split_ifs at ht with h0
    · simp at ht
    · simp only [Option.map_some, Option.some.injEq] at ht
      rw [if_neg hv, ← ht, hxs, h.priv]
      refine ⟨Activated.of_setTimes h ?_ ?_ ?_ ?_ ?_ _, ?_⟩
      · rfl
      · rfl
      · exact fun q' => ⟨rfl, rfl, rfl⟩
      · rfl
      · rw [share_of_not_valid hv, sub_zero, hw]
      · rw [← hnone, Function.update_eq_self]
        refine Located.setTimes (hloc₁.of_heap_eq ?_ ?_) _ _ _
        · rw [h.priv]
        · rfl

theorem Activated.valid {m : Mbuf} {S V : BitVec 64} (h : Activated s t q m S V) (hs : Stamps s)
    (hq : q ∈ s.live) : Valid t q := by
  obtain ⟨hstep, hlt⟩ := hs.toNat_step hq m
  rw [Valid, h.start, h.finish]
  exact ne_add_add_one (hstep ▸ hlt)

theorem Activated.weight {m : Mbuf} {S V : BitVec 64} (h : Activated s t q m S V) :
    Wf2qp.weight t q = Wf2qp.weight s q := by
  rw [Wf2qp.weight, Wf2qp.weight, Inst.par, Inst.par, DnQueue.par, DnQueue.par, h.fs]

theorem Activated.stamps {m : Mbuf} {S V : BitVec 64} (h : Activated s t q m S V) (hs : Stamps s)
    (hq : q ∈ s.live) : Stamps t := by
  have hk := hs.queue q hq
  refine ⟨fun q' hq' => ?_, ?_⟩
  · rcases eq_or_ne q' q with rfl | hne
    · refine ⟨?_, by rw [h.invW, h.weight]; exact hk.invW, fun h0 => ?_, fun m' hm' => ?_⟩
      · rw [Inst.par, DnQueue.par, h.fs]
        exact hk.weight
      · simp [h.mq] at h0
      · rw [h.mq, List.head?_cons, Option.mem_some_iff] at hm'
        rw [h.start, h.finish, h.invW, hm']
    · exact (h.other q' hne).queueOk (hs.queue q' (h.live ▸ hq'))
  · have hsum := sum_share_sub fun q' hne => (h.other q' hne).share
    rw [share_of_valid (h.live ▸ hq) (h.valid hs hq), h.weight, ← hs.wsum, sub_eq_iff_eq_add] at hsum
    rw [h.wsum, hsum, sub_add_eq_add_sub]

theorem Activated.setV {m : Mbuf} {S V : BitVec 64} (h : Activated s t q m S V) (V' : BitVec 64) :
    Activated s (setV t V') q m S V' :=
  ⟨h.live, fun q' hne => (h.other q' hne).trans (sameAt_setV t V' q'), h.mq, h.fs, h.start,
    h.finish, h.invW, rfl, h.wsum⟩

theorem Activated.of_data {m : Mbuf} {S V : BitVec 64} (h : Activated s t q m S V)
    (hd : data u = data t) : Activated s u q m S V where
  live := (live_eq hd).trans h.live
  other q' hne := (h.other q' hne).trans (.of_data hd q')
  mq := (mq_eq hd q).trans h.mq
  fs := (SameAt.of_data hd q).fs.trans h.fs
  start := (S_eq hd q).trans h.start
  finish := (F_eq hd q).trans h.finish
  invW := (invW_eq hd q).trans h.invW
  V := (V_eq hd).trans h.V
  wsum := (wsum_eq hd).trans h.wsum

open Classical in
/-- **The heap for the queue.** `V` moves only if nothing else is backlogged. -/
theorem place_spec {m : Mbuf} {S : BitVec 64} (hi : Inv s) (hc : Window c s) (hq : q ∈ s.live)
    (hm : s.mq q = []) (h : Activated s t q m S s.priv.V)
    (hloc : Located t (Function.update (home s) q none)) (hcu : Window c (place t q)) :
    Activated s (place t q) q m S
      (if ∀ q', ¬ Backlogged s q' then max64 S s.priv.V else s.priv.V) ∧ Inv (place t q) := by
  have hk := ((nearly_home s).keysIn hi.stamps hc).update_none q
  have hempty : elements t .ne = 0 ∧ elements t .sch = 0 ↔ ∀ q', ¬ Backlogged s q' := by
    constructor
    · rintro ⟨h1, h2⟩ q' hb
      have hne : q' ≠ q := fun he => hb.2 (he ▸ hm)
      rcases (nearly_home s).place hb with hp | hp
      · exact hloc.elements_eq_zero h2 q' _ ((Function.update_of_ne hne _ _).trans hp.1)
      · exact hloc.elements_eq_zero h1 q' _ ((Function.update_of_ne hne _ _).trans hp)
    · intro hno
      have hzero : ∀ w, w ≠ WHeap.idle → elements t w = 0 := by
        intro w hw
        by_contra h0
        have htop := hloc.top (Nat.pos_of_ne_zero h0)
        have hne : (t.priv.heap w).topObject ≠ q := fun he => by simp [he] at htop
        rw [Function.update_of_ne hne] at htop
        exact hno _ ((nearly_home s).backlogged htop hw)
      exact ⟨hzero _ (by decide), hzero _ (by decide)⟩
  generalize hV : (if ∀ q', ¬ Backlogged s q' then max64 S s.priv.V else s.priv.V) = V
  obtain ⟨v, hv, hvdef⟩ : ∃ v, v = setV t V ∧ place t q =
      if keyLT V S then insertIn v .ne S q else insertIn v .sch (v.ext q).F q := by
    refine ⟨setV t V, rfl, ?_⟩
    simp only [place, h.start, hempty, h.V, ← hV]
    by_cases hno : ∀ q', ¬ Backlogged s q'
    · simp only [if_pos hno]
      rfl
    · simp only [if_neg hno, h.V]
      rw [← h.V]
      rfl
  have hd : data (place t q) = data v := by
    rw [hvdef]
    split_ifs <;> exact data_insert _ _ _ _
  have hact : Activated s (place t q) q m S V := (hv ▸ h.setV V).of_data hd
  have hl : q ∈ (place t q).live := hact.live ▸ hq
  obtain ⟨hVc, hSc, hFc⟩ := hcu q hl (hact.valid hi.stamps hq)
  rw [hact.start] at hSc
  have hb : Backlogged (place t q) q := ⟨hl, by simp [hact.mq]⟩
  have hself := home_of_backlogged hb
  rw [hact.V, hact.start] at hself
  have hFv : (v.ext q).F = ((place t q).ext q).F := (F_eq hd q).symm
  have hlocv : Located v (Function.update (home s) q none) := hv ▸ hloc.setV V
  -- the other queues hold no packets if `V` moves, and then their homes do not depend on it
  have hother : ∀ q', q' ≠ q → home (place t q) q' = home s q' := by
    intro q' hne
    by_cases hno : ∀ q', ¬ Backlogged s q'
    · have hsame := hact.other q' hne
      by_cases hl' : q' ∈ s.live
      · have hm' : s.mq q' = [] := not_not.1 fun hm' => hno q' ⟨hl', hm'⟩
        rw [home_of_idle (hsame.mem.2 hl') (hsame.mq.trans hm'), home_of_idle hl' hm', hsame.F]
        simp only [hsame.valid_iff]
      · rw [home_of_not_mem hl', home_of_not_mem (hsame.mem.not.2 hl')]
    · exact (hact.other q' hne).home (hact.V.trans (by rw [← hV, if_neg hno]))
  refine ⟨hact, hact.stamps hi.stamps hq, ?_⟩
  have hhome : home (place t q) = Function.update (home s) q (home (place t q) q) := by
    funext q'
    rcases eq_or_ne q' q with rfl | hne
    · rw [Function.update_self]
    · rw [Function.update_of_ne hne, hother q' hne]
  rw [hhome, hself]
  rw [hvdef]
  split_ifs with hlt
  · have hins := (insert_spec (w := .ne) hlocv hk hSc (Function.update_self ..)).1
    rwa [Function.update_idem] at hins
  · have hins := (insert_spec (w := .sch) (k := (v.ext q).F) hlocv hk (hFv ▸ hFc)
      (Function.update_self ..)).1
    rwa [Function.update_idem] at hins

open Classical in
/-- **`wf2qp_enqueue`** drops the packet, appends it to a queue that is busy, or makes an empty
queue backlogged. -/
theorem wf2qpEnqueue_spec {m : Mbuf} {r : Draws} {b : Bool} (hi : Inv s) (hc : Window c s)
    (hq : q ∈ s.live) (hhead : ¬ s.isHead q m) (he : wf2qpEnqueue s q m r = some (b, t))
    (hct : Window c t) :
    Inv t ∧ (SameBut s t q (s.mq q) ∨ s.mq q ≠ [] ∧ SameBut s t q (s.mq q ++ [m]) ∨
      s.mq q = [] ∧ Activated s t q m
        (if Valid s q then max64 (s.ext q).F s.priv.V else s.priv.V)
        (if ∀ q', ¬ Backlogged s q' then
          max64 (if Valid s q then max64 (s.ext q).F s.priv.V else s.priv.V) s.priv.V
        else s.priv.V)) := by
  obtain ⟨drop, s₁, hs₁, hbut⟩ := Inst.enqueue_spec s q m false r
  rw [wf2qpEnqueue, if_neg hhead, hs₁] at he
  rcases drop with _ | _
  · simp only [Bool.false_eq_true, if_false] at he hbut
    by_cases hm : s.mq q = []
    · -- the queue was idle and becomes backlogged
      rw [hm, List.nil_append] at hbut
      have h1 : Inst.isHead s₁ q m := by simp [Inst.isHead, hbut.mq_self]
      rw [if_pos h1, Option.map_eq_some_iff] at he
      obtain ⟨u, hu, hut⟩ := he
      simp only [Prod.mk.injEq] at hut
      obtain ⟨hact, hloc⟩ := restamp_spec hi hc hbut hq hm hu
      obtain ⟨hact', hinv⟩ := place_spec hi hc hq hm hact hloc (by rw [hut.2]; exact hct)
      rw [hut.2] at hact' hinv
      exact ⟨hinv, .inr (.inr ⟨hm, hact'⟩)⟩
    · have hheads : (s.mq q ++ [m]).head? = (s.mq q).head? := by
        rw [List.head?_append_of_ne_nil _ hm]
      have h1 : ¬ Inst.isHead s₁ q m := by
        rw [Inst.isHead, hbut.mq_self, hheads]
        exact hhead
      rw [if_neg h1] at he
      simp only [Option.some.injEq, Prod.mk.injEq] at he
      exact ⟨he.2 ▸ hi.of_sameBut hbut hheads, .inr (.inl ⟨hm, he.2 ▸ hbut⟩)⟩
  · simp only [if_true, Option.some.injEq, Prod.mk.injEq] at he hbut
    exact ⟨he.2 ▸ hi.of_sameBut hbut rfl, .inl (he.2 ▸ hbut)⟩

/-! ### Creation and deletion -/

/-- The unsigned comparison `S >= F + 1` of `wf2qp_free_queue` and the comparison of
`wf2qp_enqueue` agree on whether the timestamps of `q` are invalid. -/
def FreeRecognised (s : Wf2qp) (q : QPtr) : Prop :=
  (s.ext q).F + 1 ≤ (s.ext q).S ↔ keyLT (s.ext q).F (s.ext q).S = true

instance (s : Wf2qp) (q : QPtr) : Decidable (FreeRecognised s q) :=
  inferInstanceAs (Decidable (_ ↔ _))

/-- For a queue of the instance, `F < S` says that the timestamps are invalid. -/
theorem Stamps.keyLT_iff (hs : Stamps s) (hc : Window c s) (hq : q ∈ s.live) :
    keyLT (s.ext q).F (s.ext q).S = true ↔ ¬ Valid s q := by
  by_cases hm : s.mq q = []
  · rcases (hs.queue q hq).idle hm with h | h
    · rw [h]
      exact iff_of_true (keyLT_succ _) (not_valid_iff.2 h)
    · simp [keyLT, h, Valid]
  · obtain ⟨m, rest, hm'⟩ := List.exists_cons_of_ne_nil hm
    obtain ⟨-, hS, hF⟩ := hs.window hc ⟨hq, hm⟩
    have hr := hs.rank_F hc hq hm'
    have hv := hs.valid_of_backlogged ⟨hq, hm⟩
    rw [keyLT, Serial.lt_iff hF hS, hr]
    exact iff_of_false (by omega) (not_not.2 hv)

theorem qNew_eq {fs : DnFsk} (he : qNew wf2qpDesc s q (wf2qpDesc.newFsk fs) = some t) :
    t.priv = s.priv ∧ t.live = insert q s.live ∧ t.mq q = [] ∧
      (t.queue q).fs = wf2qpNewFsk fs ∧
      t.ext q = { S := 1, F := 0, invW := invWeight (weight t q), heapPos := 0 } ∧
      ∀ q', q' ≠ q → t.queue q' = s.queue q' ∧ t.ext q' = s.ext q' := by
  rw [qNew, Option.map_eq_some_iff] at he
  obtain ⟨⟨e, u⟩, hu, rfl⟩ := he
  simp only [wf2qpDesc, wf2qpNewQueue, Inst.mq, Function.update_self] at hu
  split_ifs at hu with h0
  simp only [Option.some.injEq, Prod.mk.injEq] at hu
  obtain ⟨-, rfl⟩ := hu
  refine ⟨rfl, rfl, by simp [Inst.mq], by simp, ?_, fun q' hne => ?_⟩
  · simp only [Function.update_self]
    rfl
  · simp [hne]

/-- **A new queue** is in no heap and has invalid timestamps. -/
theorem qNew_inv {fs : DnFsk} (hi : Inv s) (hq : q ∉ s.live)
    (he : qNew wf2qpDesc s q (wf2qpDesc.newFsk fs) = some t) : Inv t := by
  obtain ⟨hpriv, hlive, hmq, hfs, hx, hother⟩ := qNew_eq he
  have hsame : ∀ q', q' ≠ q → SameAt s t q' := by
    intro q' hne
    obtain ⟨hqu, hxq⟩ := hother q' hne
    exact ⟨by simp [hlive, hne], by rw [Inst.mq, hqu]; rfl, by rw [hqu], by rw [hxq], by rw [hxq],
      by rw [hxq]⟩
  have hinv : ¬ Valid t q := by
    rw [not_valid_iff, hx]
    rfl
  have hpar : t.par q 0 = ipdnBoundVar (fs.fs.par 0) 1 1 100 := by
    rw [Inst.par, DnQueue.par, hfs]
    simp [wf2qpNewFsk]
  refine ⟨⟨fun q' hq' => ?_, ?_⟩, ?_⟩
  · rcases eq_or_ne q' q with rfl | hne
    · refine ⟨hpar ▸ ipdnBoundVar_mem (by decide), by rw [hx], fun _ => .inl ?_, by simp [hmq]⟩
      exact not_valid_iff.1 hinv
    · refine (hsame q' hne).queueOk (hi.stamps.queue q' ?_)
      simpa [hlive, hne] using hq'
  · have hsum := sum_share_sub fun q' hne => (hsame q' hne).share
    rw [share_of_not_valid hinv, share_of_not_mem hq, sub_zero, sub_zero] at hsum
    rw [hpriv, hi.stamps.wsum, hsum]
  · have hhome : home t = home s := by
      funext q'
      rcases eq_or_ne q' q with rfl | hne
      · rw [home_of_not_mem hq, home_of_idle (by simp [hlive]) hmq, if_neg hinv]
      · exact (hsame q' hne).home (by rw [hpriv])
    rw [hhome]
    refine hi.located.of_heaps (by rw [hpriv]) fun q' hq' => ?_
    have hne : q' ≠ q := by
      rintro rfl
      exact hq' (home_of_not_mem hq)
    rw [heapPos, (hother q' hne).2]
    rfl

/-- The rest of `dn_delete_queue`, for a queue that is in no heap any more. -/
theorem removeQueue_inv (hi : Inv s) (hl : u.live = s.live) (hV : u.priv.V = s.priv.V)
    (hsame : ∀ q', q' ≠ q → SameAt s u q') (hw : u.priv.wsum = s.priv.wsum - share s q)
    (hloc : Located u (Function.update (home s) q none)) (destroy : Bool) :
    Inv (removeQueue u q destroy) ∧ (removeQueue u q destroy).live = s.live.erase q ∧
      ∀ q', q' ≠ q → (removeQueue u q destroy).mq q' = s.mq q' := by
  obtain ⟨t, ht⟩ : ∃ t, removeQueue u q destroy = t := ⟨_, rfl⟩
  obtain ⟨hpriv, hx, hlive, hqueue⟩ := removeQueue_spec u q destroy
  rw [ht] at hpriv hx hlive hqueue
  rw [hl] at hlive
  have hsame' : ∀ q', q' ≠ q → SameAt s t q' := by
    intro q' hne
    have h := hsame q' hne
    refine ⟨by simp [hlive, hne], ?_, ?_, ?_, ?_, ?_⟩
    · exact (congrArg DnQueue.mq (hqueue q' hne)).trans h.mq
    · rw [hqueue q' hne, h.fs]
    · rw [hx, h.S]
    · rw [hx, h.F]
    · rw [hx, h.invW]
  rw [ht]
  have hnot : q ∉ t.live := by simp [hlive]
  refine ⟨⟨⟨fun q' hq' => ?_, ?_⟩, ?_⟩, hlive, fun q' hne => (hsame' q' hne).mq⟩
  · have hne : q' ≠ q := fun he => hnot (he ▸ hq')
    exact (hsame' q' hne).queueOk (hi.stamps.queue q' ((hsame' q' hne).mem.1 hq'))
  · have hsum := sum_share_sub fun q' hne => (hsame' q' hne).share
    rw [share_of_not_mem hnot, sub_zero] at hsum
    rw [hpriv, hw, hi.stamps.wsum, hsum]
  · have hhome : home t = Function.update (home s) q none := by
      funext q'
      rcases eq_or_ne q' q with rfl | hne
      · rw [Function.update_self, home_of_not_mem hnot]
      · rw [Function.update_of_ne hne, (hsame' q' hne).home (by rw [hpriv, hV])]
    rw [hhome]
    exact hloc.of_heap_eq (by rw [hpriv]) (by unfold heapPos; rw [hx])

/-- **`dn_delete_queue`** keeps the queue and the state, or takes the queue out of the heap where
it is. -/
theorem dnDeleteQueue_inv {destroy safe b : Bool} (hi : Inv s) (hc : Window c s) (hq : q ∈ s.live)
    (hfree : FreeRecognised s q) (he : dnDeleteQueue wf2qpDesc s q destroy safe = some (b, t)) :
    b = true ∧ t = s ∨
      b = false ∧ Inv t ∧ t.live = s.live.erase q ∧ ∀ q', q' ≠ q → t.mq q' = s.mq q' := by
  rw [dnDeleteQueue, Option.map_eq_some_iff] at he
  obtain ⟨⟨b', u⟩, hu, ht⟩ := he
  have hiff := hi.stamps.keyLT_iff hc hq
  simp only [wf2qpDesc, wf2qpFreeQueue] at hu
  by_cases hv : Valid s q
  · rw [if_neg fun h => hiff.1 (hfree.1 h) hv] at hu
    cases safe
    · -- the queue is in the heap that its packets and its start time tell
      obtain ⟨w, k, hplace, hw⟩ : ∃ w k, home s q = some (w, k) ∧
          w = if (subWeight s q).mq q = [] then .idle
            else if keyLT (subWeight s q).priv.V ((subWeight s q).ext q).S then .ne else .sch := by
        by_cases hm : s.mq q = []
        · exact ⟨_, _, by rw [home_of_idle hq hm, if_pos hv], (if_pos hm).symm⟩
        · have hm' : ¬ (subWeight s q).mq q = [] := hm
          rw [home_of_backlogged ⟨hq, hm⟩]
          simp only [if_neg hm']
          rcases hlt : keyLT s.priv.V (s.ext q).S with _ | _
          · exact ⟨.sch, _, rfl, by simp [subWeight, hlt]⟩
          · exact ⟨.ne, _, rfl, by simp [subWeight, hlt]⟩
      obtain ⟨v, hv', hdata, hlocv⟩ := extract_obj_spec (hi.located.subWeight q)
        ((nearly_home s).keysIn hi.stamps hc) hplace
      rw [hw] at hv'
      simp only [Bool.false_eq_true, if_false, hv', Option.map_some, Option.some.injEq,
        Prod.mk.injEq] at hu
      obtain ⟨rfl, rfl⟩ := hu
      simp only [Bool.false_eq_true, if_false, Prod.mk.injEq] at ht
      obtain ⟨rfl, rfl⟩ := ht
      refine .inr ⟨rfl, removeQueue_inv hi (live_eq hdata :) (V_eq hdata :) (fun q' _ => ?_) ?_
        hlocv destroy⟩
      · have h := SameAt.of_data hdata q'
        exact ⟨h.mem, h.mq, h.fs, h.S, h.F, h.invW⟩
      · rw [wsum_eq hdata, share_of_valid hq hv]
        rfl
    · simp only [if_true, Option.some.injEq, Prod.mk.injEq] at hu
      obtain ⟨rfl, rfl⟩ := hu
      simp only [if_true, Prod.mk.injEq] at ht
      exact .inl ⟨ht.1.symm, ht.2.symm⟩
  · rw [if_pos (hfree.2 (hiff.2 hv))] at hu
    simp only [Option.some.injEq, Prod.mk.injEq] at hu
    obtain ⟨rfl, rfl⟩ := hu
    simp only [Bool.false_eq_true, if_false, Prod.mk.injEq] at ht
    obtain ⟨rfl, rfl⟩ := ht
    have hm : s.mq q = [] := by
      by_contra hm
      exact hv (hi.stamps.valid_of_backlogged ⟨hq, hm⟩)
    have hnone : home s q = none := by rw [home_of_idle hq hm, if_neg hv]
    refine .inr ⟨rfl, removeQueue_inv hi rfl rfl (fun q' _ => .refl s q') ?_ ?_ destroy⟩
    · rw [share_of_not_valid hv, sub_zero]
    · rw [← hnone, Function.update_eq_self]
      exact hi.located

end Dummynet.Wf2qp
