import Dummynet.Wf2q.Invariant

/-!
# The dequeue operation of WF2Q+

What each part of `wf2qp_dequeue` does to an instance that satisfies the invariant: the drain of
the idle heap, the move of eligible queues before and after the packet is taken, and the service
of the eligible queue with the smallest finish time. The parts are put together in one
description of the whole operation, `wf2qpDequeue_spec`.

## Main definitions

* `IdleDrained`, `Served`: what the drain and the service change.
* `served`: the state of `wf2qp_dequeue` after the service.

## Main results

* `idleCheck_spec`, `settle_spec`, `serve_spec`: the parts.
* `wf2qpDequeue_spec`, `wf2qpDequeue_idle`: the whole operation.
-/

namespace Dummynet.Wf2qp

open Serial (rank)

variable {s t u : Wf2qp} {c : BitVec 64} {q : QPtr}

/-! ### Draining the idle heap -/

/-- Some queues that hold no packets have left the idle heap, and their timestamps are invalid. -/
structure IdleDrained (s t : Wf2qp) : Prop where
  V : t.priv.V = s.priv.V
  live : t.live = s.live
  queue : t.queue = s.queue
  each : ∀ q, SameAt s t q ∨
    s.mq q = [] ∧ ¬ Valid t q ∧ (t.ext q).F = (s.ext q).F ∧ (t.ext q).invW = (s.ext q).invW

theorem IdleDrained.refl (s : Wf2qp) : IdleDrained s s :=
  ⟨rfl, rfl, rfl, fun q => .inl (.refl s q)⟩

theorem IdleDrained.trans (h : IdleDrained s t) (h' : IdleDrained t u) : IdleDrained s u := by
  refine ⟨h'.V.trans h.V, h'.live.trans h.live, h'.queue.trans h.queue, fun q => ?_⟩
  have hmq : t.mq q = s.mq q := congrFun (congrArg (fun f q => (f q).mq) h.queue) q
  rcases h'.each q with h₂ | ⟨hm, hv, hF, hW⟩
  · rcases h.each q with h₁ | ⟨hm, hv, hF, hW⟩
    · exact .inl (h₁.trans h₂)
    · exact .inr ⟨hm, h₂.valid_iff.not.2 hv, h₂.F.trans hF, h₂.invW.trans hW⟩
  · refine .inr ⟨hmq ▸ hm, hv, ?_⟩
    rcases h.each q with h₁ | ⟨-, -, hF', hW'⟩
    · exact ⟨hF.trans h₁.F, hW.trans h₁.invW⟩
    · exact ⟨hF.trans hF', hW.trans hW'⟩

theorem IdleDrained.mq (h : IdleDrained s t) (q : QPtr) : t.mq q = s.mq q := by
  rw [Inst.mq, h.queue]
  rfl

theorem IdleDrained.sameAt (h : IdleDrained s t) (hq : s.mq q ≠ []) : SameAt s t q :=
  (h.each q).resolve_right fun h' => hq h'.1

theorem IdleDrained.window (h : IdleDrained s t) (hc : Window c s) : Window c t := by
  intro q hq hv
  rcases h.each q with hs | ⟨-, hv', -⟩
  · rw [h.V, hs.S, hs.F]
    exact hc q (hs.mem.1 hq) (hs.valid_iff.1 hv)
  · exact absurd hv hv'

theorem IdleDrained.backlogged_iff (h : IdleDrained s t) (q : QPtr) :
    Backlogged t q ↔ Backlogged s q := by
  rw [Backlogged, Backlogged, h.live, h.mq]

/-- One round of `idle_check`: the top of the idle heap leaves. -/
theorem idle_round (hi : Inv s) (hc : Window c s) (hpos : 0 < elements s .idle) :
    ∃ t, extractFrom s .idle none = some t ∧
      (let q := (s.priv.heap .idle).topObject
       let u := subWeight (setTimes t q ((t.ext q).F + 1) (t.ext q).F) q
       IdleDrained s u ∧ Inv u ∧ elements u .idle + 1 = elements s .idle) := by
  have hk := (nearly_home s).keysIn hi.stamps hc
  obtain ⟨t, ht, hdata, hel, hloc⟩ := extract_top_spec hi.located hk hpos
  have htop := hi.located.top hpos
  refine ⟨t, ht, ?_⟩
  generalize (s.priv.heap .idle).topObject = q at htop hloc ⊢
  obtain ⟨-, hl, hm, hv, -⟩ := (home_eq_some.1 htop).resolve_left (by simp)
    |>.resolve_left (by simp)
  have hst := SameAt.of_data hdata
  intro q₀ u
  have hother : ∀ q', q' ≠ q → SameAt s u q' := by
    intro q' hne
    have hx : u.ext q' = t.ext q' := ext_setTimes_of_ne t hne _ _
    have h := hst q'
    exact ⟨h.mem, h.mq, h.fs, by rw [hx, h.S], by rw [hx, h.F], by rw [hx, h.invW]⟩
  have hxq : u.ext q = { t.ext q with S := (t.ext q).F + 1 } := ext_setTimes_self ..
  have hvu : ¬ Valid u q := by
    rw [not_valid_iff, hxq]
  have hmu : u.mq q = [] := (hst q).mq.trans hm
  have hlu : u.live = s.live := show t.live = s.live from live_eq hdata
  have hFu : (u.ext q).F = (s.ext q).F := by
    rw [hxq]
    exact (hst q).F
  have hWu : (u.ext q).invW = (s.ext q).invW := by
    rw [hxq]
    exact (hst q).invW
  have hV : u.priv.V = s.priv.V := show t.priv.V = s.priv.V from V_eq hdata
  refine ⟨⟨hV, hlu, show t.queue = s.queue from queue_eq hdata, fun q' => ?_⟩, ⟨⟨fun q' hq' => ?_, ?_⟩, ?_⟩, hel⟩
  · rcases eq_or_ne q' q with rfl | hne
    · exact .inr ⟨hm, hvu, hFu, hWu⟩
    · exact .inl (hother q' hne)
  · rw [hlu] at hq'
    rcases eq_or_ne q' q with rfl | hne
    · have hq := hi.stamps.queue q' hl
      have hpar : ∀ i, u.par q' i = s.par q' i := (hst q').par
      refine ⟨by rw [hpar]; exact hq.weight, ?_, fun _ => .inl (not_valid_iff.1 hvu), ?_⟩
      · rw [hWu, hq.invW]
        exact congrArg invWeight (hst q').weight.symm
      · simp [hmu]
    · exact (hother q' hne).queueOk (hi.stamps.queue q' hq')
  · have hsum := sum_share_sub fun q' hne => (hother q' hne).share
    rw [share_of_not_valid hvu, sub_zero, share_of_valid hl hv] at hsum
    rw [hsum]
    have hw : Wf2qp.weight t q = Wf2qp.weight s q := (hst q).weight
    have hws : t.priv.wsum = s.priv.wsum := wsum_eq hdata
    calc u.priv.wsum = t.priv.wsum - Wf2qp.weight t q := rfl
      _ = _ := by rw [hw, hws, hi.stamps.wsum]
  · have hhome : home u = Function.update (home s) q none := by
      funext q'
      rcases eq_or_ne q' q with rfl | hne
      · rw [Function.update_self, home_of_idle (hlu ▸ hl) hmu, if_neg hvu]
      · rw [Function.update_of_ne hne, (hother q' hne).home hV]
    rw [hhome]
    exact (hloc.setTimes _ _ _).subWeight _

/-- **`idle_check`** takes idle queues out of the idle heap, all of them if it is forced to and
the number of rounds is enough. -/
theorem idleCheck_spec (n : ℕ) (force : Bool) : ∀ {s : Wf2qp}, Inv s → Window c s →
    ∃ t, idleCheck n s force = some t ∧ IdleDrained s t ∧ Inv t ∧
      (force = true → elements s .idle ≤ n → elements t .idle = 0) := by
  induction n with
  | zero => exact fun {s} hi hc => ⟨s, rfl, .refl s, hi, fun _ h => Nat.le_zero.1 h⟩
  | succ n ih =>
    intro s hi hc
    rw [idleCheck]
    split_ifs with hif
    · obtain ⟨t, ht, hdr, hinv, hel⟩ := idle_round hi hc hif.1
      obtain ⟨u, hu, hdr', hinv', hdone⟩ := ih hinv (hdr.window hc)
      refine ⟨u, by rw [ht]; exact hu, hdr.trans hdr', hinv', fun hf hn => hdone hf (by omega)⟩
    · refine ⟨s, rfl, .refl s, hi, fun hf _ => ?_⟩
      by_contra h0
      exact hif ⟨Nat.pos_of_ne_zero h0, .inl hf⟩

/-! ### Moving the virtual time and the eligible queues -/

theorem max64_eq_left {x y : BitVec 64} (hx : Serial.InWindow c x) (hy : Serial.InWindow c y)
    (h : rank c y ≤ rank c x) : max64 x y = x := by
  rw [max64, if_neg]
  rw [Serial.toInt_sub_eq hy hx]
  omega

theorem rank_max64 {x y : BitVec 64} (hx : Serial.InWindow c x) (hy : Serial.InWindow c y) :
    rank c (max64 x y) = max (rank c x) (rank c y) := by
  rw [max64, Serial.toInt_sub_eq hy hx]
  split_ifs with h <;> omega

theorem max64_inWindow {x y : BitVec 64} (hx : Serial.InWindow c x) (hy : Serial.InWindow c y) :
    Serial.InWindow c (max64 x y) := by
  rw [max64]
  split_ifs
  · exact hy
  · exact hx

/-- `q` is a backlogged queue with a smallest start time. -/
def IsFirst (s : Wf2qp) (q : QPtr) : Prop :=
  Backlogged s q ∧ ∀ q', Backlogged s q' → keyLEQ (s.ext q).S (s.ext q').S = true

theorem keyLEQ_S_iff (hs : Stamps s) (hc : Window c s) {q q' : QPtr} (hq : Backlogged s q)
    (hq' : Backlogged s q') :
    keyLEQ (s.ext q).S (s.ext q').S = true ↔ rank c (s.ext q).S ≤ rank c (s.ext q').S :=
  Serial.le_iff (hs.window hc hq).2.1 (hs.window hc hq').2.1

theorem exists_isFirst (hs : Stamps s) (hc : Window c s) (hq : Backlogged s q) :
    ∃ q₀, IsFirst s q₀ := by
  have hne : (s.live.filter fun q => s.mq q ≠ []).Nonempty :=
    ⟨q, Finset.mem_filter.2 hq⟩
  obtain ⟨q₀, hq₀, hmin⟩ := Finset.exists_min_image _ (fun q => rank c (s.ext q).S) hne
  rw [Finset.mem_filter] at hq₀
  refine ⟨q₀, hq₀, fun q' hq' => (keyLEQ_S_iff hs hc hq₀ hq').2 (hmin q' ?_)⟩
  exact Finset.mem_filter.2 hq'

/-- A queue that is not in `sch` or `ne` holds no packets. -/
theorem Nearly.place {loc : QPtr → Place} (hn : Nearly s loc) (hq : Backlogged s q) :
    loc q = some (.sch, (s.ext q).F) ∧ keyLT s.priv.V (s.ext q).S = false ∨
      loc q = some (.ne, (s.ext q).S) := by
  rcases hn q with h | ⟨-, -, h⟩
  · rw [h, home_of_backlogged hq]
    split_ifs with hlt
    · exact .inr rfl
    · exact .inl ⟨rfl, by simpa using hlt⟩
  · exact .inr h

theorem Nearly.backlogged {loc : QPtr → Place} (hn : Nearly s loc) {w : WHeap} {k : BitVec 64}
    (hq : loc q = some (w, k)) (hw : w ≠ .idle) : Backlogged s q := by
  rcases hn q with h | ⟨hb, -, -⟩
  · rw [h, home_eq_some] at hq
    rcases hq with ⟨-, hb, -⟩ | ⟨-, hb, -⟩ | ⟨hi, -⟩
    · exact hb
    · exact hb
    · exact absurd hi hw
  · exact hb

/-- With no backlog, both heaps of backlogged queues are empty. -/
theorem Nearly.elements_eq_zero {loc : QPtr → Place} (hloc : Located s loc) (hn : Nearly s loc)
    (hno : ∀ q, ¬ Backlogged s q) {w : WHeap} (hw : w ≠ .idle) : elements s w = 0 := by
  by_contra h0
  exact hno _ (hn.backlogged (hloc.top (Nat.pos_of_ne_zero h0)) hw)

/-- The virtual time is raised to the first start time, `V = max (V, min S)`. -/
theorem raiseV_eq {loc : QPtr → Place} (hloc : Located s loc) (hn : Nearly s loc) (hs : Stamps s)
    (hc : Window c s) {q₀ : QPtr} (hq₀ : IsFirst s q₀) :
    raiseV s = setV s (max64 s.priv.V (s.ext q₀).S) := by
  obtain ⟨hV, hS, -⟩ := hs.window hc hq₀.1
  have hk := hn.keysIn hs hc
  by_cases hsch : elements s .sch = 0
  · -- then the queues with packets are all in `ne`, and the first one is at the top
    have hne : ∀ q, Backlogged s q → loc q = some (.ne, (s.ext q).S) := fun q hq =>
      (hn.place hq).resolve_left fun h => hloc.elements_eq_zero hsch q _ h.1
    have hpos := hloc.elements_pos (hne q₀ hq₀.1)
    rw [raiseV, if_pos ⟨hsch, hpos⟩]
    have htop := hloc.top hpos
    have hb := hn.backlogged htop (by decide)
    have hkey : (s.priv.heap .ne).topKey = (s.ext (s.priv.heap .ne).topObject).S := by
      have := htop.symm.trans (hne _ hb)
      simpa using this
    have hle := hloc.top_le hk (hne q₀ hq₀.1)
    have hge := (keyLEQ_S_iff hs hc hq₀.1 hb).1 (hq₀.2 _ hb)
    rw [hkey] at hle ⊢
    rw [Serial.rank_injOn c (le_antisymm hle hge)]
  · rw [raiseV, if_neg fun h => hsch h.1]
    have htop := hloc.top (Nat.pos_of_ne_zero hsch)
    have hb := hn.backlogged htop (by decide)
    have hlt : keyLT s.priv.V (s.ext (s.priv.heap .sch).topObject).S = false := by
      rcases hn.place hb with ⟨-, h⟩ | h
      · exact h
      · exact absurd (htop.symm.trans h) (by simp)
    obtain ⟨-, hS', -⟩ := hs.window hc hb
    rw [keyLT, ← Bool.not_eq_true, Serial.lt_iff hV hS', not_lt] at hlt
    have hge := (keyLEQ_S_iff hs hc hq₀.1 hb).1 (hq₀.2 _ hb)
    rw [max64_eq_left hV hS (hge.trans hlt)]
    rfl

theorem raiseV_of_idle {loc : QPtr → Place} (hloc : Located s loc) (hn : Nearly s loc)
    (hno : ∀ q, ¬ Backlogged s q) : raiseV s = s := by
  rw [raiseV, if_neg]
  rintro ⟨-, hpos⟩
  exact absurd (hn.elements_eq_zero hloc hno (w := .ne) (by decide)) (by omega)

theorem sameAt_setV (s : Wf2qp) (V : BitVec 64) (q : QPtr) : SameAt s (setV s V) q :=
  ⟨Iff.rfl, rfl, rfl, rfl, rfl, rfl⟩

theorem Stamps.setV (hs : Stamps s) (V : BitVec 64) : Stamps (setV s V) where
  queue q hq := (sameAt_setV s V q).queueOk (hs.queue q hq)
  wsum := hs.wsum

theorem Window.setV (hc : Window c s) {V : BitVec 64} (hV : Serial.InWindow c V) :
    Window c (setV s V) :=
  fun q hq hv => ⟨hV, (hc q hq hv).2⟩

/-- **The loop around the service**: the virtual time is raised to `max (V, min S)`, and every
queue goes home. -/
theorem settle_spec {loc : QPtr → Place} (hloc : Located s loc) (hn : Nearly s loc)
    (hs : Stamps s) (hc : Window c s) :
    ∃ t V, settle s = some t ∧ data t = data (setV s V) ∧ Inv t ∧ Window c t ∧
      ((∀ q, ¬ Backlogged s q) → V = s.priv.V) ∧
      ∀ q₀, IsFirst s q₀ → V = max64 s.priv.V (s.ext q₀).S := by
  obtain ⟨V, hraise, hnone, hfirst, hle⟩ : ∃ V, raiseV s = setV s V ∧
      ((∀ q, ¬ Backlogged s q) → V = s.priv.V) ∧
      (∀ q₀, IsFirst s q₀ → V = max64 s.priv.V (s.ext q₀).S) ∧
      (V = s.priv.V ∨ Serial.InWindow c V ∧ rank c s.priv.V ≤ rank c V) := by
    by_cases hno : ∀ q, ¬ Backlogged s q
    · exact ⟨s.priv.V, raiseV_of_idle hloc hn hno, fun _ => rfl, fun q₀ h => absurd h.1 (hno q₀),
        .inl rfl⟩
    · obtain ⟨q, hq⟩ := not_forall_not.1 hno
      obtain ⟨q₀, hq₀⟩ := exists_isFirst hs hc hq
      obtain ⟨hV, hS, -⟩ := hs.window hc hq₀.1
      refine ⟨_, raiseV_eq hloc hn hs hc hq₀, fun h => absurd hq (h q), fun q₁ hq₁ => ?_, .inr
        ⟨max64_inWindow hV hS, by rw [rank_max64 hV hS]; exact le_max_left _ _⟩⟩
      have h₁ := (keyLEQ_S_iff hs hc hq₀.1 hq₁.1).1 (hq₀.2 _ hq₁.1)
      have h₂ := (keyLEQ_S_iff hs hc hq₁.1 hq₀.1).1 (hq₁.2 _ hq₀.1)
      rw [Serial.rank_injOn c (le_antisymm h₁ h₂)]
  have hn' : Nearly (setV s V) loc := by
    rcases hle with rfl | ⟨hV, hle⟩
    · exact hn
    · exact hn.setV hs hc hV hle
  have hc' : Window c (setV s V) := by
    rcases hle with rfl | ⟨hV, -⟩
    · exact hc
    · exact hc.setV hV
  obtain ⟨t, ht, hdata, hloct⟩ :=
    moveEligible_spec _ (hloc.setV V) hn' (hs.setV V) hc' le_rfl
  refine ⟨t, V, ?_, hdata, ⟨(hs.setV V).of_eq hdata, hloct⟩, (window_iff hdata).2 hc', hnone,
    hfirst⟩
  rw [settle, hraise]
  exact ht

/-! ### Service -/

/-- The time that the first packet of `l` takes. -/
def headTime (x : Wf2qpQueue) : List Mbuf → BitVec 64
  | [] => 0
  | m :: _ => m.len64 * x.invW.setWidth 64

theorem headTime_congr {x y : Wf2qpQueue} (h : x.invW = y.invW) (l : List Mbuf) :
    headTime x l = headTime y l := by
  cases l with
  | nil => rfl
  | cons m rest => rw [headTime, headTime, h]

/-- The queue `q` was served: its packets are now `rest`, its start time is the old finish time,
and its finish time grew by the time of the next packet. The virtual time is now `V`. -/
structure Served (s t : Wf2qp) (q : QPtr) (rest : List Mbuf) (V : BitVec 64) : Prop where
  V : t.priv.V = V
  wsum : t.priv.wsum = s.priv.wsum
  invWsum : t.priv.invWsum = s.priv.invWsum
  live : t.live = s.live
  other : ∀ q', q' ≠ q → SameAt s t q'
  mq : t.mq q = rest
  fs : (t.queue q).fs = (s.queue q).fs
  S : (t.ext q).S = (s.ext q).F
  F : (t.ext q).F = (s.ext q).F + headTime (s.ext q) rest
  invW : (t.ext q).invW = (s.ext q).invW
  queue : ∃ s₁, SameBut s s₁ q rest ∧ t.queue = s₁.queue

theorem requeue_cases (s : Wf2qp) (q : QPtr) :
    ∃ w k, requeue s q =
        insertIn (setTimes s q (s.ext q).F ((s.ext q).F + headTime (s.ext q) (s.mq q))) w k q ∧
      (w, k) = if s.mq q = [] then (WHeap.idle, (s.ext q).F)
        else if keyLEQ (s.ext q).F s.priv.V then
          (.sch, (s.ext q).F + headTime (s.ext q) (s.mq q))
        else (.ne, (s.ext q).F) := by
  unfold requeue
  rcases hm : s.mq q with _ | ⟨m, rest⟩
  · exact ⟨.idle, (s.ext q).F, by simp [headTime], by simp⟩
  · simp only [priv_setTimes, ext_setTimes_self]
    by_cases hle : keyLEQ (s.ext q).F s.priv.V = true
    · exact ⟨.sch, _, by rw [if_pos hle]; rfl, by simp [hle, headTime]⟩
    · exact ⟨.ne, _, by rw [if_neg hle]; rfl, by simp [hle]⟩

/-- The state of `wf2qp_dequeue` after a packet is taken from a settled instance. -/
theorem Served.of_data {s s₁ s₂ : Wf2qp} {q : QPtr} {rest : List Mbuf} {V : BitVec 64}
    {w : WHeap} {k : BitVec 64} (h₁ : SameBut s s₁ q rest) (h₂ : data s₂ = data s₁) :
    Served s (insertIn (setTimes (Wf2qp.setV s₂ V) q (s₂.ext q).F
      ((s₂.ext q).F + headTime (s₂.ext q) (s₂.mq q))) w k q) q rest V := by
  have hdata : ∀ u : Wf2qp, data (insertIn u w k q) = data u := fun u => data_insert u w k q
  have h := hdata (setTimes (Wf2qp.setV s₂ V) q (s₂.ext q).F
      ((s₂.ext q).F + headTime (s₂.ext q) (s₂.mq q)))
  have hat := SameAt.of_data h₂
  have hmq : s₂.mq q = rest := (hat q).mq.trans h₁.mq_self
  have hx : s₁.ext = s.ext := h₁.ext
  have hhead : headTime (s₂.ext q) (s₂.mq q) = headTime (s.ext q) rest := by
    rw [hmq]
    exact headTime_congr ((hat q).invW.trans (by rw [hx])) rest
  refine ⟨V_eq h, (wsum_eq h).trans ?_, (invWsum_eq h).trans ?_, (live_eq h).trans ?_,
    fun q' hne => ?_, (mq_eq h q).trans hmq, (congrArg DnQueue.fs (congrFun (queue_eq h) q)).trans ?_, (S_eq h q).trans ?_,
    (F_eq h q).trans ?_, (invW_eq h q).trans ?_, s₁, h₁, (queue_eq h).trans (queue_eq h₂ :)⟩
  · exact (wsum_eq h₂).trans (by rw [h₁.priv])
  · exact (invWsum_eq h₂).trans (by rw [h₁.priv])
  · exact (live_eq h₂).trans h₁.live
  · have hq' := (SameAt.of_data h q').trans (.refl _ q')
    have hx' : (setTimes (Wf2qp.setV s₂ V) q (s₂.ext q).F
      ((s₂.ext q).F + headTime (s₂.ext q) (s₂.mq q))).ext q' = s₂.ext q' :=
        Function.update_of_ne hne _ _
    have h₂' := hat q'
    refine ⟨?_, ?_, ?_, ?_, ?_, ?_⟩
    · exact hq'.mem.trans (h₂'.mem.trans (by rw [h₁.live]))
    · exact hq'.mq.trans (h₂'.mq.trans (h₁.mq_of_ne hne))
    · exact hq'.fs.trans (h₂'.fs.trans (h₁.fs q'))
    · rw [hq'.S, hx', h₂'.S, hx]
    · rw [hq'.F, hx', h₂'.F, hx]
    · rw [hq'.invW, hx', h₂'.invW, hx]
  · exact (hat q).fs.trans (h₁.fs q)
  · simp only [setTimes, Function.update_self]
    rw [(hat q).F, hx]
  · simp only [setTimes, Function.update_self]
    rw [hhead, (hat q).F, hx]
  · simp only [setTimes, Function.update_self]
    exact (hat q).invW.trans (by rw [hx])

theorem Served.valid {rest : List Mbuf} {V : BitVec 64} (h : Served s u q rest V) (hs : Stamps s)
    (hq : q ∈ s.live) : Valid u q := by
  rw [Valid, h.S, h.F]
  rcases rest with _ | ⟨m, rest⟩
  · exact ne_add_add_one (by simp [headTime])
  · obtain ⟨hstep, hlt⟩ := hs.toNat_step hq m
    exact ne_add_add_one (hstep ▸ hlt)

theorem Served.stamps {m : Mbuf} {rest : List Mbuf} {V : BitVec 64} (h : Served s u q rest V)
    (hs : Stamps s) (hq : q ∈ s.live) (hm : s.mq q = m :: rest) : Stamps u := by
  have hb : Backlogged s q := ⟨hq, by simp [hm]⟩
  have hpar : ∀ i, u.par q i = s.par q i := fun i => congrArg (fun f => f.fs.par i) h.fs
  have hw : Wf2qp.weight u q = Wf2qp.weight s q := by rw [Wf2qp.weight, Wf2qp.weight, hpar]
  have hk := hs.queue q hq
  refine ⟨fun q' hq' => ?_, ?_⟩
  · rcases eq_or_ne q' q with rfl | hne
    · refine ⟨by rw [hpar]; exact hk.weight, by rw [h.invW, hw]; exact hk.invW, fun h0 => .inr ?_,
        fun m' hm' => ?_⟩
      · rw [h.mq] at h0
        rw [h.S, h.F, h0, headTime, add_zero]
      · rw [h.mq] at hm'
        obtain ⟨rest', rfl⟩ := List.head?_eq_some_iff.1 hm'
        rw [h.S, h.F, h.invW, headTime]
    · exact (h.other q' hne).queueOk (hs.queue q' (h.live ▸ hq'))
  · have hsum := sum_share_sub fun q' hne => (h.other q' hne).share
    rw [share_of_valid (h.live ▸ hq) (h.valid hs hq), share_of_valid hq (hs.valid_of_backlogged hb),
      hw, sub_left_inj] at hsum
    rw [h.wsum, hs.wsum, hsum]

/-- The time charged to the virtual time does not carry it round the circle. -/
theorem toNat_charge (m : Mbuf) (w : BitVec 32) :
    (m.len64 * w.setWidth 64).toNat < 2 ^ 63 := by
  have hlen := m.len_lt
  have hw := w.isLt
  rw [BitVec.toNat_mul, Mbuf.toNat_len64, BitVec.toNat_setWidth,
    Nat.mod_eq_of_lt (a := w.toNat) (by omega)]
  calc m.len * w.toNat % 2 ^ 64 ≤ m.len * w.toNat := Nat.mod_le _ _
    _ ≤ m.len * 2 ^ 32 := Nat.mul_le_mul_left _ hw.le
    _ < 2 ^ 31 * 2 ^ 32 := Nat.mul_lt_mul_of_pos_right hlen (by decide)
    _ = 2 ^ 63 := by decide

/-- The home of the queue that was served. -/
theorem Served.home_self {rest : List Mbuf} {V : BitVec 64} (h : Served s u q rest V)
    (hs : Stamps s) (hc : Window c u) (hq : q ∈ s.live) :
    home u q = some (if rest = [] then (.idle, (s.ext q).F)
      else if keyLEQ (s.ext q).F V then (.sch, (u.ext q).F) else (.ne, (s.ext q).F)) := by
  have hl : q ∈ u.live := h.live ▸ hq
  have hval := h.valid hs hq
  obtain ⟨hV, hS, -⟩ := hc q hl hval
  rw [h.V] at hV
  rw [h.S] at hS
  by_cases hr : rest = []
  · rw [home_of_idle hl (h.mq.trans hr), if_pos hval, if_pos hr, h.F, hr, headTime, add_zero]
  · rw [home_of_backlogged ⟨hl, by rw [h.mq]; exact hr⟩, if_neg hr, h.S, h.V]
    have hlt := Serial.lt_iff hV hS
    have hle := Serial.le_iff hS hV
    unfold keyLT keyLEQ
    by_cases hle' : rank c (s.ext q).F ≤ rank c V
    · rw [if_neg (by rw [hlt]; omega), if_pos (hle.2 hle')]
    · rw [if_pos (hlt.2 (by omega)), if_neg (by rw [hle]; omega)]

/-- Served and put at home, the queue leaves the others where they are. -/
theorem Served.nearly {rest : List Mbuf} {V : BitVec 64} (h : Served s u q rest V)
    (hi : Inv s) (hcs : Window c s) (hV : Serial.InWindow c V)
    (hle : rank c s.priv.V ≤ rank c V) : Nearly u (Function.update (home s) q (home u q)) := by
  intro q'
  rcases eq_or_ne q' q with rfl | hne
  · exact .inl (Function.update_self ..)
  · rw [Function.update_of_ne hne]
    have hsame : SameAt (Wf2qp.setV s V) u q' := (sameAt_setV s V q').symm.trans (h.other q' hne)
    rcases (nearly_home s).setV hi.stamps hcs hV hle q' with hh | ⟨hb, hlt, hh⟩
    · exact .inl (hh.trans (hsame.home h.V).symm)
    · refine .inr ⟨hsame.backlogged_iff.2 hb, ?_, ?_⟩
      · rw [h.V, hsame.S]
        exact hlt
      · rw [hsame.S]
        exact hh

theorem KeysIn.update_none {loc : QPtr → Place} (hk : KeysIn c loc) (q : QPtr) :
    KeysIn c (Function.update loc q none) := by
  intro q' w k hq'
  rcases eq_or_ne q' q with rfl | hne
  · simp at hq'
  · exact hk q' w k (by rwa [Function.update_of_ne hne] at hq')

/-- **Service.** A packet of the eligible queue with the smallest finish time is taken, and the
queue goes to the heap for its new timestamps. -/
theorem serve_spec (hi : Inv s) (hc : Window c s) (hpos : 0 < elements s .sch) :
    ∃ q m rest u, serve s = some (m, u) ∧ s.mq q = m :: rest ∧ q ∈ s.live ∧
      keyLT s.priv.V (s.ext q).S = false ∧
      (∀ q', Backlogged s q' → keyLT s.priv.V (s.ext q').S = false →
        keyLEQ (s.ext q).F (s.ext q').F = true) ∧
      Served s u q rest (s.priv.V + m.len64 * s.priv.invWsum.setWidth 64) ∧
      (Window c u → ∃ loc, Located u loc ∧ Nearly u loc ∧ Stamps u) := by
  have hk := (nearly_home s).keysIn hi.stamps hc
  have htop := hi.located.top hpos
  have hmin := fun q k => hi.located.top_le hk (w := .sch) (q := q) (k := k)
  obtain ⟨q, hq⟩ : ∃ q, (s.priv.heap .sch).topObject = q := ⟨_, rfl⟩
  rw [hq] at htop
  obtain ⟨-, hb, hlt, hkey⟩ := (home_eq_some.1 htop).resolve_right (by simp)
  obtain ⟨m, rest, hm, -⟩ := hi.stamps.exists_head hb
  obtain ⟨hVs, -, hFs⟩ := hi.stamps.window hc hb
  -- the packet is taken and the queue leaves `sch`
  obtain ⟨s₁, hs₁, hbut⟩ := Inst.dequeue_spec hm
  have hheap : ∀ w, s₁.priv.heap w = s.priv.heap w := fun w => by rw [hbut.priv]
  have hloc₁ : Located s₁ (home s) :=
    hi.located.of_heap_eq (by rw [hbut.priv]) (by unfold heapPos; rw [hbut.ext])
  obtain ⟨s₂, hs₂, hdata, -, hloc₂⟩ := extract_top_spec (w := .sch) hloc₁ hk
    (by rw [elements, hheap]; exact hpos)
  rw [hheap, hq] at hloc₂
  have hV : s₂.priv.V = s.priv.V := (V_eq hdata).trans (by rw [hbut.priv])
  have hW : s₂.priv.invWsum = s.priv.invWsum := (invWsum_eq hdata).trans (by rw [hbut.priv])
  generalize hVdef : s.priv.V + m.len64 * s.priv.invWsum.setWidth 64 = V
  obtain ⟨w, k, hrq, hwk⟩ := requeue_cases (setV s₂ V) q
  have hserved : Served s (requeue (setV s₂ V) q) q rest V := hrq ▸ Served.of_data hbut hdata
  refine ⟨q, m, rest, requeue (setV s₂ V) q, ?_, hm, hb.1, hlt, fun q' hb' hlt' => ?_,
    hVdef ▸ hserved, fun hcu => ?_⟩
  · rw [serve, hq, hs₁]
    dsimp only
    rw [hs₂]
    simp only [Option.map_some, hV, hW, hVdef]
  · have hplace : home s q' = some (.sch, (s.ext q').F) := by
      rw [home_of_backlogged hb', hlt']
      rfl
    obtain ⟨-, -, hF'⟩ := hi.stamps.window hc hb'
    rw [keyLEQ, Serial.le_iff hFs hF', ← hkey]
    exact hmin q' _ hplace
  · -- it is put where its new timestamps ask for
    obtain ⟨hVc, hSc, hFc⟩ := hcu q (hserved.live ▸ hb.1) (hserved.valid hi.stamps hb.1)
    rw [hserved.V] at hVc
    rw [hserved.S] at hSc
    have hmq : (setV s₂ V).mq q = rest := (mq_eq hdata q).trans hbut.mq_self
    have hF₂ : (s₂.ext q).F = (s.ext q).F := (F_eq hdata q).trans (by rw [hbut.ext])
    have hhead : headTime (s₂.ext q) rest = headTime (s.ext q) rest :=
      headTime_congr ((invW_eq hdata q).trans (by rw [hbut.ext])) rest
    change (w, k) = if (setV s₂ V).mq q = [] then (WHeap.idle, (s₂.ext q).F)
      else if keyLEQ (s₂.ext q).F V then
        (.sch, (s₂.ext q).F + headTime (s₂.ext q) ((setV s₂ V).mq q))
      else (.ne, (s₂.ext q).F) at hwk
    rw [hmq, hF₂, hhead, ← hserved.F] at hwk
    have hhome : home (requeue (setV s₂ V) q) q = some (w, k) := by
      rw [hserved.home_self hi.stamps hcu hb.1, hwk]
    have hkw : Serial.InWindow c k := by
      rw [hserved.home_self hi.stamps hcu hb.1, Option.some.injEq] at hhome
      rw [show k = _ from (congrArg Prod.snd hhome).symm]
      split_ifs
      · exact hSc
      · exact hFc
      · exact hSc
    have hins := (insert_spec (w := w) (k := k) (((hloc₂.setV V).setTimes q (s₂.ext q).F
      ((s₂.ext q).F + headTime (s₂.ext q) (s₂.mq q)))) (hk.update_none q) hkw
      (Function.update_self ..)).1
    rw [Function.update_idem, ← hhome] at hins
    have hle : rank c s.priv.V ≤ rank c V := by
      have hd := toNat_charge m s.priv.invWsum
      rw [← hVdef, Serial.rank_add hVs (by omega)]
      omega
    exact ⟨_, by rw [hrq] at hins ⊢; exact hins, hserved.nearly hi hc hVc hle,
      hserved.stamps hi.stamps hb.1 hm⟩

/-! ### The whole operation -/

/-- The state of `wf2qp_dequeue` after the service. -/
def served (s : Wf2qp) : Option Wf2qp :=
  (idleCheck 1 s false).bind fun s => (settle s).bind fun s => (serve s).map Prod.snd

/-- From `s` to `t` the packet `m` of `q` was taken while `V` was the virtual time: `q` is
eligible with a least finish time, and the packets and timestamps of the other backlogged queues
stay. -/
structure Dequeued (s t : Wf2qp) (q : QPtr) (m : Mbuf) (rest : List Mbuf) (V : BitVec 64) :
    Prop where
  mem : q ∈ s.live
  head : s.mq q = m :: rest
  eligible : keyLT V (s.ext q).S = false
  least : ∀ q', Backlogged s q' → keyLT V (s.ext q').S = false →
    keyLEQ (s.ext q).F (s.ext q').F = true
  live : t.live = s.live
  fs : ∀ q', (t.queue q').fs = (s.queue q').fs
  mq : ∀ q', t.mq q' = Function.update s.mq q rest q'
  S : (t.ext q).S = (s.ext q).F
  F : (t.ext q).F = (s.ext q).F + headTime (s.ext q) rest
  invW : (t.ext q).invW = (s.ext q).invW
  other : ∀ q', q' ≠ q → s.mq q' ≠ [] → SameAt s t q'

/-- **`wf2qp_dequeue` with a backlog**, as long as the timestamps stay in a window. -/
theorem wf2qpDequeue_spec (hi : Inv s) (hc : Window c s) (hu : ∀ u ∈ served s, Window c u)
    (hq : Backlogged s q) :
    ∃ q m rest t V, wf2qpDequeue s = some (some m, t) ∧ Dequeued s t q m rest V ∧ Inv t ∧
      Window c t ∧ ∀ q₀, IsFirst s q₀ → V = max64 s.priv.V (s.ext q₀).S := by
  have hbusy : ¬ (elements s .sch = 0 ∧ elements s .ne = 0) := by
    rintro ⟨h1, h2⟩
    rcases (nearly_home s).place hq with h | h
    · exact hi.located.elements_eq_zero h1 q _ h.1
    · exact hi.located.elements_eq_zero h2 q _ h
  obtain ⟨s₁, hs₁, hdr, hi₁, -⟩ := idleCheck_spec 1 false hi hc
  have hc₁ := hdr.window hc
  have hsame₁ : ∀ q', Backlogged s q' → SameAt s s₁ q' := fun q' h => hdr.sameAt h.2
  obtain ⟨s₂, V, hs₂, hd₂, hi₂, hc₂, -, hfirst⟩ :=
    settle_spec hi₁.located (nearly_home s₁) hi₁.stamps hc₁
  have hfirst' : ∀ q₀, IsFirst s q₀ → V = max64 s.priv.V (s.ext q₀).S := by
    intro q₀ hq₀
    have h := hsame₁ q₀ hq₀.1
    rw [hfirst q₀ ⟨h.backlogged_iff.2 hq₀.1, fun q' hq' => ?_⟩, hdr.V, h.S]
    have h' := (hdr.backlogged_iff q').1 hq'
    rw [h.S, (hsame₁ q' h').S]
    exact hq₀.2 q' h'
  have hV₂ : s₂.priv.V = V := V_eq hd₂
  have hsame₂ : ∀ q', SameAt s₁ s₂ q' := fun q' =>
    (sameAt_setV s₁ V q').trans (.of_data hd₂ q')
  have hsame : ∀ q', Backlogged s q' → SameAt s s₂ q' := fun q' h =>
    (hsame₁ q' h).trans (hsame₂ q')
  -- after the move some queue is eligible
  have hpos : 0 < elements s₂ .sch := by
    obtain ⟨q₀, hq₀⟩ := exists_isFirst hi.stamps hc hq
    obtain ⟨hVc, hSc, -⟩ := hi.stamps.window hc hq₀.1
    have hb₂ : Backlogged s₂ q₀ := (hsame q₀ hq₀.1).backlogged_iff.2 hq₀.1
    refine hi₂.located.elements_pos (q := q₀) (k := (s₂.ext q₀).F) ?_
    rw [home_of_backlogged hb₂, if_neg]
    rw [hV₂, (hsame q₀ hq₀.1).S, hfirst' q₀ hq₀, keyLT,
      Serial.lt_iff (max64_inWindow hVc hSc) hSc, rank_max64 hVc hSc]
    omega
  obtain ⟨p, m, rest, u, hs₃, hm, hl, hlt, hleast, hsv, hloc⟩ := serve_spec hi₂ hc₂ hpos
  have hserved : served s = some u := by
    rw [served, hs₁, Option.bind_some, hs₂, Option.bind_some, hs₃]
    rfl
  have hcu : Window c u := hu u hserved
  obtain ⟨loc, hlocu, hnu, hsu⟩ := hloc hcu
  obtain ⟨t, V', ht, hdt, hit, hct, -, -⟩ := settle_spec hlocu hnu hsu hcu
  have hp : Backlogged s p := by
    have h : Backlogged s₂ p := ⟨hl, by simp [hm]⟩
    exact (hdr.backlogged_iff p).1 ((hsame₂ p).backlogged_iff.1 h)
  have hps := hsame p hp
  have hut : ∀ q', SameAt u t q' := fun q' => (sameAt_setV u V' q').trans (.of_data hdt q')
  have hmq₂ : ∀ q', s₂.mq q' = s.mq q' := fun q' => (hsame₂ q').mq.trans (hdr.mq q')
  have hfs₂ : ∀ q', (s₂.queue q').fs = (s.queue q').fs := fun q' =>
    (hsame₂ q').fs.trans (by rw [hdr.queue])
  refine ⟨p, m, rest, t, V, ?_, ⟨hp.1, (hmq₂ p) ▸ hm, ?_, fun q' hq' hlt' => ?_, ?_, fun q' => ?_,
    fun q' => ?_, ?_, ?_, ?_, fun q' hne hq' => ?_⟩, hit, hct, hfirst'⟩
  · rw [wf2qpDequeue, if_neg hbusy, hs₁, Option.bind_some, hs₂, Option.bind_some, hs₃,
      Option.bind_some, ht]
    rfl
  · rw [← hps.S, ← hV₂]
    exact hlt
  · rw [← hps.F, ← (hsame q' hq').F]
    refine hleast q' ((hsame q' hq').backlogged_iff.2 hq') ?_
    rw [(hsame q' hq').S, hV₂]
    exact hlt'
  · exact (live_eq hdt).trans (hsv.live.trans ((live_eq hd₂).trans hdr.live))
  · refine (hut q').fs.trans (Eq.trans ?_ (hfs₂ q'))
    rcases eq_or_ne q' p with rfl | hne
    · exact hsv.fs
    · exact (hsv.other q' hne).fs
  · rw [(hut q').mq]
    rcases eq_or_ne q' p with rfl | hne
    · rw [Function.update_self, hsv.mq]
    · rw [Function.update_of_ne hne, (hsv.other q' hne).mq, hmq₂]
  · rw [(hut p).S, hsv.S, hps.F]
  · rw [(hut p).F, hsv.F, hps.F, headTime_congr hps.invW]
  · rw [(hut p).invW, hsv.invW, hps.invW]
  · exact ((hdr.sameAt hq').trans (hsame₂ q')).trans ((hsv.other q' hne).trans (hut q'))

/-- A heap holds no more queues than the instance has. -/
theorem Inv.elements_le_card (hi : Inv s) (w : WHeap) : elements s w ≤ s.live.card := by
  have hw := hi.located.wf w
  have hmaps : Set.MapsTo (fun i => ((s.priv.heap w).p i).object)
      (Finset.range (elements s w)) s.live := by
    intro i hi'
    have h := (hi.located.has w _ _).1
      (DnHeap.has_place (h := s.priv.heap w) (Finset.mem_range.1 hi'))
    rcases home_eq_some.1 h with ⟨-, hb, -⟩ | ⟨-, hb, -⟩ | ⟨-, hl, -⟩
    · exact hb.1
    · exact hb.1
    · exact hl
  have hinj : Set.InjOn (fun i => ((s.priv.heap w).p i).object)
      (Finset.range (elements s w)) := by
    intro i hi' j hj' he
    rw [Finset.coe_range, Set.mem_Iio] at hi' hj'
    exact hw.indexed.inj i j hi' hj' hi'.ne hj'.ne he
  simpa using Finset.card_le_card_of_injOn _ hmaps hinj

/-- **`wf2qp_dequeue` without a backlog**: all timestamps become invalid and the clock
restarts. -/
theorem wf2qpDequeue_idle (hi : Inv s) (hc : Window c s) (hcard : s.live.card < 2 ^ 31)
    (hno : ∀ q, ¬ Backlogged s q) :
    ∃ t, wf2qpDequeue s = some (none, t) ∧ Inv t ∧ t.live = s.live ∧ t.queue = s.queue ∧
      t.priv.V = 0 ∧ ∀ q ∈ t.live, ¬ Valid t q := by
  obtain ⟨u, hu, hdr, hiu, hdone⟩ := idleCheck_spec 0x7fffffff true hi hc
  have hempty : elements u .idle = 0 :=
    hdone rfl ((hi.elements_le_card WHeap.idle).trans (by omega))
  have hidle : ∀ q ∈ u.live, u.mq q = [] := by
    intro q hq
    by_contra hm
    exact hno q ((hdr.backlogged_iff q).1 ⟨hq, hm⟩)
  have hinv : ∀ q ∈ u.live, ¬ Valid u q := by
    intro q hq hv
    refine hiu.located.elements_eq_zero hempty q (u.ext q).F ?_
    rw [home_of_idle hq (hidle q hq), if_pos hv]
  have hzero : ∑ q ∈ u.live, share u q = 0 :=
    Finset.sum_eq_zero fun q hq => share_of_not_valid (hinv q hq)
  refine ⟨{ u with priv := { u.priv with V := 0, wsum := 0 } }, ?_, ⟨⟨fun q hq => ?_, ?_⟩, ?_⟩,
    hdr.live, hdr.queue, rfl, hinv⟩
  · have h0 := fun w (hw : w ≠ WHeap.idle) => (nearly_home s).elements_eq_zero hi.located hno hw
    rw [wf2qpDequeue, if_pos ⟨h0 .sch (by decide), h0 .ne (by decide)⟩, hu]
    rfl
  · have hk := hiu.stamps.queue q hq
    exact ⟨hk.weight, hk.invW, hk.idle, hk.busy⟩
  · exact hzero.symm
  · have hhome : home { u with priv := { u.priv with V := 0, wsum := 0 } } = home u := by
      funext q
      by_cases hq : q ∈ u.live
      · rw [home_of_idle hq (hidle q hq)]
        exact home_of_idle (s := { u with priv := _ }) hq (hidle q hq)
      · rw [home_of_not_mem hq]
        exact home_of_not_mem (s := { u with priv := _ }) hq
    rw [hhome]
    exact hiu.located.of_heap_eq rfl rfl

end Dummynet.Wf2qp
