import Dummynet.Lib.Runs
import Dummynet.System.Idle
import Dummynet.System.Replace

/-!
# How long idle objects are kept

The drain routines delete an idle queue or instance if its time is smaller than
`curr_time - object_idle_tick`. An object is meant to be kept for `object_idle_tick` ticks after the
last packet has left it, or after it was made.

An observer of a run counts the ticks and notes when a packet last left each object. The times of the
objects agree with it, but for the queues that never held a packet; and the difference wraps around
in the first ticks after the start.

## Main definitions

* `IdleSince`, `IdleSince.next`: the observer.
* `Dn.upToDrain`: an operation without the drain at its end.
* `Tracked`: the times of the objects agree with the observer.
* `IdleSince.Outlived`: what is deleted was idle for long enough.

## Main results

* `doDrain_drained`: what the drain deletes.
* `tracked_of_run`: the agreement holds in every run.
* `outlived_of_run`: when what is deleted was idle for long enough.
-/

namespace Dummynet

variable {s t u v : Dn} {p : SiPtr} {fp : FskPtr} {sp : SchkPtr}

/-! ### The drain -/

/-- The relation is respected by what the drain routines do. -/
structure Drains (R : Dn → Dn → Prop) : Prop where
  quiet : ∀ {s t : Dn}, t.objs = s.objs → t.parms = s.parms → R s t
  trans : ∀ {s t u : Dn}, R s t → R t u → R s u
  queue : ∀ {s t : Dn} {p : SiPtr} {q : QPtr} {safe b : Bool},
    ((s.inst p).s.queue q).ni.length = 0 → s.expired ((s.inst p).s.queue q).qTime = true →
    s.callback p (fun k t => dnDeleteQueue k.desc t q true safe) = some (b, t) → R s t
  inst : ∀ {s t : Dn} {p : SiPtr}, (s.inst p).active = false →
    s.expired (s.inst p).idleTime = true → siDestroy s p = some t → R s t

namespace Drains

variable {R : Dn → Dn → Prop} (hR : Drains R)

include hR

theorem refl (s : Dn) : R s s := hR.quiet rfl rfl

/-- What was done before. -/
theorem after (h : R u t) (hobjs : u.objs = s.objs) (hparms : u.parms = s.parms) : R s t :=
  hR.trans (hR.quiet hobjs hparms) h

theorem foldlM {α : Type} {f : Dn → α → Option Dn} (hf : ∀ {s a t}, f s a = some t → R s t)
    {l : List α} (h : l.foldlM f s = some t) : R s t :=
  foldlM_rel hR.refl hR.trans hf h

theorem drainQueueCb {a : QAddr} (h : drainQueueCb fp s a = some t) : R s t := by
  unfold Dummynet.drainQueueCb at h
  dsimp only at h
  split_ifs at h with hlen hexp
  · obtain ⟨⟨kept, u⟩, hu, h⟩ := Option.bind_eq_some_iff.1 h
    obtain rfl := Option.some.inj h
    obtain ⟨_, -, hu⟩ := Option.bind_eq_some_iff.1 hu
    obtain ⟨_, -, hu⟩ := Option.bind_eq_some_iff.1 hu
    refine hR.trans (hR.queue hlen hexp hu) ?_
    split_ifs
    · exact hR.refl u
    · exact hR.quiet rfl rfl
  · obtain rfl := Option.some.inj h
    exact hR.quiet rfl rfl
  · obtain rfl := Option.some.inj h
    exact hR.refl s

theorem drainQueueFsCb (h : drainQueueFsCb s fp = some t) : R s t := by
  unfold Dummynet.drainQueueFsCb at h
  dsimp only at h
  split at h
  · split at h
    · obtain rfl := Option.some.inj h
      exact hR.refl s
    · exact absurd h (by simp)
    · exact hR.after (hR.foldlM hR.drainQueueCb h) rfl rfl
  · split at h
    · obtain rfl := Option.some.inj h
      exact hR.refl s
    · exact hR.drainQueueCb h
    · exact absurd h (by simp)

theorem drainSchedulerCb (h : drainSchedulerCb sp s p = some t) : R s t := by
  unfold Dummynet.drainSchedulerCb at h
  dsimp only at h
  split at h
  · obtain rfl := Option.some.inj h
    exact hR.refl s
  next hbusy =>
  split at h
  · split at h
    · next hexp =>
      obtain ⟨u, hu, h⟩ := Option.bind_eq_some_iff.1 h
      obtain rfl := Option.some.inj h
      have hactive : (s.inst p).active = false := by simp_all
      exact hR.trans (hR.inst hactive hexp.2 hu) (hR.quiet rfl rfl)
    · obtain rfl := Option.some.inj h
      exact hR.quiet rfl rfl
  · obtain rfl := Option.some.inj h
    exact hR.refl s

theorem drainSchedulerSchCb (h : drainSchedulerSchCb s sp = some t) : R s t := by
  unfold Dummynet.drainSchedulerSchCb at h
  dsimp only at h
  split at h
  · split at h
    · obtain rfl := Option.some.inj h
      exact hR.refl s
    · exact absurd h (by simp)
    · exact hR.after (hR.foldlM hR.drainSchedulerCb h) rfl rfl
  · split at h
    · obtain rfl := Option.some.inj h
      exact hR.refl s
    · exact hR.drainSchedulerCb h
    · exact absurd h (by simp)

theorem dnDrainQueue (h : dnDrainQueue s = some t) : R s t := by
  unfold Dummynet.dnDrainQueue at h
  split at h
  · obtain rfl := Option.some.inj h
    exact hR.refl s
  · exact hR.after (hR.foldlM hR.drainQueueFsCb h) rfl rfl

theorem dnDrainScheduler (h : dnDrainScheduler s = some t) : R s t := by
  unfold Dummynet.dnDrainScheduler at h
  split at h
  · obtain rfl := Option.some.inj h
    exact hR.refl s
  · exact hR.after (hR.foldlM hR.drainSchedulerSchCb h) rfl rfl

theorem drainLoop {n : ℕ} (h : drainLoop n s = some t) : R s t := by
  induction n generalizing s with
  | zero =>
    obtain rfl := Option.some.inj h
    exact hR.refl s
  | succ n ih =>
    rw [Dummynet.drainLoop] at h
    dsimp only at h
    have hend : ∀ {v : Dn} {c : Prop} [Decidable c], R s v →
        (if c then Dummynet.drainLoop n v else some v) = some t → R s t := by
      intro v c _ hsv h
      split_ifs at h
      · exact hR.trans hsv (ih h)
      · obtain rfl := Option.some.inj h
        exact hsv
    split at h
    · obtain ⟨u, hu, h⟩ := Option.bind_eq_some_iff.1 h
      split at h
      · obtain ⟨v, hv, h⟩ := Option.bind_eq_some_iff.1 h
        exact hend (hR.trans (hR.dnDrainQueue hu) (hR.dnDrainScheduler hv)) h
      · obtain ⟨v, hv, h⟩ := Option.bind_eq_some_iff.1 h
        obtain rfl := Option.some.inj hv
        exact hend (hR.dnDrainQueue hu) h
    · obtain ⟨u, hu, h⟩ := Option.bind_eq_some_iff.1 h
      obtain rfl := Option.some.inj hu
      split at h
      · obtain ⟨v, hv, h⟩ := Option.bind_eq_some_iff.1 h
        exact hend (hR.dnDrainScheduler hv) h
      · obtain ⟨v, hv, h⟩ := Option.bind_eq_some_iff.1 h
        obtain rfl := Option.some.inj hv
        exact hend (hR.refl s) h

/-- **`do_drain`.** -/
theorem doDrain (h : doDrain s = some t) : R s t := by
  unfold Dummynet.doDrain at h
  dsimp only at h
  split_ifs at h
  · obtain rfl := Option.some.inj h
    exact hR.refl s
  · obtain rfl := Option.some.inj h
    exact hR.quiet rfl rfl
  · exact hR.after (hR.drainLoop h) rfl rfl

end Drains

/-- What the drain may do: it deletes what is empty and has expired, and leaves the other times as
they are. The queue that is part of an instance goes with it. -/
structure Drained (s t : Dn) : Prop where
  clock : t.currTime = s.currTime
  parms : t.parms = s.parms
  queue : ∀ p, ∀ q ∈ (s.inst p).s.live, q ≠ fifoQueue →
    q ∈ (t.inst p).s.live ∧ ((t.inst p).s.queue q).ni = ((s.inst p).s.queue q).ni ∧
      ((t.inst p).s.queue q).qTime = ((s.inst p).s.queue q).qTime ∨
    ((s.inst p).s.queue q).ni.length = 0 ∧ s.expired ((s.inst p).s.queue q).qTime = true
  inst : ∀ p ∈ s.sis,
    p ∈ t.sis ∧ (t.inst p).active = (s.inst p).active ∧
      (t.inst p).idleTime = (s.inst p).idleTime ∨
    (s.inst p).active = false ∧ s.expired (s.inst p).idleTime = true

theorem drained_of_objs (h : t.objs = s.objs) (hparms : t.parms = s.parms) : Drained s t := by
  obtain ⟨hinst, h⟩ := Prod.mk.inj h
  obtain ⟨hsis, hclock⟩ := Prod.mk.inj h
  refine ⟨hclock, hparms, fun p q hq _ => .inl ?_, fun p hp => .inl ?_⟩
  · rw [hinst]
    exact ⟨hq, rfl, rfl⟩
  · rw [hinst, hsis]
    exact ⟨hp, rfl, rfl⟩

theorem Drained.trans (h : Drained s t) (h' : Drained t u) : Drained s u := by
  have hexp : t.expired = s.expired := by
    funext x
    rw [Dn.expired, Dn.expired, h.clock, h.parms]
  refine ⟨h'.clock.trans h.clock, h'.parms.trans h.parms, fun p q hq hne => ?_, fun p hp => ?_⟩
  · rcases h.queue p q hq hne with ⟨hq', hni, htime⟩ | hgone
    · rcases h'.queue p q hq' hne with ⟨hq'', hni', htime'⟩ | ⟨hlen, hgone⟩
      · exact .inl ⟨hq'', hni'.trans hni, htime'.trans htime⟩
      · rw [hni] at hlen
        rw [hexp, htime] at hgone
        exact .inr ⟨hlen, hgone⟩
    · exact .inr hgone
  · rcases h.inst p hp with ⟨hp', hactive, hidle⟩ | hgone
    · rcases h'.inst p hp' with ⟨hp'', hactive', hidle'⟩ | ⟨hoff, hgone⟩
      · exact .inl ⟨hp'', hactive'.trans hactive, hidle'.trans hidle⟩
      · rw [hactive] at hoff
        rw [hexp, hidle] at hgone
        exact .inr ⟨hoff, hgone⟩
    · exact .inr hgone

theorem siDestroy_parms (h : siDestroy s p = some t) : t.parms = s.parms := by
  have hext : ∀ {u v : Dn} {flag : Bool} {o : EvObj}, u.evExtractIf flag o = some v →
      v.parms = u.parms := by
    intro u v flag o h
    unfold Dn.evExtractIf at h
    split_ifs at h
    · obtain ⟨r, -, rfl⟩ := Option.map_eq_some_iff.1 h
      rfl
    · obtain rfl := Option.some.inj h
      rfl
  obtain ⟨u, hu, h⟩ := Option.bind_eq_some_iff.1 h
  obtain ⟨v, hv, h⟩ := Option.bind_eq_some_iff.1 h
  obtain rfl := Option.some.inj h
  have huncount : ((s.inst p).uncount u).parms = u.parms := rfl
  exact (hext hv).trans (huncount.trans (hext hu))

/-- A queue that has expired is deleted, or stays. -/
theorem deleteQueue_drained {q : QPtr} {safe b : Bool}
    (hlen : ((s.inst p).s.queue q).ni.length = 0)
    (hexp : s.expired ((s.inst p).s.queue q).qTime = true)
    (h : s.callback p (fun k t => dnDeleteQueue k.desc t q true safe) = some (b, t)) :
    Drained s t := by
  have hclock := (deleteQueue_aged (X := ∅) h).clock
  obtain ⟨r, hr, rfl⟩ := callback_spec h
  refine ⟨hclock, rfl, fun p' q' hq _ => ?_, fun p' hp' => .inl ⟨hp', ?_⟩⟩
  · rcases eq_or_ne p' p with rfl | hne
    · by_cases hqq : q' = q
      · subst hqq
        exact .inr ⟨hlen, hexp⟩
      rw [s.store_inst]
      change q' ∈ r.live ∧ (r.queue q').ni = _ ∧ (r.queue q').qTime = _ ∨ _
      refine .inl ?_
      rcases dnDeleteQueue_shell hr with ⟨-, hshell⟩ | ⟨-, -, hlive, -, -, hqueue, -⟩
      · rw [shell_live hshell, shell_queue hshell]
        exact ⟨hq, rfl, rfl⟩
      · rw [hlive, hqueue, Function.update_of_ne hqq]
        exact ⟨Finset.mem_erase.2 ⟨hqq, hq⟩, rfl, rfl⟩
    · rw [s.store_inst_of_ne _ r hne]
      exact .inl ⟨hq, rfl, rfl⟩
  · rcases eq_or_ne p' p with rfl | hne
    · rw [s.store_inst]
      exact ⟨rfl, rfl⟩
    · rw [s.store_inst_of_ne _ r hne]
      exact ⟨rfl, rfl⟩

/-- An instance that has expired is destroyed. -/
theorem siDestroy_drained (hactive : (s.inst p).active = false)
    (hexp : s.expired (s.inst p).idleTime = true) (h : siDestroy s p = some t) : Drained s t := by
  obtain ⟨hinst, hrest⟩ := Prod.mk.inj (siDestroy_objs h)
  obtain ⟨hsis, hclock⟩ := Prod.mk.inj hrest
  refine ⟨hclock, siDestroy_parms h, fun p' q hq hne => .inl ?_, fun p' hp' => ?_⟩
  · rcases eq_or_ne p' p with rfl | hpp
    · have hself : t.inst p' = (s.inst p').freed := by rw [hinst, Function.update_self]
      rw [hself]
      change q ∈ (s.inst p').s.live ∧
        (Function.update (s.inst p').s.queue fifoQueue {} q).ni = _ ∧
        (Function.update (s.inst p').s.queue fifoQueue {} q).qTime = _
      rw [Function.update_of_ne hne]
      exact ⟨hq, rfl, rfl⟩
    · rw [hinst, Function.update_of_ne hpp]
      exact ⟨hq, rfl, rfl⟩
  · rcases eq_or_ne p' p with rfl | hpp
    · exact .inr ⟨hactive, hexp⟩
    · rw [hinst, hsis, Function.update_of_ne hpp]
      exact .inl ⟨Finset.mem_erase.2 ⟨hpp, hp'⟩, rfl, rfl⟩

/-- **What the drain deletes** is empty and has expired. -/
theorem doDrain_drained (h : doDrain s = some t) : Drained s t := by
  refine Drains.doDrain ⟨fun h hp => drained_of_objs h hp, fun h h' => h.trans h',
    fun hlen hexp h => deleteQueue_drained hlen hexp h,
    fun hactive hexp h => siDestroy_drained hactive hexp h⟩ h

theorem doDrain_aged (h : doDrain s = some t) : Aged ∅ s t :=
  Drains.doDrain ⟨fun h _ => aged_of_objs h, fun h h' => h.trans h',
    fun _ _ h => deleteQueue_aged h, fun _ _ h => siDestroy_aged h⟩ h

/-! ### The observer -/

/-- A packet has left between `x` and `y`: there are fewer than there were and were accepted. -/
def DnFlow.Left (x y : DnFlow) : Prop :=
  y.length.toNat < x.length.toNat + (y.accepted - x.accepted).toNat

instance (x y : DnFlow) : Decidable (x.Left y) := inferInstanceAs (Decidable (_ < _))

/-- What the observer knows: how far the clock has come, and for each queue and instance when a
packet last left it, or when it was made. An object that is idle has been so since then. -/
structure IdleSince where
  ticks : ℕ
  queue : SiPtr → QPtr → ℕ
  inst : SiPtr → ℕ

/-- The observer at the start. -/
def IdleSince.start (s : Dn) : IdleSince :=
  ⟨s.currTime.toNat, fun _ _ => s.currTime.toNat, fun _ => s.currTime.toNat⟩

/-- The observer after the state has changed from `s` to `t`. -/
def IdleSince.next (g : IdleSince) (s t : Dn) : IdleSince :=
  let now := g.ticks + (t.currTime - s.currTime).toNat
  { ticks := now
    queue := fun p q =>
      if q ∈ (s.inst p).s.live ∧ ¬ ((s.inst p).s.queue q).ni.Left ((t.inst p).s.queue q).ni then
        g.queue p q
      else now
    inst := fun p => if p ∈ s.sis ∧ ¬ (s.inst p).s.ni.Left (t.inst p).s.ni then g.inst p else now }

/-- An operation up to the drain, which only the timer has at its end. -/
def Dn.upToDrain (s : Dn) : DnOp → Option Dn
  | .task env => do
    let s ← taskTime { s with log := [], env := env }
    let (_, s) ← taskLoop (s.evheap.elements + 1) s []
    pure s
  | op => (s.step op).map Prod.snd

/-- The observer of a run. -/
def IdleSince.observe (s : Dn) (op : DnOp) (_ : Dn) (g : IdleSince) : IdleSince :=
  match s.upToDrain op with
  | none => g
  | some u => g.next s u

/-- The time of an object was written after it became idle, if it is `since` that it is idle. -/
def IdleSince.After (g : IdleSince) (since : ℕ) (time : BitVec 64) : Prop :=
  ∃ k, since ≤ k ∧ k ≤ g.ticks ∧ time = BitVec.ofNat 64 k

/-- **The times of the objects agree with the observer**: the time of an empty queue that has held
a packet, and that of an instance outside the event heap, were written when the object was idle. -/
structure Tracked (s : Dn) (g : IdleSince) : Prop where
  clock : s.currTime = BitVec.ofNat 64 g.ticks
  queue : ∀ p, ∀ q ∈ (s.inst p).s.live, ((s.inst p).s.queue q).ni.length = 0 →
    ((s.inst p).s.queue q).Unused ∨ g.After (g.queue p q) ((s.inst p).s.queue q).qTime
  inst : ∀ p ∈ s.sis, (s.inst p).active = false → g.After (g.inst p) (s.inst p).idleTime
  queue_le : ∀ p q, g.queue p q ≤ g.ticks
  inst_le : ∀ p, g.inst p ≤ g.ticks

theorem IdleSince.After.mono {g g' : IdleSince} {i j : ℕ} {x y : BitVec 64} (h : g.After i x)
    (hticks : g.ticks ≤ g'.ticks) (hj : j = i) (hy : y = x) : g'.After j y := by
  obtain ⟨k, hik, hk, hx⟩ := h
  exact ⟨k, hj.le.trans hik, hk.trans hticks, hy.trans hx⟩

/-- Nothing has left a queue that rests. -/
theorem DnQueue.Resting.not_left {x y : DnQueue} (h : x.Resting y) (hlen : y.ni.length = 0) :
    ¬ x.ni.Left y.ni := by
  rw [DnFlow.Left, hlen, h.length, h.accepted, sub_self]
  decide

theorem SchInst.Resting.not_left {x y : SchInst} (h : x.Resting y) : ¬ x.s.ni.Left y.s.ni := by
  rw [DnFlow.Left, h.length, h.accepted, sub_self]
  simp

/-- **A change while the clock stands still**, seen by an observer that knows what rested. -/
theorem Tracked.of_aged {g g' : IdleSince} (h : Tracked s g) (haged : Aged ∅ v t)
    (hinst : v.inst = s.inst) (hsis : v.sis = s.sis) (hclock : t.currTime = BitVec.ofNat 64 g'.ticks)
    (hticks : g.ticks ≤ g'.ticks) (hqueue_le : ∀ p q, g'.queue p q ≤ g'.ticks)
    (hinst_le : ∀ p, g'.inst p ≤ g'.ticks)
    (hqueue : ∀ p, ∀ q ∈ (s.inst p).s.live, ((t.inst p).s.queue q).ni.length = 0 →
      ((s.inst p).s.queue q).Resting ((t.inst p).s.queue q) → g'.queue p q = g.queue p q)
    (hrest : ∀ p ∈ s.sis, (s.inst p).Resting (t.inst p) → g'.inst p = g.inst p) :
    Tracked t g' := by
  refine ⟨hclock, fun p q hq hlen => ?_, fun p hp hactive => ?_, hqueue_le, hinst_le⟩
  · rcases haged.queue p q hq hlen with htime | hnew | ⟨hq', hr⟩
    · exact .inr ⟨g'.ticks, hqueue_le p q, le_rfl, htime.trans hclock⟩
    · exact .inl hnew
    · rw [hinst] at hq' hr
      rcases h.queue p q hq' hr.length with hnew | hafter
      · exact .inl ⟨hr.qTime.trans hnew.1, hr.accepted.trans hnew.2⟩
      · exact .inr (hafter.mono hticks (hqueue p q hq' hlen hr) hr.qTime)
  · rcases haged.inst p hp (Set.notMem_empty p) with (hon | htime) | ⟨hp', hr⟩
    · exact absurd (hon.symm.trans hactive) (by simp)
    · exact ⟨g'.ticks, hinst_le p, le_rfl, htime.trans hclock⟩
    · rw [hsis] at hp'
      rw [hinst] at hr
      exact (h.inst p hp' hr.active).mono hticks (hrest p hp' hr) hr.idleTime

/-- The observer sees an operation. -/
theorem Tracked.next {g : IdleSince} (h : Tracked s g) (haged : Aged ∅ v t) (hinst : v.inst = s.inst)
    (hsis : v.sis = s.sis) : Tracked t (g.next s t) := by
  have hticks : g.ticks ≤ (g.next s t).ticks := Nat.le_add_right _ _
  refine h.of_aged haged hinst hsis ?_ hticks (fun p q => ?_) (fun p => ?_)
    (fun p q hq hlen hr => ?_) fun p hp hr => ?_
  · change t.currTime = BitVec.ofNat 64 (g.ticks + (t.currTime - s.currTime).toNat)
    rw [BitVec.ofNat_add, ← h.clock, BitVec.ofNat_toNat, BitVec.setWidth_eq]
    exact (add_sub_cancel _ _).symm
  · change (if _ then _ else _) ≤ _
    split_ifs
    · exact (h.queue_le p q).trans hticks
    · exact le_rfl
  · change (if _ then _ else _) ≤ _
    split_ifs
    · exact (h.inst_le p).trans hticks
    · exact le_rfl
  · exact if_pos ⟨hq, hr.not_left hlen⟩
  · exact if_pos ⟨hp, hr.not_left⟩

/-- The drain and what comes after it. -/
theorem Tracked.drain {g : IdleSince} (h : Tracked s g) (haged : Aged ∅ s t) : Tracked t g :=
  h.of_aged haged rfl rfl (haged.clock.trans h.clock) le_rfl h.queue_le h.inst_le
    (fun _ _ _ _ _ => rfl) fun _ _ _ => rfl

/-! ### Runs -/

/-- With an arrival, no counter of packets is at its last value. -/
def DnOp.Fits (s : Dn) : DnOp → Prop
  | .io _ _ => s.Roomy
  | _ => True

/-- An operation consists of what comes before the drain, and the drain. -/
theorem step_cases {op : DnOp} {l : List Event} (hfits : op.Fits s)
    (h : s.step op = some (l, t)) :
    ∃ u, s.upToDrain op = some u ∧ (∃ v : Dn, v.inst = s.inst ∧ v.sis = s.sis ∧ Aged ∅ v u) ∧
      (t = u ∨ ∃ w, doDrain u = some w ∧ t.objs = w.objs) := by
  cases op with
  | io a env =>
    have hup : s.upToDrain (.io a env) = some t := congrArg (Option.map Prod.snd) h
    obtain ⟨u, hu, he⟩ := Option.map_eq_some_iff.1 h
    obtain ⟨-, rfl⟩ := Prod.mk.inj he
    obtain ⟨⟨r, w⟩, hw, rfl⟩ := Option.map_eq_some_iff.1 hu
    have haged := dummynetIo_aged (s := { s with log := [], env := env }) hfits hw
    exact ⟨_, hup, ⟨{ s with log := [], env := env }, rfl, rfl, haged⟩, .inl rfl⟩
  | task env =>
    obtain ⟨w, hw, he⟩ := Option.map_eq_some_iff.1 h
    obtain ⟨-, rfl⟩ := Prod.mk.inj he
    obtain ⟨v, hv, h⟩ := Option.bind_eq_some_iff.1 hw
    obtain ⟨⟨q, u⟩, hu, h⟩ := Option.bind_eq_some_iff.1 h
    obtain ⟨x, hx, h⟩ := Option.bind_eq_some_iff.1 h
    obtain rfl := Option.some.inj h
    have htime : v.inst = s.inst ∧ v.sis = s.sis := by
      unfold taskTime at hv
      dsimp only at hv
      split at hv
      · exact absurd hv (by simp)
      · obtain rfl := Option.some.inj hv
        exact ⟨rfl, rfl⟩
    refine ⟨u, ?_, ⟨v, htime.1, htime.2, taskLoop_aged hu⟩, .inr ⟨x, hx, rfl⟩⟩
    change ((taskTime _).bind fun s => (taskLoop (s.evheap.elements + 1) s []).bind
      fun r => some r.2) = some u
    rw [hv, Option.bind_some, hu, Option.bind_some]
  | config os n env =>
    have hup : s.upToDrain (.config os n env) = some t := congrArg (Option.map Prod.snd) h
    obtain ⟨u, hu, he⟩ := Option.map_eq_some_iff.1 h
    obtain ⟨-, rfl⟩ := Prod.mk.inj he
    obtain ⟨⟨r, w⟩, hw, rfl⟩ := Option.map_eq_some_iff.1 hu
    have haged := aged_respected.doConfig (s := { s with log := [], env := env }) hw
    exact ⟨_, hup, ⟨{ s with log := [], env := env }, rfl, rfl, haged⟩, .inl rfl⟩
  | sysctl parms =>
    have hup : s.upToDrain (.sysctl parms) = some t := congrArg (Option.map Prod.snd) h
    obtain ⟨-, rfl⟩ := Prod.mk.inj (Option.some.inj h)
    exact ⟨_, hup, ⟨s, rfl, rfl, aged_of_objs rfl⟩, .inl rfl⟩

/-- The state after `ip_dn_init`, with the clock at `now`. -/
def Dn.initAt (parms : DnParms) (schedlist : List SchedType) (now : BitVec 64) : Dn :=
  { Dn.init parms schedlist with cfg := { currTime := now } }

/-- The runs from a start time, with the observer. -/
def Dn.Watched (parms : DnParms) (schedlist : List SchedType) (now : BitVec 64)
    (l : List (DnOp × List Event)) (s : Dn) (g : IdleSince) : Prop :=
  Runs.Run (Runs.observe Dn.step IdleSince.observe) (fun x op _ => op.Fits x.1)
    (.initAt parms schedlist now, .start (.initAt parms schedlist now)) l (s, g)

/-- A watched run goes on. -/
theorem Dn.Watched.snoc {parms : DnParms} {schedlist : List SchedType} {now : BitVec 64}
    {l : List (DnOp × List Event)} {g : IdleSince} {op : DnOp} {o : List Event}
    (h : Dn.Watched parms schedlist now l s g) (hfits : op.Fits s)
    (ht : s.step op = some (o, t)) :
    Dn.Watched parms schedlist now (l ++ [(op, o)]) t (.observe s op t g) :=
  Runs.Run.snoc h hfits (Runs.observe_eq_some.2 ⟨ht, rfl⟩)

/-- **In every run** the times of the objects agree with the observer. -/
theorem tracked_of_run {parms : DnParms} {schedlist : List SchedType} {now : BitVec 64}
    {l : List (DnOp × List Event)} {g : IdleSince} (h : Dn.Watched parms schedlist now l s g) :
    Tracked s g := by
  refine Runs.Run.invariant (I := fun x : Dn × IdleSince => Tracked x.1 x.2) ?_ h ?_
  · rintro ⟨s, g⟩ op o ⟨t, g'⟩ htr hfits hstep
    obtain ⟨ht, hg⟩ := Runs.observe_eq_some.1 hstep
    dsimp only at ht hg
    obtain ⟨u, hu, ⟨v, hinst, hsis, haged⟩, hend⟩ := step_cases hfits ht
    obtain rfl : g' = g.next s u := by
      rw [hg]
      unfold IdleSince.observe
      rw [hu]
    have hnext : Tracked u (g.next s u) := htr.next haged hinst hsis
    rcases hend with rfl | ⟨w, hw, hobjs⟩
    · exact hnext
    · exact hnext.drain ((doDrain_aged hw).trans (aged_of_objs hobjs))
  · refine ⟨?_, fun p q hq => absurd hq (Finset.notMem_empty q),
      fun p hp => absurd hp (Finset.notMem_empty p), fun _ _ => le_rfl, fun _ => le_rfl⟩
    change now = BitVec.ofNat 64 now.toNat
    rw [BitVec.ofNat_toNat, BitVec.setWidth_eq]

/-! ### The lifetime -/

/-- What the drain deletes between `s` and `t` has been idle for `object_idle_tick` ticks. The
queues are those that `q_new` makes, and of them those in `Q`. -/
structure IdleSince.Outlived (g : IdleSince) (Q : DnQueue → Prop) (s t : Dn) : Prop where
  inst : ∀ p ∈ s.sis, p ∉ t.sis → s.parms.objectIdleTick.toNat ≤ g.ticks - g.inst p
  queue : ∀ p, ∀ q ∈ (s.inst p).s.live, q ∉ (t.inst p).s.live → q ≠ fifoQueue →
    Q ((s.inst p).s.queue q) → s.parms.objectIdleTick.toNat ≤ g.ticks - g.queue p q

/-- **The age of an object** that has expired, while the difference does not wrap around. -/
theorem IdleSince.After.age {g : IdleSince} {since : ℕ} {time : BitVec 64} (h : g.After since time)
    (hclock : s.currTime = BitVec.ofNat 64 g.ticks)
    (htick : s.parms.objectIdleTick.toNat ≤ s.currTime.toNat) (hexp : s.expired time = true) :
    s.parms.objectIdleTick.toNat ≤ g.ticks - since := by
  obtain ⟨k, hsince, hk, rfl⟩ := h
  have hwidth : (s.parms.objectIdleTick.setWidth 64).toNat = s.parms.objectIdleTick.toNat := by
    rw [BitVec.toNat_setWidth]
    exact Nat.mod_eq_of_lt (s.parms.objectIdleTick.isLt.trans (by decide))
  have hsub : (s.currTime - s.parms.objectIdleTick.setWidth 64).toNat =
      s.currTime.toNat - s.parms.objectIdleTick.toNat := by
    rw [BitVec.toNat_sub_of_le, hwidth]
    rw [BitVec.le_def, hwidth]
    exact htick
  have hnow : s.currTime.toNat = g.ticks % 2 ^ 64 := by rw [hclock, BitVec.toNat_ofNat]
  rw [Dn.expired, BitVec.ult, decide_eq_true_eq, hsub, hnow, BitVec.toNat_ofNat] at hexp
  rw [hnow] at htick
  omega

/-- **The lifetime of idle objects.** In every run, what the drain deletes has been idle for
`object_idle_tick` ticks if the clock has come so far that the difference does not wrap around, but
for queues that never held a packet. -/
theorem outlived_of_run {parms : DnParms} {schedlist : List SchedType} {now : BitVec 64}
    {l : List (DnOp × List Event)} {g : IdleSince} {op : DnOp} {o : List Event}
    (h : Dn.Watched parms schedlist now l s g) (hfits : op.Fits s)
    (hu : s.upToDrain op = some u) (ht : s.step op = some (o, t))
    (htick : u.parms.objectIdleTick.toNat ≤ u.currTime.toNat) :
    (g.next s u).Outlived (fun y => ¬ y.Unused) u t := by
  obtain ⟨u', hu', ⟨v, hinst, hsis, haged⟩, hend⟩ := step_cases hfits ht
  obtain rfl := Option.some.inj (hu.symm.trans hu')
  have htr : Tracked u (g.next s u) := (tracked_of_run h).next haged hinst hsis
  rcases hend with rfl | ⟨w, hw, hobjs⟩
  · exact ⟨fun p hp hno => absurd hp hno, fun p q hq hno => absurd hq hno⟩
  obtain ⟨hwinst, hrest⟩ := Prod.mk.inj hobjs
  obtain ⟨hwsis, -⟩ := Prod.mk.inj hrest
  have hdrained := doDrain_drained hw
  refine ⟨fun p hp hno => ?_, fun p q hq hno hne hused => ?_⟩
  · rcases hdrained.inst p hp with ⟨hp', -⟩ | ⟨hactive, hexp⟩
    · exact absurd (hwsis ▸ hp') hno
    · exact (htr.inst p hp hactive).age htr.clock htick hexp
  · rcases hdrained.queue p q hq hne with ⟨hq', -⟩ | ⟨hlen, hexp⟩
    · rw [hwinst] at hno
      exact absurd hq' hno
    · rcases htr.queue p q hq hlen with hnew | hafter
      · exact absurd hnew hused
      · exact hafter.age htr.clock htick hexp

/-! ### One packet -/

/-- The handlers of `do_config` put no packet into a queue. -/
theorem roomy_respected : Respected (fun s t => s.Roomy → t.Roomy) where
  quiet h := (sought_of_objs h).roomy
  trans h h' hs := h' (h hs)
  delete {s t p q safe b} h hs p' q' := by
    obtain ⟨r, hr, rfl⟩ := callback_spec h
    have hkept : ∀ y, (r.queue y).ni.length = ((s.inst p).s.queue y).ni.length ∨
        (r.queue y).ni.length = 0 := by
      intro y
      rcases dnDeleteQueue_shell hr with ⟨-, hshell⟩ | ⟨-, -, -, -, -, hqueue, -⟩
      · rw [shell_queue hshell]
        exact .inl rfl
      · rw [hqueue]
        rcases eq_or_ne y q with rfl | hne
        · rw [Function.update_self]
          exact .inr rfl
        · rw [Function.update_of_ne hne]
          exact .inl rfl
    rcases eq_or_ne p' p with rfl | hne
    · rw [s.store_inst]
      rcases hkept q' with hlen | hlen
      · exact fun h => hs p' q' (hlen.symm.trans h)
      · exact fun h => absurd (hlen.symm.trans h) (by decide)
    · rw [s.store_inst_of_ne _ r hne]
      exact hs p' q'
  destroy {s t p} h hs p' q' := by
    rw [(Prod.mk.inj (siDestroy_objs h)).1]
    rcases eq_or_ne p' p with rfl | hne
    · rw [Function.update_self]
      change (Function.update (s.inst p').s.queue fifoQueue {} q').ni.length ≠ -1
      rcases eq_or_ne q' fifoQueue with rfl | hq
      · rw [Function.update_self]
        decide
      · rw [Function.update_of_ne hq]
        exact hs p' q'
    · rw [Function.update_of_ne hne]
      exact hs p' q'
  credit s p hs p' q' := by
    rcases eq_or_ne p' p with rfl | hne
    · rw [siResetCredit, Dn.setInst_inst]
      exact hs p' q'
    · rw [siResetCredit, Dn.setInst_inst_of_ne s _ hne]
      exact hs p' q'

/-- Scheduler 1 and its pipe. -/
def opConfig : DnOp :=
  .config [.header { len := 12, id := dnApiVersion }, .sch (schedOne 2)] (12 + sizeofSch.toNat) {}

/-- A packet for pipe 1. -/
def opPacket : DnOp := .io { m := ⟨1, 100, Mbuf.lt_100⟩, info := 0x08000001 } {}

/-- The timer, `k` ticks later. -/
def opTask (k : ℕ) : DnOp := .task { tickLast := 1000 * k, drainCycles := 70 }

/-- One packet and the timer: the state before the timer with the observer, the state before the
drain, and the state after it. -/
def onePacket (parms : DnParms) (k : ℕ) : Option (Dn × IdleSince × Dn × Dn) := do
  let start := Dn.initAt parms [.fifo, .wf2qp, .rr] 0
  let (_, s₁) ← start.step opConfig
  let (_, s₂) ← s₁.step opPacket
  let u ← s₂.upToDrain (opTask k)
  let (_, t) ← s₂.step (opTask k)
  pure (s₂, .observe s₁ opPacket s₂ (.observe start opConfig s₁ (.start start)), u, t)

theorem onePacket_spec {parms : DnParms} {k : ℕ} {g : IdleSince}
    (h : onePacket parms k = some (s, g, u, t)) :
    ∃ l o, Dn.Watched parms [.fifo, .wf2qp, .rr] 0 l s g ∧ s.upToDrain (opTask k) = some u ∧
      s.step (opTask k) = some (o, t) := by
  unfold onePacket at h
  obtain ⟨⟨o₁, s₁⟩, h₁, h⟩ := Option.bind_eq_some_iff.1 h
  obtain ⟨⟨o₂, s₂⟩, h₂, h⟩ := Option.bind_eq_some_iff.1 h
  obtain ⟨u', hu, h⟩ := Option.bind_eq_some_iff.1 h
  obtain ⟨⟨o, t'⟩, ht, h⟩ := Option.bind_eq_some_iff.1 h
  obtain ⟨rfl, hg⟩ := Prod.mk.inj (Option.some.inj h)
  obtain ⟨rfl, hrest⟩ := Prod.mk.inj hg
  obtain ⟨rfl, rfl⟩ := Prod.mk.inj hrest
  have hroomy : s₁.Roomy := by
    obtain ⟨v, hv, he⟩ := Option.map_eq_some_iff.1 h₁
    obtain ⟨-, rfl⟩ := Prod.mk.inj he
    obtain ⟨⟨err, w⟩, hw, rfl⟩ := Option.map_eq_some_iff.1 hv
    refine roomy_respected.doConfig hw fun p q => ?_
    change (0 : BitVec 32) ≠ -1
    decide
  have hstart : Dn.Watched parms [.fifo, .wf2qp, .rr] 0 [] _ _ := .nil _
  have hconfig : opConfig.Fits (Dn.initAt parms [.fifo, .wf2qp, .rr] 0) := trivial
  have hpacket : opPacket.Fits s₁ := hroomy
  exact ⟨_, o, (hstart.snoc hconfig h₁).snoc hpacket h₂, hu, ht⟩

/-- With an idle time of one tick, an instance is deleted three ticks after its only packet. -/
theorem outlived_onePacket : ∃ s g u t,
    onePacket { objectIdleTick := 1, expireObject := 0 } 3 = some (s, g, u, t) ∧
      4 ∈ u.sis ∧ 4 ∉ t.sis ∧ (g.next s u).Outlived (fun y => ¬ y.Unused) u t := by
  have hexec : (onePacket { objectIdleTick := 1, expireObject := 0 } 3).any (fun x =>
      decide (4 ∈ x.2.2.1.sis ∧ 4 ∉ x.2.2.2.sis ∧
        x.2.2.1.parms.objectIdleTick.toNat ≤ x.2.2.1.currTime.toNat)) = true := by decide +kernel
  obtain ⟨⟨s, g, u, t⟩, h, hall⟩ := (Option.any_eq_true _ _).1 hexec
  obtain ⟨hmem, hgone, htick⟩ := of_decide_eq_true hall
  obtain ⟨l, o, hrun, hu, ht⟩ := onePacket_spec h
  have hfits : (opTask 3).Fits s := trivial
  exact ⟨s, g, u, t, h, hmem, hgone, outlived_of_run hrun hfits hu ht htick⟩

/-- In the first ticks the difference wraps around: with an idle time of 1000 ticks, the instance is
deleted one tick after its packet. -/
theorem not_outlived : ¬ ∀ (parms : DnParms) (schedlist : List SchedType) (now : BitVec 64)
    (l : List (DnOp × List Event)) (s : Dn) (g : IdleSince) (op : DnOp) (o : List Event) (u t : Dn),
    Dn.Watched parms schedlist now l s g → op.Fits s → s.upToDrain op = some u →
      s.step op = some (o, t) → (g.next s u).Outlived (fun _ => True) u t := by
  intro hall
  have hexec : (onePacket { expireObject := 0 } 1).any (fun x => decide (4 ∈ x.2.2.1.sis ∧
      4 ∉ x.2.2.2.sis ∧ ¬ x.2.2.1.parms.objectIdleTick.toNat ≤
        (x.2.1.next x.1 x.2.2.1).ticks - (x.2.1.next x.1 x.2.2.1).inst 4)) = true := by
    decide +kernel
  obtain ⟨⟨s, g, u, t⟩, h, hx⟩ := (Option.any_eq_true _ _).1 hexec
  obtain ⟨hmem, hgone, hyoung⟩ := of_decide_eq_true hx
  obtain ⟨l, o, hrun, hu, ht⟩ := onePacket_spec h
  have hfits : (opTask 1).Fits s := trivial
  exact hyoung ((hall _ _ 0 l s g _ o u t hrun hfits hu ht).inst 4 hmem hgone)

end Dummynet
