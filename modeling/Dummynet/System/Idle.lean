import Dummynet.System.Lookup
import Dummynet.System.Respected
import Dummynet.System.Serve

/-!
# Idle queues and instances

What the operations do to a queue or instance that is idle: it stays as it is, or it gets the time
of the clock. The exception is a queue that has never held a packet, whose time was never written.

## Main definitions

* `DnFlow.accepted`: how many packets a queue or instance has accepted.
* `Aged`: what an operation leaves of the idle queues and instances, while the clock stands still.
* `Dn.Roomy`: no counter of packets overflows with one more packet.

## Main results

* `aged_respected`, `dummynetIo_aged`, `taskLoop_aged`: what `do_config` does, an arrival, and the
  loop of the timer.
-/

namespace Dummynet

variable {s t u v : Dn} {p : SiPtr} {fp : FskPtr} {sp : SchkPtr} {X Y : Set SiPtr}
  {now : BitVec 64}

/-! ### Queues -/

/-- How many packets have arrived and were not dropped, as the counter of drops counts. -/
def DnFlow.accepted (f : DnFlow) : BitVec 32 := f.totPkts.setWidth 32 - f.drops

/-- The queue was empty, and has not accepted a packet or been written since. -/
structure DnQueue.Resting (x y : DnQueue) : Prop where
  length : x.ni.length = 0
  accepted : y.ni.accepted = x.ni.accepted
  qTime : y.qTime = x.qTime

/-- The time of the queue was never written, and it has never accepted a packet. -/
def DnQueue.Unused (y : DnQueue) : Prop := y.qTime = 0 ∧ y.ni.accepted = 0

/-- The queue `y` that was `x` before is not empty, has just become empty, or has been so. -/
def DnQueue.Aged (now : BitVec 64) (x y : DnQueue) : Prop :=
  y.ni.length = 0 → y.qTime = now ∨ x.Resting y

theorem DnQueue.Aged.refl (now : BitVec 64) (x : DnQueue) : x.Aged now x :=
  fun h => .inr ⟨h, rfl, rfl⟩

/-- The statistics of a packet that is dropped. -/
theorem accepted_drop (tot : BitVec 64) (drops : BitVec 32) :
    (tot + 1).setWidth 32 - (drops + 1) = tot.setWidth 32 - drops := by
  have hadd : (tot + 1).setWidth 32 = tot.setWidth 32 + 1 := by
    rw [BitVec.setWidth_add _ _ (by decide)]
    rfl
  rw [hadd]
  exact add_sub_add_right_eq_sub _ _ _

/-- **Enqueue.** The clock stands still. A packet that is dropped leaves the queue and the instance
as they are; otherwise the queue is longer. -/
theorem dnEnqueue_aged (cfg : DnCfg) (ni : DnFlow) (q : DnQueue) (m : Mbuf) (drop : Bool)
    (r : Draws) :
    ∃ b cfg' ni' q', dnEnqueue cfg ni q m drop r = (b, cfg', ni', q') ∧
      cfg'.currTime = cfg.currTime ∧
      (b = true → ni'.length = ni.length ∧ ni'.accepted = ni.accepted ∧
        q'.ni.length = q.ni.length ∧ q'.ni.accepted = q.ni.accepted ∧ q'.qTime = q.qTime) ∧
      (b = false → q'.ni.length = q.ni.length + 1) := by
  unfold dnEnqueue
  split_ifs with hsi
  · exact ⟨_, _, _, _, rfl, rfl, fun _ => ⟨rfl, rfl, rfl, rfl, rfl⟩, fun h => absurd h (by simp)⟩
  · dsimp only
    split_ifs
    · refine ⟨_, _, _, _, rfl, rfl, fun _ => ⟨rfl, ?_, rfl, ?_, rfl⟩, fun h => absurd h (by simp)⟩
      · exact accepted_drop ni.totPkts ni.drops
      · exact accepted_drop q.ni.totPkts q.ni.drops
    · refine ⟨_, _, _, _, rfl, ?_, fun h => absurd h (by simp), fun _ => rfl⟩
      split_ifs <;> rfl

/-- **Dequeue.** A queue that becomes empty gets the time. -/
theorem dnDequeue_aged (cfg : DnCfg) (ni : DnFlow) (q : DnQueue) :
    q.Aged cfg.currTime (dnDequeue cfg ni q).2.2.2 := by
  unfold dnDequeue
  split
  · exact .refl _ q
  · dsimp only
    split_ifs with hzero
    all_goals
      intro h
      first
        | exact .inl rfl
        | exact absurd h hzero

/-! ### States -/

/-- The instance was idle before, and has not been served or written since. -/
structure SchInst.Resting (x y : SchInst) : Prop where
  active : x.active = false
  idleTime : y.idleTime = x.idleTime
  length : y.s.ni.length = x.s.ni.length
  accepted : y.s.ni.accepted = x.s.ni.accepted

/-- The instance is in the event heap, or has just been served or reset. -/
def SchInst.Stamped (now : BitVec 64) (y : SchInst) : Prop := y.active = true ∨ y.idleTime = now

/-- The clock stands still. A queue that is empty has just become so, has never held a packet, or
has been empty; an instance that is not in the event heap has just been served, or has rested. The
instances in `X` are left out. -/
structure Aged (X : Set SiPtr) (s t : Dn) : Prop where
  clock : t.currTime = s.currTime
  queue : ∀ p, ∀ q ∈ (t.inst p).s.live, ((t.inst p).s.queue q).ni.length = 0 →
    ((t.inst p).s.queue q).qTime = t.currTime ∨ ((t.inst p).s.queue q).Unused ∨
      q ∈ (s.inst p).s.live ∧ ((s.inst p).s.queue q).Resting ((t.inst p).s.queue q)
  inst : ∀ p ∈ t.sis, p ∉ X →
    (t.inst p).Stamped t.currTime ∨ p ∈ s.sis ∧ (s.inst p).Resting (t.inst p)

theorem aged_of_objs (h : t.objs = s.objs) : Aged X s t := by
  obtain ⟨hinst, h⟩ := Prod.mk.inj h
  obtain ⟨hsis, hclock⟩ := Prod.mk.inj h
  refine ⟨hclock, fun p q hq hlen => .inr (.inr ?_), fun p hp _ => ?_⟩
  · rw [hinst] at hq hlen ⊢
    exact ⟨hq, hlen, rfl, rfl⟩
  · rw [hinst]
    cases hactive : (s.inst p).active with
    | true => exact .inl (.inl hactive)
    | false => exact .inr ⟨hsis ▸ hp, hactive, rfl, rfl, rfl⟩

theorem Aged.refl (X : Set SiPtr) (s : Dn) : Aged X s s := aged_of_objs rfl

theorem Aged.trans (h : Aged X s t) (h' : Aged X t u) : Aged X s u := by
  refine ⟨h'.clock.trans h.clock, fun p q hq hlen => ?_, fun p hp hX => ?_⟩
  · rcases h'.queue p q hq hlen with htime | hnew | ⟨hq', hrest⟩
    · exact .inl htime
    · exact .inr (.inl hnew)
    · rcases h.queue p q hq' hrest.length with htime | hnew | ⟨hq, hrest'⟩
      · exact .inl (hrest.qTime.trans (htime.trans h'.clock.symm))
      · exact .inr (.inl ⟨hrest.qTime.trans hnew.1, hrest.accepted.trans hnew.2⟩)
      · exact .inr (.inr ⟨hq, hrest'.length, hrest.accepted.trans hrest'.accepted,
          hrest.qTime.trans hrest'.qTime⟩)
  · rcases h'.inst p hp hX with hstamp | ⟨hp', hrest⟩
    · exact .inl hstamp
    · rcases h.inst p hp' hX with (hactive | hidle) | ⟨hp, hrest'⟩
      · exact absurd (hactive.symm.trans hrest.active) (by simp)
      · exact .inl (.inr (hrest.idleTime.trans (hidle.trans h'.clock.symm)))
      · exact .inr ⟨hp, hrest'.active, hrest.idleTime.trans hrest'.idleTime,
          hrest.length.trans hrest'.length, hrest.accepted.trans hrest'.accepted⟩

theorem Aged.mono (h : Aged X s t) (hXY : X ⊆ Y) : Aged Y s t :=
  ⟨h.clock, h.queue, fun p hp hY => h.inst p hp fun hX => hY (hXY hX)⟩

/-- The instance that was left out has just been served. -/
theorem Aged.close (h : Aged {p} s t) (hp : (t.inst p).Stamped t.currTime) : Aged ∅ s t := by
  refine ⟨h.clock, h.queue, fun p' hp' _ => ?_⟩
  rcases eq_or_ne p' p with rfl | hne
  · exact .inl hp
  · exact h.inst p' hp' hne

theorem Aged.after (h : Aged X u t) (hu : u.objs = s.objs) : Aged X s t := (aged_of_objs hu).trans h

/-- An instance is written. -/
theorem aged_setInst {x : SchInst} (hlive : x.s.live = (s.inst p).s.live)
    (hqueue : x.s.queue = (s.inst p).s.queue)
    (hp : p ∈ X ∨ x.Stamped s.currTime ∨ (s.inst p).Resting x) : Aged X s (s.setInst p x) := by
  refine ⟨rfl, fun p' q hq hlen => ?_, fun p' hp' hX => ?_⟩
  · rcases eq_or_ne p' p with rfl | hne
    · rw [s.setInst_inst, hlive] at hq
      rw [s.setInst_inst, hqueue] at hlen
      rw [s.setInst_inst, hqueue]
      exact .inr (.inr ⟨hq, hlen, rfl, rfl⟩)
    · rw [s.setInst_inst_of_ne x hne] at hq hlen ⊢
      exact .inr (.inr ⟨hq, hlen, rfl, rfl⟩)
  · rcases eq_or_ne p' p with rfl | hne
    · rw [s.setInst_inst]
      rcases hp with hp | hp | hp
      · exact absurd hp hX
      · exact .inl hp
      · exact .inr ⟨hp', hp⟩
    · rw [s.setInst_inst_of_ne x hne]
      exact (Aged.refl X s).inst p' hp' hX

/-- The instance is as it was, as far as its queues and its idle time go. -/
theorem SchInst.resting_or_stamped {x y : SchInst} (hactive : y.active = x.active)
    (hidle : y.idleTime = x.idleTime) (hlen : y.s.ni.length = x.s.ni.length)
    (hacc : y.s.ni.accepted = x.s.ni.accepted) : y.Stamped now ∨ x.Resting y := by
  cases hx : x.active with
  | true => exact .inl (.inl (hactive.trans hx))
  | false => exact .inr ⟨hx, hidle, hlen, hacc⟩

/-! ### Callbacks -/

/-- What a callback leaves of an instance. -/
theorem callback_aged {β : Type} {b : β}
    {f : (k : SchedType) → Inst k.Priv k.Ext → Option (β × Inst k.Priv k.Ext)}
    (h : s.callback p f = some (b, t))
    (hf : ∀ r, f (s.inst p).kind (s.load (s.inst p)) = some (b, r) →
      r.cfg.currTime = s.currTime ∧
      (∀ q ∈ r.live, (r.queue q).Unused ∨ q ∈ (s.inst p).s.live ∧
        ((s.inst p).s.queue q).Aged s.currTime (r.queue q)) ∧
      (p ∈ X ∨ r.ni.length = (s.inst p).s.ni.length ∧
        r.ni.accepted = (s.inst p).s.ni.accepted)) : Aged X s t := by
  obtain ⟨r, hr, rfl⟩ := callback_spec h
  obtain ⟨hclock, hqueue, hni⟩ := hf r hr
  have hnow : (s.store p (s.inst p) r).currTime = s.currTime := hclock
  refine ⟨hnow, fun p' q hq hlen => ?_, fun p' hp' hX => ?_⟩
  · rw [hnow]
    rcases eq_or_ne p' p with rfl | hne
    · rw [s.store_inst] at hq hlen ⊢
      rcases hqueue q hq with hnew | ⟨hlive, haged⟩
      · exact .inr (.inl hnew)
      · exact (haged hlen).imp (fun h => h) fun hrest => .inr ⟨hlive, hrest⟩
    · rw [s.store_inst_of_ne _ r hne] at hq hlen ⊢
      exact .inr (.inr ⟨hq, hlen, rfl, rfl⟩)
  · rw [hnow]
    rcases eq_or_ne p' p with rfl | hne
    · rw [s.store_inst]
      obtain ⟨hlen, hacc⟩ := hni.resolve_left hX
      have hcases : SchInst.Stamped s.currTime { s.inst p' with s := r } ∨
          (s.inst p').Resting { s.inst p' with s := r } :=
        SchInst.resting_or_stamped rfl rfl hlen hacc
      exact hcases.imp (fun h => h) fun h => ⟨hp', h⟩
    · rw [s.store_inst_of_ne _ r hne]
      exact (Aged.refl X s).inst p' hp' hX

/-- What a queue is to a callback. -/
theorem load_aged (s : Dn) (x : SchInst) (q : QPtr) {y : DnQueue}
    (h : ((s.load x).queue q).Aged now y) : (x.s.queue q).Aged now y :=
  fun hlen => (h hlen).imp (fun h => h) fun hrest =>
    ⟨hrest.length, hrest.accepted, hrest.qTime⟩

/-- **The callback `dequeue`.** -/
theorem dequeue_aged {o : Option Mbuf} (h : s.callback p (fun k t => k.desc.dequeue t) = some (o, t)) :
    Aged {p} s t := by
  refine callback_aged h fun r hr => ?_
  rcases SchedType.takes hr with ⟨-, hshell⟩ | ⟨q, m, -, -, hshell⟩
  · refine ⟨congrArg DnCfg.currTime (shell_cfg hshell), fun q hq => .inr ⟨?_, ?_⟩, .inl rfl⟩
    · rw [shell_live hshell] at hq
      exact hq
    · rw [shell_queue hshell]
      exact load_aged s _ q (.refl _ _)
  · refine ⟨?_, fun q' hq => .inr ⟨?_, ?_⟩, .inl rfl⟩
    · rw [shell_cfg hshell]
      exact (dnDequeue_cfg _ _ _).1
    · rw [shell_live hshell] at hq
      exact hq
    · rw [shell_queue hshell]
      refine load_aged s _ q' ?_
      change ((s.load (s.inst p)).queue q').Aged s.currTime
        (Function.update (s.load (s.inst p)).queue q _ q')
      rcases eq_or_ne q' q with rfl | hne
      · rw [Function.update_self]
        exact dnDequeue_aged _ _ _
      · rw [Function.update_of_ne hne]
        exact .refl _ _

/-- The deletion of a queue. -/
theorem deleteQueue_aged {q : QPtr} {safe b : Bool}
    (h : s.callback p (fun k t => dnDeleteQueue k.desc t q true safe) = some (b, t)) :
    Aged X s t := by
  refine callback_aged h fun r hr => ?_
  rcases dnDeleteQueue_shell hr with ⟨-, hshell⟩ | ⟨-, -, hlive, -, hni, hqueue, hcfg⟩
  · refine ⟨congrArg DnCfg.currTime (shell_cfg hshell), fun q' hq => .inr ⟨?_, ?_⟩, .inr ?_⟩
    · rw [shell_live hshell] at hq
      exact hq
    · rw [shell_queue hshell]
      exact load_aged s _ q' (.refl _ _)
    · rw [shell_ni hshell]
      exact ⟨rfl, rfl⟩
  · refine ⟨by rw [hcfg]; rfl, fun q' hq => .inr ?_, .inr (by rw [hni]; exact ⟨rfl, rfl⟩)⟩
    rw [hlive] at hq
    obtain ⟨hne, hq⟩ := Finset.mem_erase.1 hq
    refine ⟨hq, load_aged s _ q' ?_⟩
    rw [hqueue, Function.update_of_ne hne]
    exact .refl _ _

/-! ### Configuration -/

theorem evExtractIf_objs {flag : Bool} {o : EvObj} (h : s.evExtractIf flag o = some t) :
    t.objs = s.objs := by
  unfold Dn.evExtractIf at h
  split_ifs at h
  · obtain ⟨r, -, rfl⟩ := Option.map_eq_some_iff.1 h
    rfl
  · obtain rfl := Option.some.inj h
    rfl

/-- What `si_destroy` leaves: the instance is freed. -/
theorem siDestroy_objs (h : siDestroy s p = some t) :
    t.objs = (Function.update s.inst p (s.inst p).freed, s.sis.erase p, s.currTime) := by
  obtain ⟨u, hu, h⟩ := Option.bind_eq_some_iff.1 h
  obtain ⟨v, hv, h⟩ := Option.bind_eq_some_iff.1 h
  obtain rfl := Option.some.inj h
  have huncount : ((s.inst p).uncount u).objs = u.objs := rfl
  have hobjs : v.objs = s.objs :=
    (evExtractIf_objs hv).trans (huncount.trans (evExtractIf_objs hu))
  obtain ⟨hinst, hrest⟩ := Prod.mk.inj hobjs
  obtain ⟨hsis, hclock⟩ := Prod.mk.inj hrest
  refine Prod.ext ?_ (Prod.ext ?_ hclock)
  · change Function.update v.inst p _ = _
    rw [hinst]
  · change v.sis.erase p = _
    rw [hsis]

/-- An instance is destroyed. Its own queue is zeroed. -/
theorem siDestroy_aged (h : siDestroy s p = some t) : Aged X s t := by
  obtain ⟨hinst, hrest⟩ := Prod.mk.inj (siDestroy_objs h)
  obtain ⟨hsis, hclock⟩ := Prod.mk.inj hrest
  have hself : t.inst p = (s.inst p).freed := by rw [hinst, Function.update_self]
  have hother : ∀ p', p' ≠ p → t.inst p' = s.inst p' :=
    fun p' hne => by rw [hinst, Function.update_of_ne hne]
  refine ⟨hclock, fun p' q hq hlen => ?_, fun p' hp' hX => ?_⟩
  · rcases eq_or_ne p' p with rfl | hne
    · rw [hself] at hq hlen ⊢
      change (Function.update (s.inst p').s.queue fifoQueue {} q).ni.length = 0 at hlen
      change (Function.update (s.inst p').s.queue fifoQueue {} q).qTime = _ ∨
        (Function.update (s.inst p').s.queue fifoQueue {} q).Unused ∨ _ ∧
          DnQueue.Resting _ (Function.update (s.inst p').s.queue fifoQueue {} q)
      rcases eq_or_ne q fifoQueue with rfl | hne
      · rw [Function.update_self]
        exact .inr (.inl ⟨rfl, rfl⟩)
      · rw [Function.update_of_ne hne] at hlen ⊢
        exact .inr (.inr ⟨hq, hlen, rfl, rfl⟩)
    · rw [hother p' hne] at hq hlen ⊢
      exact .inr (.inr ⟨hq, hlen, rfl, rfl⟩)
  · rw [hsis] at hp'
    obtain ⟨hne, hp'⟩ := Finset.mem_erase.1 hp'
    rw [hother p' hne, hclock]
    exact (Aged.refl X s).inst p' hp' hX

/-- The handlers of `do_config` let the idle objects be. -/
theorem aged_respected : Respected (Aged ∅) where
  quiet h := aged_of_objs h
  trans h h' := h.trans h'
  delete h := deleteQueue_aged h
  destroy h := siDestroy_aged h
  credit _ _ := aged_setInst rfl rfl (.inr (.inl (.inr rfl)))

/-! ### Service -/

theorem packetCost_objs (s : Dn) (m : Mbuf) (sp : SchkPtr) : (packetCost s m sp).2.objs = s.objs := by
  obtain ⟨dir, -, h⟩ := packetCost_silent s m sp
  exact Prod.ext h.inst (Prod.ext h.sis (congrArg DnCfg.currTime h.cfg))

theorem moveToDline_aged (s : Dn) (p : SiPtr) (m : Mbuf) : Aged {p} s (moveToDline s p m) :=
  Aged.after (u := (packetCost (s.emit (.dequeued p m)) m (s.inst p).sched).2)
    (aged_setInst rfl rfl (.inl rfl)) (packetCost_objs _ _ _)

theorem serveLoop_aged {n : ℕ} {done b c : Bool} (h : serveLoop n s p done = some (b, c, t)) :
    Aged {p} s t := by
  induction n generalizing s done with
  | zero => exact absurd h (by simp [serveLoop])
  | succ n ih =>
    unfold serveLoop at h
    split_ifs at h
    · obtain ⟨-, he⟩ := Prod.mk.inj (Option.some.inj h)
      obtain ⟨-, rfl⟩ := Prod.mk.inj he
      exact .refl _ s
    · obtain ⟨⟨m, u⟩, hu, h⟩ := Option.bind_eq_some_iff.1 h
      rcases m with _ | m
      · obtain ⟨-, he⟩ := Prod.mk.inj (Option.some.inj h)
        obtain ⟨-, rfl⟩ := Prod.mk.inj he
        exact dequeue_aged hu
      · exact (dequeue_aged hu).trans ((moveToDline_aged u p m).trans (ih h))

/-- `transmit_event` changes the delay line only. -/
theorem transmitEvent_aged (s : Dn) (q : List DlPkt) (p : SiPtr) (now : BitVec 64) :
    Aged X s (transmitEvent s q p now).2 ∧
      ((transmitEvent s q p now).2.inst p).active = (s.inst p).active ∧
      ((transmitEvent s q p now).2.inst p).idleTime = (s.inst p).idleTime := by
  have hset : ∀ {l : List DlPkt} {b : Bool} {t : Dn},
      t.objs = (s.setInst p { s.inst p with dline := l, dlineSubtype := b }).objs →
      Aged X s t ∧ (t.inst p).active = (s.inst p).active ∧
        (t.inst p).idleTime = (s.inst p).idleTime := by
    intro l b t ht
    have hself : t.inst p = { s.inst p with dline := l, dlineSubtype := b } := by
      rw [(Prod.mk.inj ht).1]
      exact s.setInst_inst p _
    have hline : Aged X s (s.setInst p { s.inst p with dline := l, dlineSubtype := b }) :=
      aged_setInst rfl rfl (.inr (SchInst.resting_or_stamped rfl rfl rfl rfl))
    refine ⟨hline.trans (aged_of_objs ht), ?_, ?_⟩
    · rw [hself]
    · rw [hself]
  unfold transmitEvent
  dsimp only
  split <;> exact hset rfl

/-- **`serve_sched`.** The instance is in the event heap afterwards, or has the time. -/
theorem serveSched_aged {q q' : List DlPkt} (h : serveSched s q p s.currTime = some (q', t)) :
    Aged {p} s t ∧ (t.inst p).Stamped t.currTime := by
  obtain ⟨⟨done, last, u⟩, hu, h⟩ := Option.bind_eq_some_iff.1 h
  have hgrant : Aged {p} s (grantCredit s p s.currTime) := aged_setInst rfl rfl (.inl rfl)
  have hsu : Aged {p} s u := hgrant.trans (serveLoop_aged hu)
  have hend : ∀ {v}, Aged {p} u v → (v.inst p).Stamped s.currTime →
      (if (s.inst p).dline.isEmpty && done then some (transmitEvent v q p s.currTime)
        else some (q, v)) = some (q', t) → Aged {p} s t ∧ (t.inst p).Stamped t.currTime := by
    intro v huv hstamp h
    have hsv := hsu.trans huv
    split_ifs at h
    · obtain ⟨-, rfl⟩ := Prod.mk.inj (Option.some.inj h)
      obtain ⟨haged, hactive, hidle⟩ := transmitEvent_aged (X := {p}) v q p s.currTime
      have hclock := (hsv.trans haged).clock
      refine ⟨hsv.trans haged, hstamp.imp hactive.trans fun hv => ?_⟩
      exact hidle.trans (hv.trans hclock.symm)
    · obtain ⟨-, rfl⟩ := Prod.mk.inj (Option.some.inj h)
      refine ⟨hsv, ?_⟩
      rw [hsv.clock]
      exact hstamp
  dsimp only at h
  split at h
  · obtain ⟨v, hv, h⟩ := Option.bind_eq_some_iff.1 h
    have hset : ∀ l, v.objs = (u.setInst p { u.inst p with dline := l, active := true }).objs →
        Aged {p} u v ∧ (v.inst p).Stamped s.currTime := by
      intro l hobjs
      have hline : Aged {p} u (u.setInst p { u.inst p with dline := l, active := true }) :=
        aged_setInst rfl rfl (.inl rfl)
      have hself : v.inst p = { u.inst p with dline := l, active := true } := by
        rw [(Prod.mk.inj hobjs).1]
        exact u.setInst_inst p _
      exact ⟨hline.trans (aged_of_objs hobjs), .inl (by rw [hself])⟩
    unfold reschedule at hv
    dsimp only at hv
    split_ifs at hv
    all_goals
      obtain rfl := Option.some.inj hv
      obtain ⟨huv, hstamp⟩ := hset _ rfl
      exact hend huv hstamp h
  · have hset : Aged {p} u (u.setInst p { u.inst p with idleTime := s.currTime }) :=
      aged_setInst rfl rfl (.inl rfl)
    have hself : (u.setInst p { u.inst p with idleTime := s.currTime }).inst p =
        { u.inst p with idleTime := s.currTime } := u.setInst_inst p _
    obtain ⟨v, hv, h⟩ := Option.bind_eq_some_iff.1 h
    obtain rfl := Option.some.inj hv
    exact hend hset (.inr (by rw [hself])) h

/-- **The loop of `dummynet_task`.** -/
theorem taskLoop_aged {n : ℕ} {q q' : List DlPkt} (h : taskLoop n s q = some (q', t)) :
    Aged ∅ s t := by
  induction n generalizing s q with
  | zero => exact absurd h (by simp [taskLoop])
  | succ n ih =>
    unfold taskLoop at h
    split at h
    · obtain ⟨-, rfl⟩ := Prod.mk.inj (Option.some.inj h)
      exact .refl _ s
    · obtain ⟨u, hu, h⟩ := Option.bind_eq_some_iff.1 h
      obtain ⟨r, -, rfl⟩ := Option.map_eq_some_iff.1 hu
      dsimp only at h
      split at h
      · obtain ⟨⟨q₁, v⟩, hv, h⟩ := Option.bind_eq_some_iff.1 h
        obtain ⟨haged, hstamp⟩ := serveSched_aged hv
        exact Aged.trans (Aged.after (haged.close hstamp) rfl) (ih h)
      · obtain ⟨w, hw, h⟩ := Option.bind_eq_some_iff.1 h
        obtain rfl := Option.some.inj hw
        refine Aged.trans ?_ (ih h)
        exact Aged.after (transmitEvent_aged _ _ _ _).1 rfl

/-! ### The queue for a packet -/

/-- The length of no queue overflows with one more packet. -/
def Dn.Roomy (s : Dn) : Prop := ∀ p q, ((s.inst p).s.queue q).ni.length ≠ -1

/-- What the search for a queue leaves: new queues and instances have no packets. -/
structure Sought (s t : Dn) : Prop where
  aged : Aged ∅ s t
  roomy : s.Roomy → t.Roomy

theorem sought_of_objs (h : t.objs = s.objs) : Sought s t := by
  refine ⟨aged_of_objs h, fun hs p q => ?_⟩
  rw [(Prod.mk.inj h).1]
  exact hs p q

theorem Sought.refl (s : Dn) : Sought s s := sought_of_objs rfl

theorem Sought.trans (h : Sought s t) (h' : Sought t u) : Sought s u :=
  ⟨h.aged.trans h'.aged, fun hs => h'.roomy (h.roomy hs)⟩

/-- What is done afterwards. -/
theorem Sought.then (h : Sought s u) (ht : t.objs = u.objs) : Sought s t :=
  h.trans (sought_of_objs ht)

theorem Quiet.objs (h : Quiet s t) : t.objs = s.objs :=
  Prod.ext h.inst (Prod.ext h.sis (congrArg DnCfg.currTime h.cfg))

/-- The last thing that is written to a new instance is its idle time. -/
theorem siNew_idleTime {key : FlowId} (h : siNew s sp key = some (some p, t)) :
    (t.inst p).idleTime = t.currTime := by
  have hplace : ∀ (u : Dn) (x : SchInst), ((siResetCredit (u.setInst p x) p).inst p).idleTime =
      (siResetCredit (u.setInst p x) p).currTime := by
    intro u x
    rw [siResetCredit, Dn.setInst_inst]
    rfl
  obtain ⟨kind, -, h⟩ := Option.bind_eq_some_iff.1 h
  dsimp only at h
  split at h
  · exact absurd (Prod.mk.inj (Option.some.inj h)).1 (by simp)
  · split at h
    all_goals
      split at h
      · exact absurd (Prod.mk.inj (Option.some.inj h)).1 (by simp)
      · obtain ⟨hp, rfl⟩ := Prod.mk.inj (Option.some.inj h)
        obtain rfl := Option.some.inj hp
        exact hplace _ _

/-- **`si_new`.** -/
theorem siNew_sought {key : FlowId} {o : Option SiPtr} (h : siNew s sp key = some (o, t)) :
    Sought s t := by
  rcases siNew_spec h with ⟨-, hquiet⟩ | ⟨u, p, x, rfl, hu, -, -, hx, -, -, -, rfl⟩
  · exact sought_of_objs hquiet.objs
  have hidle := siNew_idleTime h
  obtain ⟨hinst, hrest⟩ := Prod.mk.inj hu.objs
  obtain ⟨hsis, hclock⟩ := Prod.mk.inj hrest
  have hself : (u.addInst p x).inst p = x := Function.update_self ..
  have hother : ∀ p', p' ≠ p → (u.addInst p x).inst p' = s.inst p' := fun p' hne =>
    (Function.update_of_ne hne ..).trans (congrFun hinst p')
  refine ⟨⟨hclock, fun p' q hq hlen => ?_, fun p' hp' hX => ?_⟩, fun hs p' q => ?_⟩
  · rcases eq_or_ne p' p with rfl | hne
    · rw [hself, hx.live] at hq
      exact absurd hq (Finset.notMem_empty q)
    · rw [hother p' hne] at hq hlen ⊢
      exact .inr (.inr ⟨hq, hlen, rfl, rfl⟩)
  · rcases eq_or_ne p' p with rfl | hne
    · exact .inl (.inr hidle)
    · have hmem : p' ∈ s.sis := hsis ▸ (Finset.mem_insert.1 hp').resolve_left hne
      have hnow : (u.addInst p x).currTime = s.currTime := hclock
      rw [hother p' hne, hnow]
      exact (Aged.refl ∅ s).inst p' hmem hX
  · rcases eq_or_ne p' p with rfl | hne
    · rw [hself, hx.niq]
      decide
    · rw [hother p' hne]
      exact hs p' q

theorem ipdnSiFind_sought {id : FlowId} {o : Option SiPtr} (h : ipdnSiFind s sp id = some (o, t)) :
    Sought s t := by
  unfold ipdnSiFind at h
  dsimp only at h
  split at h
  · split at h
    · split at h
      · obtain ⟨-, rfl⟩ := Prod.mk.inj (Option.some.inj h)
        exact .refl s
      · obtain ⟨⟨o', u⟩, hu, h⟩ := Option.bind_eq_some_iff.1 h
        rcases o' with _ | p
        · obtain ⟨-, rfl⟩ := Prod.mk.inj (Option.some.inj h)
          exact siNew_sought hu
        · obtain ⟨-, rfl⟩ := Prod.mk.inj (Option.some.inj h)
          exact Sought.then (siNew_sought hu) rfl
    · exact absurd h (by simp)
  · split at h
    · obtain ⟨-, rfl⟩ := Prod.mk.inj (Option.some.inj h)
      exact .refl s
    · obtain ⟨⟨o', u⟩, hu, h⟩ := Option.bind_eq_some_iff.1 h
      obtain ⟨-, rfl⟩ := Prod.mk.inj (Option.some.inj h)
      exact Sought.then (siNew_sought hu) rfl
    · exact absurd h (by simp)

/-- The callback `new_queue` on a queue in zeroed memory. -/
theorem newQueue_sought {q : QPtr} {fs : DnFsk} {b : Unit}
    (h : s.callback p (fun k t => (qNew k.desc t q fs).map fun t => ((), t)) = some (b, t)) :
    Sought s t := by
  have hspec : ∀ r, (qNew (s.inst p).kind.desc (s.load (s.inst p)) q fs).map (fun t => ((), t)) =
      some (b, r) → qNew (s.inst p).kind.desc (s.load (s.inst p)) q fs = some r := by
    intro r hr
    obtain ⟨r', hr', he⟩ := Option.map_eq_some_iff.1 hr
    obtain ⟨-, rfl⟩ := Prod.mk.inj he
    exact hr'
  refine ⟨callback_aged h fun r hr => ?_, fun hs p' q' => ?_⟩
  · obtain ⟨-, hlive, -, hni, hqueue, hcfg⟩ := qNew_shell (hspec r hr)
    refine ⟨by rw [hcfg]; rfl, fun q' hq' => ?_, .inr (by rw [hni]; exact ⟨rfl, rfl⟩)⟩
    rw [hqueue]
    rcases eq_or_ne q' q with rfl | hne
    · rw [Function.update_self]
      exact .inl ⟨rfl, sub_self _⟩
    · rw [Function.update_of_ne hne]
      rw [hlive] at hq'
      exact .inr ⟨(Finset.mem_insert.1 hq').resolve_left hne, load_aged s _ q' (.refl _ _)⟩
  · obtain ⟨r, hr, rfl⟩ := callback_spec h
    obtain ⟨-, -, -, -, hqueue, -⟩ := qNew_shell (hspec r hr)
    have hzero : (0 : BitVec 32) ≠ -1 := by decide
    rcases eq_or_ne p' p with rfl | hne
    · rw [s.store_inst]
      change (r.queue q').ni.length ≠ -1
      rw [hqueue]
      rcases eq_or_ne q' q with rfl | hne
      · rw [Function.update_self]
        exact hzero
      · rw [Function.update_of_ne hne]
        exact hs p' q'
    · rw [s.store_inst_of_ne _ r hne]
      exact hs p' q'

/-- A queue gets its flowset and its flow id. -/
theorem sought_named (s : Dn) (p : SiPtr) (f : QPtr → Option FskPtr) (g : QPtr → FlowId) :
    Sought s (s.setInst p { s.inst p with qfs := f, qfid := g }) := by
  refine ⟨aged_setInst rfl rfl (.inr (SchInst.resting_or_stamped rfl rfl rfl rfl)),
    fun hs p' q => ?_⟩
  rcases eq_or_ne p' p with rfl | hne
  · rw [s.setInst_inst]
    exact hs p' q
  · rw [s.setInst_inst_of_ne _ hne]
    exact hs p' q

theorem qNewAt_sought {key : FlowId} {o : Option QAddr} (h : qNewAt s fp key = some (o, t)) :
    Sought s t := by
  obtain ⟨sp, -, h⟩ := Option.bind_eq_some_iff.1 h
  dsimp only at h
  split at h
  · obtain ⟨-, rfl⟩ := Prod.mk.inj (Option.some.inj h)
    exact sought_of_objs rfl
  · obtain ⟨⟨o', u⟩, hu, h⟩ := Option.bind_eq_some_iff.1 h
    have hmalloc : Sought s s.malloc.2 := sought_of_objs rfl
    have hsu := hmalloc.trans (ipdnSiFind_sought hu)
    rcases o' with _ | p
    · obtain ⟨-, rfl⟩ := Prod.mk.inj (Option.some.inj h)
      exact hsu
    · obtain ⟨⟨b, v⟩, hv, h⟩ := Option.bind_eq_some_iff.1 h
      obtain ⟨-, rfl⟩ := Prod.mk.inj (Option.some.inj h)
      have halloc : Sought u u.alloc.2 := sought_of_objs rfl
      exact hsu.trans (halloc.trans ((sought_named u.alloc.2 p _ _).trans (newQueue_sought hv)))

theorem qhtTable_objs {o : Option (DnHt QAddr)} (h : qhtTable s fp = some (o, t)) :
    t.objs = s.objs := by
  unfold qhtTable at h
  dsimp only at h
  split at h
  · obtain ⟨-, rfl⟩ := Prod.mk.inj (Option.some.inj h)
    rfl
  · split at h
    all_goals
      obtain ⟨-, rfl⟩ := Prod.mk.inj (Option.some.inj h)
      rfl
  · exact absurd h (by simp)

theorem ipdnQFind_sought {id : FlowId} {o : Option QAddr} (h : ipdnQFind s fp id = some (o, t)) :
    Sought s t := by
  unfold ipdnQFind at h
  dsimp only at h
  split at h
  · obtain ⟨⟨ht, u⟩, hu, h⟩ := Option.bind_eq_some_iff.1 h
    have hsu := sought_of_objs (qhtTable_objs hu)
    rcases ht with _ | ht
    · obtain ⟨-, rfl⟩ := Prod.mk.inj (Option.some.inj h)
      exact hsu
    · dsimp only at h
      split at h
      · obtain ⟨-, rfl⟩ := Prod.mk.inj (Option.some.inj h)
        exact hsu
      · obtain ⟨⟨o', v⟩, hv, h⟩ := Option.bind_eq_some_iff.1 h
        have hsv := hsu.trans (qNewAt_sought hv)
        rcases o' with _ | a
        · obtain ⟨-, rfl⟩ := Prod.mk.inj (Option.some.inj h)
          exact hsv
        · obtain ⟨-, rfl⟩ := Prod.mk.inj (Option.some.inj h)
          exact Sought.then hsv rfl
  · split at h
    · obtain ⟨-, rfl⟩ := Prod.mk.inj (Option.some.inj h)
      exact .refl s
    · obtain ⟨⟨o', v⟩, hv, h⟩ := Option.bind_eq_some_iff.1 h
      obtain ⟨-, rfl⟩ := Prod.mk.inj (Option.some.inj h)
      exact Sought.then (qNewAt_sought hv) rfl
    · exact absurd h (by simp)

theorem locateQueue_sought {id : FlowId} {o : Option QAddr}
    (h : locateQueue s fp sp id = some (o, t)) : Sought s t := by
  obtain ⟨kind, -, h⟩ := Option.bind_eq_some_iff.1 h
  dsimp only at h
  split at h
  · exact ipdnQFind_sought h
  · obtain ⟨⟨p, u⟩, hu, h⟩ := Option.bind_eq_some_iff.1 h
    obtain ⟨-, rfl⟩ := Prod.mk.inj (Option.some.inj h)
    exact ipdnSiFind_sought hu

/-! ### Arrival -/

/-- **The callback `enqueue`.** A packet that is dropped leaves everything as it is. -/
theorem enqueue_aged {q : QPtr} {m : Mbuf} {r : Draws} {b : Bool} (hs : s.Roomy)
    (h : s.callback p (fun k t => k.desc.enqueue t q m r) = some (b, t)) :
    Aged {p} s t ∧ (b = true → Aged ∅ s t) := by
  suffices haged : ∀ X, (p ∈ X ∨ b = true) → Aged X s t from
    ⟨haged {p} (.inl rfl), fun hb => haged ∅ (.inr hb)⟩
  intro X hX
  refine callback_aged h fun x hx => ?_
  rcases SchedType.gives hx with ⟨hb, hshell⟩ | ⟨q', hb, hshell⟩
  · refine ⟨congrArg DnCfg.currTime (shell_cfg hshell), fun q' hq => .inr ⟨?_, ?_⟩, .inr ?_⟩
    · rw [shell_live hshell] at hq
      exact hq
    · rw [shell_queue hshell]
      exact load_aged s _ q' (.refl _ _)
    · rw [shell_ni hshell]
      exact ⟨rfl, rfl⟩
  · set y := s.load (s.inst p) with hy
    obtain ⟨b', cfg, ni, z, heq, hclock, hdrop, hput⟩ :=
      dnEnqueue_aged y.cfg y.ni (y.queue q') m false r
    have hval : y.enqueue q' m false r =
        (b', { y with cfg := cfg, ni := ni, queue := Function.update y.queue q' z }) := by
      rw [Inst.enqueue, heq]
    rw [hval] at hb hshell
    obtain rfl : b = b' := hb
    refine ⟨?_, fun q₁ hq => .inr ⟨?_, ?_⟩, ?_⟩
    · rw [shell_cfg hshell]
      exact hclock
    · rw [shell_live hshell] at hq
      exact hq
    · rw [shell_queue hshell]
      refine load_aged s _ q₁ ?_
      change (y.queue q₁).Aged s.currTime (Function.update y.queue q' z q₁)
      rcases eq_or_ne q₁ q' with rfl | hne
      · rw [Function.update_self]
        intro hlen
        cases hcase : b with
        | true =>
          obtain ⟨-, -, hl, hacc, htime⟩ := hdrop hcase
          exact .inr ⟨hl.symm.trans hlen, hacc, htime⟩
        | false =>
          -- the queue is one longer, and not empty again
          have hfull : ((s.inst p).s.queue q₁).ni.length = -1 :=
            eq_neg_of_add_eq_zero_left ((hput hcase).symm.trans hlen)
          exact absurd hfull (hs p q₁)
      · rw [Function.update_of_ne hne]
        exact .refl _ _
    · rcases hX with hX | hb
      · exact .inl hX
      · obtain ⟨hl, hacc, -⟩ := hdrop hb
        refine .inr ?_
        rw [shell_ni hshell]
        exact ⟨hl, hacc⟩

theorem dropIt_objs (s : Dn) (o : Option FskPtr) (m : Option Mbuf) :
    (dropIt s o m).2.objs = s.objs := by
  cases m <;> rfl

theorem handBack_objs (s : Dn) (a : IoArgs) (q : List DlPkt) : (handBack s a q).2.objs = s.objs := by
  unfold handBack
  split
  · split_ifs <;> rfl
  · rfl

theorem ioEnqueue_aged {a : IoArgs} {w : QAddr} {r : IoResult} (hs : s.Roomy)
    (h : ioEnqueue s a fp sp w = some (r, t)) : Aged ∅ s t := by
  obtain ⟨⟨drop, u⟩, hu, h⟩ := Option.bind_eq_some_iff.1 h
  obtain ⟨hsu, hdrop⟩ := enqueue_aged hs hu
  dsimp only at h
  split_ifs at h with hd hactive
  · obtain ⟨-, rfl⟩ := Prod.mk.inj (Option.some.inj h)
    exact (hdrop hd).trans (aged_of_objs (dropIt_objs (u.emit (.freed a.m)) (some fp) none))
  · obtain ⟨-, rfl⟩ := Prod.mk.inj (Option.some.inj h)
    exact hsu.close (.inl hactive)
  · obtain ⟨⟨q, v⟩, hv, h⟩ := Option.bind_eq_some_iff.1 h
    obtain ⟨-, rfl⟩ := Prod.mk.inj (Option.some.inj h)
    have hinit : Aged {w.si} u (initialAllowance u w.si sp) := by
      unfold initialAllowance
      dsimp only
      split
      · exact aged_setInst rfl rfl (.inl rfl)
      · exact .refl _ u
    rw [← hinit.clock] at hv
    obtain ⟨haged, hstamp⟩ := serveSched_aged hv
    exact ((hsu.trans (hinit.trans haged)).close hstamp).trans
      (aged_of_objs (handBack_objs v a q))

/-- **`dummynet_io`.** -/
theorem dummynetIo_aged {a : IoArgs} {r : IoResult} (hs : s.Roomy)
    (h : dummynetIo s a = some (r, t)) : Aged ∅ s t := by
  have hdrop : ∀ {u o m}, Aged ∅ s u → some (dropIt u o m) = some (r, t) → Aged ∅ s t := by
    intro u o m hu he
    obtain ⟨-, rfl⟩ := Prod.mk.inj (Option.some.inj he)
    exact hu.trans (aged_of_objs (dropIt_objs u o m))
  have hcount : Sought s { s with ioPkt := s.ioPkt + 1 }.malloc.2 := sought_of_objs rfl
  have htag : Sought s { { s with ioPkt := s.ioPkt + 1 }.malloc.2 with
      tags := Function.update s.tags a.m.ptr ⟨a.dir, s.currTime⟩ } := sought_of_objs rfl
  unfold dummynetIo at h
  dsimp only at h
  split at h
  · exact hdrop hcount.aged h
  · split at h
    · exact hdrop htag.aged h
    · split at h
      · exact hdrop htag.aged h
      · obtain ⟨⟨w, u⟩, hu, h⟩ := Option.bind_eq_some_iff.1 h
        have hsu := htag.trans (locateQueue_sought hu)
        rcases w with _ | w
        · exact hdrop hsu.aged h
        · exact hsu.aged.trans (ioEnqueue_aged (hsu.roomy hs) h)

end Dummynet
