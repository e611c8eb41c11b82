import Dummynet.System.History

/-!
# How many instances and queues there are

The counters `si_count` and `queue_count`, which the replies to the tool and the drain rely on.

## Main definitions

* `Dn.Counts`: the counters are right.

## Main results

* `Move.counts`, `Path.counts`: every change.
* `counts_of_run`: runs.
-/

namespace Dummynet

variable {s t u : Dn} {p : SiPtr} {M : Prop} {op : DnOp} {l : List Event}

/-- The number of queues that `q_new` made and that still exist. -/
def Dn.queueTotal (s : Dn) : ℤ := ∑ p ∈ s.sis, ((s.inst p).s.live.card : ℤ)

/-- The counters of instances and of queues are right. -/
structure Dn.Counts (s : Dn) : Prop where
  si : s.siCount = s.sis.card
  queue : s.cfg.queueCount = s.queueTotal

/-- No queue comes or goes. -/
theorem Dn.Counts.of_live (h : s.Counts) (hsis : t.sis = s.sis)
    (hlive : ∀ p, (t.inst p).s.live = (s.inst p).s.live) (hsi : t.siCount = s.siCount)
    (hqueue : t.cfg.queueCount = s.cfg.queueCount) : t.Counts := by
  refine ⟨by rw [hsi, hsis, h.si], ?_⟩
  rw [hqueue, h.queue, Dn.queueTotal, Dn.queueTotal, hsis]
  exact Finset.sum_congr rfl fun p _ => by rw [hlive]

/-- A write to an instance that keeps its queues. -/
theorem Dn.Counts.setInst {x : SchInst} (h : s.Counts) (hlive : x.s.live = (s.inst p).s.live) :
    (s.setInst p x).Counts := by
  refine h.of_live rfl (fun p' => ?_) rfl rfl
  rcases eq_or_ne p' p with rfl | hne
  · rw [Dn.setInst_inst, hlive]
  · rw [Dn.setInst_inst_of_ne s x hne]

/-- A callback, which makes `d` queues and counts them. -/
theorem Dn.Counts.store {x : SchInst} {r : Inst x.kind.Priv x.kind.Ext} {d : ℤ} (h : s.Counts)
    (hp : p ∈ s.sis) (hx : x.s.live = (s.inst p).s.live)
    (hlive : (r.live.card : ℤ) = x.s.live.card + d)
    (hqueue : r.cfg.queueCount = s.cfg.queueCount + d) : (s.store p x r).Counts := by
  refine ⟨h.si, ?_⟩
  have hrest : ∑ p' ∈ s.sis.erase p, (((s.store p x r).inst p').s.live.card : ℤ) =
      ∑ p' ∈ s.sis.erase p, ((s.inst p').s.live.card : ℤ) :=
    Finset.sum_congr rfl fun p' hp' => by
      rw [s.store_inst_of_ne x r (Finset.ne_of_mem_erase hp')]
  have hafter : (s.store p x r).queueTotal =
      ∑ p' ∈ s.sis.erase p, ((s.inst p').s.live.card : ℤ) + r.live.card := by
    rw [← hrest]
    refine (Finset.sum_erase_add _ _ hp).symm.trans ?_
    rw [s.store_inst]
  have hbefore := Finset.sum_erase_add s.sis (fun p => ((s.inst p).s.live.card : ℤ)) hp
  have hcount : (s.store p x r).cfg.queueCount = s.cfg.queueCount + d := hqueue
  rw [hcount, hafter, h.queue, Dn.queueTotal, ← hbefore, hlive, hx]
  ring

/-- A callback that leaves the instance as it is, apart from private data. -/
theorem Dn.Counts.of_shell {r : Inst (s.inst p).kind.Priv (s.inst p).kind.Ext} (h : s.Counts)
    (hp : p ∈ s.sis) (hshell : r.shell = (s.load (s.inst p)).shell) :
    (s.store p (s.inst p) r).Counts := by
  refine h.store (d := 0) hp rfl ?_ ?_
  · rw [shell_live hshell, add_zero]
    rfl
  · rw [shell_cfg hshell, add_zero]
    rfl

theorem dnEnqueue_queueCount (cfg : DnCfg) (ni : DnFlow) (q : DnQueue) (m : Mbuf) (drop : Bool)
    (r : Draws) : (dnEnqueue cfg ni q m drop r).2.1.queueCount = cfg.queueCount := by
  unfold dnEnqueue
  split_ifs
  · rfl
  · dsimp only
    split_ifs
    · rfl
    · unfold acceptPkt
      dsimp only
      split_ifs <;> rfl

theorem dnDequeue_queueCount (cfg : DnCfg) (ni : DnFlow) (q : DnQueue) :
    (dnDequeue cfg ni q).2.1.queueCount = cfg.queueCount := by
  unfold dnDequeue
  split
  · rfl
  · dsimp only
    split_ifs <;> rfl

/-- The callback `dequeue`. -/
theorem Dn.Counts.dequeue {o : Option Mbuf} {r : Inst (s.inst p).kind.Priv (s.inst p).kind.Ext}
    (h : s.Counts) (hp : p ∈ s.sis) (hs : (s.inst p).kind.Sound (s.load (s.inst p)))
    (hr : (s.inst p).kind.desc.dequeue (s.load (s.inst p)) = some (o, r)) :
    (s.store p (s.inst p) r).Counts := by
  rcases dequeue_moved hs.ok hr with ⟨-, hshell⟩ | ⟨q, m, rest, -, -, hshell, hmoved⟩
  · exact h.of_shell hp hshell
  · refine h.store (d := 0) hp rfl ?_ ?_
    · rw [hmoved.live, add_zero]
      rfl
    · rw [shell_cfg hshell, add_zero]
      exact dnDequeue_queueCount ..

/-- The deletion of a queue. -/
theorem Dn.Counts.delete {q : QPtr} {safe b : Bool}
    {r : Inst (s.inst p).kind.Priv (s.inst p).kind.Ext} (h : s.Counts) (hp : p ∈ s.sis)
    (hq : q ∈ (s.inst p).s.live)
    (hr : dnDeleteQueue (s.inst p).kind.desc (s.load (s.inst p)) q true safe = some (b, r)) :
    (s.store p (s.inst p) r).Counts := by
  rcases dnDeleteQueue_shell hr with ⟨-, hshell⟩ | ⟨-, -, hlive, -, -, -, hcfg⟩
  · exact h.of_shell hp hshell
  · have hcard : ((s.load (s.inst p)).live.erase q).card + 1 = (s.inst p).s.live.card :=
      Finset.card_erase_add_one hq
    refine h.store (d := -1) hp rfl ?_ ?_
    · rw [hlive]
      omega
    · rw [hcfg]
      exact sub_eq_add_neg ..

/-- **Every change.** -/
theorem Move.counts {k : MoveKind} (hm : Move k s t) (h : s.Counts) : t.Counts := by
  cases hm with
  | quiet hq | conf hq =>
    exact h.of_live hq.sis (fun p => by rw [hq.inst]) hq.siCount (by rw [hq.cfg])
  | heap hk => exact h.of_live hk.sis (fun p => by rw [hk.inst]) hk.siCount (by rw [hk.cfg])
  | note | clock | flush => exact h.of_live rfl (fun _ => rfl) rfl rfl
  | credit | line => exact h.setInst rfl
  | @new _ p x hp hx =>
    have hself : (s.addInst p x).inst p = x := s.setInst_inst p x
    refine ⟨?_, ?_⟩
    · change s.siCount + 1 = ((insert p s.sis).card : ℤ)
      rw [Finset.card_insert_of_notMem hp, h.si]
      rfl
    · change s.cfg.queueCount = ∑ p' ∈ insert p s.sis, _
      rw [Finset.sum_insert hp, hself, hx.live, h.queue, Finset.card_empty]
      refine Eq.trans ?_ (zero_add _).symm
      refine Finset.sum_congr rfl fun p' hp' => ?_
      rw [show (s.addInst p x).inst p' = s.inst p' from
        s.setInst_inst_of_ne x fun he => hp (he ▸ hp')]
  | @destroy _ _ p hp hlive _ hd =>
    obtain ⟨hsis, hother⟩ := siDestroy_other hd
    obtain ⟨hsi, hqueue⟩ : t.siCount = s.siCount - 1 ∧ t.cfg.queueCount = s.cfg.queueCount := by
      obtain ⟨ev, pos, rfl⟩ := siDestroy_spec hd
      exact ⟨rfl, rfl⟩
    refine ⟨?_, ?_⟩
    · have hcard := Finset.card_erase_add_one hp
      rw [hsi, h.si, hsis]
      omega
    · rw [hqueue, h.queue, Dn.queueTotal, Dn.queueTotal, hsis, ← Finset.sum_erase_add _ _ hp, hlive,
        Finset.card_empty]
      refine (add_zero _).trans (Finset.sum_congr rfl fun p' hp' => ?_)
      rw [hother p' (Finset.ne_of_mem_erase hp')]
  | @newQueue _ _ p q fp id _ hp hq _ _ hc =>
    obtain ⟨r, hr, rfl⟩ := callback_setInst_spec hc
    obtain ⟨r', hr', he⟩ := Option.map_eq_some_iff.1 hr
    obtain ⟨-, rfl⟩ := Prod.mk.inj he
    obtain ⟨-, hlive, -, -, -, hcfg⟩ := qNew_shell hr'
    have hcard : (insert q (s.load ((s.inst p).name q fp id)).live).card =
        (s.inst p).s.live.card + 1 := Finset.card_insert_of_notMem hq
    refine h.store (x := (s.inst p).name q fp id) (d := 1) hp rfl ?_ ?_
    · rw [hlive, hcard]
      rfl
    · rw [hcfg]
      rfl
  | delete hp hq _ _ hc | purge hp hq _ hc =>
    obtain ⟨r, hr, rfl⟩ := callback_spec hc
    exact h.delete hp hq hr
  | @enqueue _ _ p q m b hp hq hs hhead hc =>
    obtain ⟨r, hr, rfl⟩ := callback_spec hc
    obtain ⟨q', -, -, hshell, hmoved⟩ := enqueue_moved hs.ok hq hhead hr
    refine h.store (d := 0) hp rfl ?_ ?_
    · rw [hmoved.live, add_zero]
      rfl
    · rw [shell_cfg hshell, add_zero]
      exact dnEnqueue_queueCount s.cfg (s.inst p).s.ni ((s.load (s.inst p)).queue q') m false
        s.env.draws
  | idle hp hs hc =>
    obtain ⟨r, hr, rfl⟩ := callback_spec hc
    exact h.dequeue hp hs hr
  | @take _ v p m hp hs hc =>
    obtain ⟨r, hr, rfl⟩ := callback_spec hc
    have hstore := h.dequeue hp hs hr
    obtain ⟨-, hsis, hother, c, d, -, hself⟩ := moveToDline_line (s.store p (s.inst p) r) p m
    obtain ⟨dir, -, hsil⟩ := packetCost_silent ((s.store p (s.inst p) r).emit (.dequeued p m)) m
      ((s.store p (s.inst p) r).inst p).sched
    refine hstore.of_live hsis (fun p' => ?_) hsil.siCount (congrArg DnCfg.queueCount hsil.cfg)
    rcases eq_or_ne p' p with rfl | hne
    · rw [hself]
    · rw [hother p' hne]
  | @transmit _ q p now _ =>
    obtain ⟨q', w, he⟩ : ∃ q' w, transmitEvent s q p now = (q', w) := ⟨_, _, rfl⟩
    obtain ⟨_, _, _, _, -, -, -, hsis, -, hother, -, hself, -⟩ := transmitEvent_line he
    obtain ⟨hsi, hqueue⟩ : w.siCount = s.siCount ∧ w.cfg.queueCount = s.cfg.queueCount := by
      unfold transmitEvent at he
      dsimp only at he
      split at he
      all_goals
        obtain ⟨-, rfl⟩ := Prod.mk.inj he
        exact ⟨rfl, rfl⟩
    rw [he]
    refine h.of_live hsis (fun p' => ?_) hsi hqueue
    rcases eq_or_ne p' p with rfl | hne
    · rw [hself]
    · rw [hother p' hne]

theorem Path.counts {A : Set MoveKind} (hpath : Path A s t) (h : s.Counts) : t.Counts :=
  hpath.invariant (fun _ hm => hm.counts) h

/-- **One operation.** -/
theorem Dn.WellFormed.step_counts (h : s.WellFormed M) (hc : s.Counts) (hnew : op.NewTo s)
    (hs : s.step op = some (l, t)) : t.Counts := by
  obtain ⟨env, u, v, hfind, -, henter, hlater, -⟩ := h.step_parts hnew hs
  have hstart : Dn.Counts { s with log := [], env := env } := ⟨hc.si, hc.queue⟩
  have hu := hfind.counts hstart
  refine hlater.counts ?_
  rcases henter with rfl | ⟨a, env', p, q, b, -, hp, hq, hsound, hhead, hcall⟩
  · exact hu
  · exact (Move.enqueue hp hq hsound hhead hcall).counts hu

/-- **The counters are right.** Whatever happens, `si_count` is the number of instances, and
`queue_count` the number of queues that `q_new` made and that were not deleted. -/
theorem counts_of_run {parms : DnParms} {schedlist : List SchedType}
    {l : List (DnOp × List Event)}
    (h : Runs.Run Dn.step (fun s op _ => op.NewTo s) (Dn.init parms schedlist) l s) :
    s.siCount = s.sis.card ∧ s.cfg.queueCount = ∑ p ∈ s.sis, ((s.inst p).s.live.card : ℤ) := by
  obtain ⟨-, hsi, hqueue⟩ := h.invariant (I := fun s => s.WellFormed False ∧ s.Counts)
    (fun _ _ _ _ hI hok hst => ⟨hI.1.step hok (fun h => h.elim) hst,
      hI.1.step_counts hI.2 hok hst⟩)
    ⟨wellFormed_init False parms schedlist, rfl, rfl⟩
  exact ⟨hsi, hqueue⟩

/-- With an instance. -/
theorem counts_threeOps : ∃ s : Dn, 4 ∈ s.sis ∧ s.siCount = s.sis.card ∧
    s.cfg.queueCount = ∑ p ∈ s.sis, ((s.inst p).s.live.card : ℤ) := by
  obtain ⟨l, u, hl, hu, -⟩ := threeOps_run
  exact ⟨u, hu, counts_of_run (hl.mono fun _ _ _ hok => hok.1)⟩

end Dummynet
