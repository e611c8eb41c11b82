import Dummynet.System.Arrive
import Dummynet.System.Records
import Dummynet.System.Teardown

/-!
# What dummynet holds

The packets in the queues and on the delay lines, counted with their multiplicities. A packet comes
with an arrival and goes from a delay line, or with a queue or an instance that is deleted.

## Main definitions

* `Dn.held`: the packets in dummynet.
* `Balance`: the packets before and after a change.
* `Dn.Honest`, `Spares`: the lengths that the drain looks at are right, and it keeps all packets.

## Main results

* `Move.balance`, `Path.balance`: every change.
* `enqueue_held`: an arrival.
* `callback_delete_spares`, `siDestroy_spares`: the drain discards no packets.
-/

namespace Dummynet

variable {F : Set FskPtr} {S : Set SchkPtr} {L : Option FskPtr} {s t u v : Dn} {p : SiPtr}
  {fp : FskPtr} {sp : SchkPtr} {l l' : List Event} {a : QAddr}

/-! ### One instance -/

section Instances

variable {P X : Type} {y z : Inst P X} {b : Bool} {q : QPtr} {ms : List Mbuf}

/-- The packets in the queues of an instance. -/
def Inst.packets (y : Inst P X) (multiqueue : Bool) : Multiset Mbuf :=
  ∑ q ∈ y.queues multiqueue, (y.mq q : Multiset Mbuf)

/-- The packets of another queue. -/
theorem Inst.packets_congr (hlive : z.live = y.live) (hmq : ∀ q, z.mq q = y.mq q) :
    z.packets b = y.packets b := by
  have hqueues : z.queues b = y.queues b := by rw [Inst.queues, Inst.queues, hlive]
  rw [Inst.packets, Inst.packets, hqueues]
  exact Finset.sum_congr rfl fun q _ => by rw [hmq]

/-- The packets of one queue change. -/
theorem Inst.packets_update (hlive : z.live = y.live) (hq : q ∈ y.queues b)
    (hmq : ∀ q', q' ≠ q → z.mq q' = y.mq q') :
    z.packets b + (y.mq q : Multiset Mbuf) = y.packets b + z.mq q := by
  have hqueues : z.queues b = y.queues b := by rw [Inst.queues, Inst.queues, hlive]
  have hrest : ∑ q' ∈ (y.queues b).erase q, (z.mq q' : Multiset Mbuf) =
      ∑ q' ∈ (y.queues b).erase q, (y.mq q' : Multiset Mbuf) :=
    Finset.sum_congr rfl fun q' hq' => by rw [hmq q' (Finset.ne_of_mem_erase hq')]
  rw [Inst.packets, Inst.packets, hqueues, ← Finset.add_sum_erase _ _ hq,
    ← Finset.add_sum_erase _ (fun q => (y.mq q : Multiset Mbuf)) hq, hrest]
  abel

theorem Moved.packets (h : Moved y z q ms) (hq : q ∈ y.queues b) :
    z.packets b + (y.mq q : Multiset Mbuf) = y.packets b + (ms : Multiset Mbuf) := by
  rw [Inst.packets_update h.live hq fun q' hne => h.mq_of_ne hne, h.mq_self]

/-- An instance without queues has no packets in them. -/
theorem Inst.packets_of_empty (hmq : ∀ q ∈ y.queues b, y.mq q = []) : y.packets b = 0 :=
  Finset.sum_eq_zero fun q hq => by
    rw [hmq q hq]
    rfl

end Instances

/-- The packets of an instance. -/
def SchInst.held (x : SchInst) : Multiset Mbuf :=
  x.s.packets x.kind.multiqueue + (x.dline.map DlPkt.m : Multiset Mbuf)

/-- The packets in dummynet. -/
def Dn.held (s : Dn) : Multiset Mbuf := ∑ p ∈ s.sis, (s.inst p).held

theorem Dn.held_congr (hinst : t.inst = s.inst) (hsis : t.sis = s.sis) : t.held = s.held := by
  rw [Dn.held, Dn.held, hinst, hsis]

/-- One instance changes. -/
theorem Dn.held_update (hp : p ∈ s.sis) (hsis : t.sis = s.sis)
    (hother : ∀ p', p' ≠ p → t.inst p' = s.inst p') :
    t.held + (s.inst p).held = s.held + (t.inst p).held := by
  have hrest : ∑ p' ∈ s.sis.erase p, (t.inst p').held = ∑ p' ∈ s.sis.erase p, (s.inst p').held :=
    Finset.sum_congr rfl fun p' hp' => by rw [hother p' (Finset.ne_of_mem_erase hp')]
  rw [Dn.held, Dn.held, hsis, ← Finset.add_sum_erase _ _ hp,
    ← Finset.add_sum_erase _ (fun p => (s.inst p).held) hp, hrest]
  abel

/-- An instance changes, but not its packets. -/
theorem Dn.held_of_held (hsis : t.sis = s.sis) (hother : ∀ p', p' ≠ p → t.inst p' = s.inst p')
    (hheld : (t.inst p).held = (s.inst p).held) : t.held = s.held := by
  rw [Dn.held, Dn.held, hsis]
  refine Finset.sum_congr rfl fun p' _ => ?_
  rcases eq_or_ne p' p with rfl | hne
  · exact hheld
  · rw [hother p' hne]

/-- A write to an instance that keeps its packets. -/
theorem Dn.held_setInst {x : SchInst} (hx : x.held = (s.inst p).held) :
    (s.setInst p x).held = s.held :=
  held_of_held rfl (fun p' hne => s.setInst_inst_of_ne x hne) (by rw [Dn.setInst_inst, hx])

/-- A callback on an instance, which leaves it as `r`. -/
theorem Dn.held_store {x : SchInst} {r : Inst x.kind.Priv x.kind.Ext} {o n : Multiset Mbuf}
    (hp : p ∈ s.sis) (hx : x.held = (s.inst p).held)
    (hr : r.packets x.kind.multiqueue + o = x.s.packets x.kind.multiqueue + n) :
    (s.store p x r).held + o = s.held + n := by
  have hup := Dn.held_update (t := s.store p x r) hp rfl fun p' hne => s.store_inst_of_ne x r hne
  rw [s.store_inst, ← hx] at hup
  set dl : Multiset Mbuf := (x.dline.map DlPkt.m : Multiset Mbuf) with hdl
  have hup' : (s.store p x r).held + (x.s.packets x.kind.multiqueue + dl) =
      s.held + (r.packets x.kind.multiqueue + dl) := hup
  refine add_right_cancel (b := x.s.packets x.kind.multiqueue + dl) ?_
  calc (s.store p x r).held + o + (x.s.packets x.kind.multiqueue + dl)
      = s.held + (r.packets x.kind.multiqueue + dl) + o := by rw [← hup']; abel
    _ = s.held + (x.s.packets x.kind.multiqueue + n) + dl := by rw [← hr]; abel
    _ = s.held + n + (x.s.packets x.kind.multiqueue + dl) := by abel

/-! ### Packets on their way -/

/-- What `serve_sched` does with a packet. -/
theorem moveToDline_line (s : Dn) (p : SiPtr) (m : Mbuf) :
    (moveToDline s p m).log = s.log ++ [.dequeued p m] ∧ (moveToDline s p m).sis = s.sis ∧
      (∀ p', p' ≠ p → (moveToDline s p m).inst p' = s.inst p') ∧
      ∃ c d, DlPkt.m d = m ∧ (moveToDline s p m).inst p =
        { s.inst p with credit := c, dline := (s.inst p).dline ++ [d] } := by
  obtain ⟨dir, -, hsil⟩ := packetCost_silent (s.emit (.dequeued p m)) m (s.inst p).sched
  set w := (packetCost (s.emit (.dequeued p m)) m (s.inst p).sched).2 with hw
  have hinst : w.inst = s.inst := hsil.inst
  obtain ⟨c, d, hd, heq⟩ : ∃ c d, DlPkt.m d = m ∧ moveToDline s p m = w.setInst p { w.inst p with
      credit := c, dline := (w.inst p).dline ++ [d] } := ⟨_, ⟨m, _⟩, rfl, rfl⟩
  rw [heq]
  refine ⟨hsil.log, hsil.sis, fun p' hne => ?_, c, d, hd, ?_⟩
  · rw [Dn.setInst_inst_of_ne w _ hne, hinst]
  · rw [Dn.setInst_inst, hinst]

/-- What `transmit_event` does. -/
theorem transmitEvent_line {q q' : List DlPkt} {now : BitVec 64}
    (h : transmitEvent s q p now = (q', t)) : ∃ out rest l b,
      q' = q ++ out ∧ t.log = s.log ++ (out.map (.released p) ++ l) ∧ (∀ e ∈ l, e.isKey) ∧
        t.sis = s.sis ∧ t.currTime = s.currTime ∧ (∀ p', p' ≠ p → t.inst p' = s.inst p') ∧
        (s.inst p).dline = out ++ rest ∧
        t.inst p = { s.inst p with dline := rest, dlineSubtype := b } ∧
        ∀ d ∈ out, keyLEQ d.tag.outputTime now := by
  unfold transmitEvent at h
  dsimp only at h
  have hdl := ((s.inst p).dline.takeWhile_append_dropWhile (p := fun d : DlPkt =>
    keyLEQ d.tag.outputTime now)).symm
  have hdue : ∀ d ∈ (s.inst p).dline.takeWhile (fun d : DlPkt => keyLEQ d.tag.outputTime now),
      keyLEQ d.tag.outputTime now = true := fun d hd => by simpa using List.mem_takeWhile_imp hd
  generalize (s.inst p).dline.dropWhile (fun d => keyLEQ d.tag.outputTime now) = rest at h hdl
  generalize (s.inst p).dline.takeWhile (fun d => keyLEQ d.tag.outputTime now) = out at h hdl hdue
  cases rest with
  | nil =>
    obtain ⟨rfl, rfl⟩ := Prod.mk.inj h
    exact ⟨out, [], [], _, rfl, congrArg (s.log ++ ·) (List.append_nil _).symm, by simp, rfl, rfl,
      fun p' hne => s.setInst_inst_of_ne _ hne, hdl, s.setInst_inst p _, hdue⟩
  | cons d rest =>
    obtain ⟨rfl, rfl⟩ := Prod.mk.inj h
    exact ⟨out, d :: rest, [.key d.tag.outputTime], _, rfl, List.append_assoc ..,
      by simp [Event.isKey], rfl, rfl, fun p' hne => s.setInst_inst_of_ne _ hne, hdl, s.setInst_inst p _, hdue⟩

/-! ### Changes -/

/-- From `s` to `t` the packets that leave delay lines go, and `lost`. -/
def Balance (s t : Dn) (lost : Multiset Mbuf) : Prop :=
  ∃ l, t.log = s.log ++ l ∧ freed l = [] ∧
    t.held + ((released l).map DlPkt.m : Multiset Mbuf) + lost = s.held

theorem Balance.refl (s : Dn) : Balance s s 0 :=
  ⟨[], (List.append_nil _).symm, rfl, by simp⟩

theorem Balance.trans {x y : Multiset Mbuf} (h : Balance s t x) (h' : Balance t u y) :
    Balance s u (x + y) := by
  obtain ⟨l, hlog, hl, hheld⟩ := h
  obtain ⟨l', hlog', hl', hheld'⟩ := h'
  refine ⟨l ++ l', by rw [hlog', hlog, List.append_assoc], by rw [freed_append, hl, hl']; rfl, ?_⟩
  rw [released_append, List.map_append, ← Multiset.coe_add, ← hheld, ← hheld']
  abel

/-- Nothing leaves a delay line. -/
theorem Balance.of_aside {x : Multiset Mbuf} (hlog : t.log = s.log ++ l) (hrel : released l = [])
    (hfreed : freed l = []) (hheld : t.held + x = s.held) : Balance s t x :=
  ⟨l, hlog, hfreed, by rw [hrel, ← hheld]; simp⟩

theorem Balance.of_log {x : Multiset Mbuf} (hlog : t.log = s.log) (hheld : t.held + x = s.held) :
    Balance s t x :=
  .of_aside (l := []) (by rw [hlog, List.append_nil]) rfl rfl hheld

theorem Balance.of_held (hlog : t.log = s.log) (hheld : t.held = s.held) : Balance s t 0 :=
  .of_log hlog (by rw [hheld, add_zero])

/-- The deletions, which may take packets along. -/
def lossyMoves : Set MoveKind
  | .delete | .destroy | .purge _ => True
  | _ => False

theorem load_packets (s : Dn) (x : SchInst) :
    (s.load x).packets x.kind.multiqueue = x.s.packets x.kind.multiqueue :=
  Inst.packets_congr rfl fun _ => rfl

/-- A new queue is empty. -/
theorem packets_newQueue {k : SchedType} {y r : Inst k.Priv k.Ext} {q : QPtr} {fs : DnFsk}
    (hq : q ∉ y.live) (hmulti : k.multiqueue = true) (h : qNew k.desc y q fs = some r) :
    r.packets k.multiqueue = y.packets k.multiqueue := by
  obtain ⟨-, hlive, -, -, hqueue, -⟩ := qNew_shell h
  have hmq : ∀ q', q' ≠ q → r.mq q' = y.mq q' := fun q' hne => by
    rw [Inst.mq, hqueue, Function.update_of_ne hne, Inst.mq]
  have hnew : r.mq q = [] := by
    rw [Inst.mq, hqueue, Function.update_self]
  simp only [Inst.packets, Inst.queues, hmulti, if_true, hlive]
  rw [Finset.sum_insert hq, hnew]
  refine (zero_add _).trans (Finset.sum_congr rfl fun q' hq' => ?_)
  rw [hmq q' fun he => hq (he ▸ hq')]

/-- A queue goes with its packets, or stays. -/
theorem packets_deleteQueue {k : SchedType} {y r : Inst k.Priv k.Ext} {q : QPtr} {safe b : Bool}
    (hs : k.Sound y) (hq : q ∈ y.live) (h : dnDeleteQueue k.desc y q true safe = some (b, r)) :
    ∃ out, r.packets k.multiqueue + out = y.packets k.multiqueue ∧ (y.mq q = [] → out = 0) := by
  rcases dnDeleteQueue_shell h with ⟨-, hshell⟩ | ⟨-, -, hlive, -, -, hqueue, -⟩
  · exact ⟨0, by rw [Inst.packets_congr (shell_live hshell) (shell_mq hshell), add_zero],
      fun _ => rfl⟩
  have hmulti : k.multiqueue = true := by
    by_contra hk
    rw [hs.single (by simpa using hk)] at hq
    exact Finset.notMem_empty q hq
  refine ⟨(y.mq q : Multiset Mbuf), ?_, fun hnil => by rw [hnil]; rfl⟩
  simp only [Inst.packets, Inst.queues, hmulti, if_true, hlive]
  rw [← Finset.sum_erase_add _ _ hq]
  refine congrArg (· + _) (Finset.sum_congr rfl fun q' hq' => ?_)
  rw [Inst.mq, hqueue, Function.update_of_ne (Finset.ne_of_mem_erase hq'), Inst.mq]

/-- A new instance has no packets. -/
theorem SchInst.Fresh.held {x : SchInst} (h : x.Fresh p) : x.held = 0 := by
  rw [SchInst.held, Inst.packets_of_empty fun q _ => h.mq q, h.dline]
  rfl

/-- A packet goes to the end of the delay line. -/
theorem SchInst.held_snoc {x : SchInst} {m : Mbuf} {c : BitVec 64} {d : DlPkt} (hd : d.m = m) :
    SchInst.held { x with credit := c, dline := x.dline ++ [d] } = x.held + {m} := by
  rw [SchInst.held, List.map_append, List.map_singleton, hd, ← Multiset.coe_add, ← add_assoc]
  rfl

/-- Packets go from the head of the delay line. -/
theorem SchInst.held_drop {x : SchInst} {out rest : List DlPkt} {b : Bool}
    (h : x.dline = out ++ rest) :
    x.held = SchInst.held { x with dline := rest, dlineSubtype := b } +
      (out.map DlPkt.m : Multiset Mbuf) := by
  rw [SchInst.held, h, List.map_append, ← Multiset.coe_add]
  change _ = x.s.packets x.kind.multiqueue + (rest.map DlPkt.m : Multiset Mbuf) + _
  abel

/-- **Every change** but an arrival and a record. Packets are only lost with deletions. -/
theorem Move.balance {k : MoveKind} (hnote : k ≠ .note) (henq : k ≠ .enqueue) (hm : Move k s t) :
    ∃ lost, Balance s t lost ∧ (k ∉ lossyMoves → lost = 0) := by
  have hkept : Balance s t 0 → ∃ lost, Balance s t lost ∧ (k ∉ lossyMoves → lost = 0) :=
    fun h => ⟨0, h, fun _ => rfl⟩
  cases hm with
  | quiet hq | conf hq => exact hkept (.of_held hq.log (Dn.held_congr hq.inst hq.sis))
  | heap hk hlog hl =>
    exact hkept (.of_aside hlog (released_aside fun e he => (hl e he).aside) (freed_keys hl)
      (by rw [Dn.held_congr hk.inst hk.sis, add_zero]))
  | note => exact absurd rfl hnote
  | clock => exact hkept (.of_held rfl rfl)
  | credit => exact hkept (.of_held rfl (Dn.held_setInst rfl))
  | @new _ p x hp hx =>
    refine hkept (.of_held rfl ?_)
    have hself : (s.addInst p x).inst p = x := s.setInst_inst p x
    rw [Dn.held]
    refine (Finset.sum_insert hp).trans ?_
    rw [hself, hx.held, zero_add]
    refine Finset.sum_congr rfl fun p' hp' => ?_
    rw [show (s.addInst p x).inst p' = s.inst p' from
      s.setInst_inst_of_ne x fun he => hp (he ▸ hp')]
  | @destroy _ _ p hp _ _ hd =>
    obtain ⟨hsis, hother⟩ := siDestroy_other hd
    have hlog : t.log = s.log := by
      obtain ⟨ev, pos, rfl⟩ := siDestroy_spec hd
      rfl
    refine ⟨(s.inst p).held, .of_log hlog ?_, fun h => absurd trivial h⟩
    rw [Dn.held, Dn.held, hsis, ← Finset.sum_erase_add _ _ hp]
    refine congrArg (· + _) (Finset.sum_congr rfl fun p' hp' => ?_)
    rw [hother p' (Finset.ne_of_mem_erase hp')]
  | @newQueue _ _ p q fp id _ hp hq hmulti _ hc =>
    obtain ⟨r, hr, rfl⟩ := callback_setInst_spec hc
    obtain ⟨r', hr', he⟩ := Option.map_eq_some_iff.1 hr
    obtain ⟨-, rfl⟩ := Prod.mk.inj he
    have hpk := packets_newQueue (y := s.load ((s.inst p).name q fp id)) hq hmulti hr'
    have hheld := Dn.held_store (o := 0) (n := 0) (r := r')
      (x := (s.inst p).name q fp id) hp rfl (congrArg (· + 0) (hpk.trans (load_packets s _)))
    rw [add_zero, add_zero] at hheld
    exact hkept (.of_held rfl hheld)
  | delete hp hq hs _ hc | purge hp hq hs hc =>
    obtain ⟨r, hr, rfl⟩ := callback_spec hc
    obtain ⟨out, hout, -⟩ := packets_deleteQueue hs hq hr
    rw [load_packets] at hout
    have hheld := Dn.held_store (o := out) (n := 0) (r := r) hp rfl
      (hout.trans (add_zero _).symm)
    rw [add_zero] at hheld
    exact ⟨out, .of_log rfl hheld, fun h => absurd trivial h⟩
  | enqueue => exact absurd rfl henq
  | @idle _ _ p hp hs hc =>
    obtain ⟨r, hr, rfl⟩ := callback_spec hc
    rcases dequeue_moved hs.ok hr with ⟨-, hshell⟩ | ⟨_, _, _, h, -⟩
    · have hpk := (Inst.packets_congr (b := (s.inst p).kind.multiqueue) (shell_live hshell)
        (shell_mq hshell)).trans (load_packets s _)
      have hheld := Dn.held_store (o := 0) (n := 0) (r := r) hp rfl (congrArg (· + 0) hpk)
      rw [add_zero, add_zero] at hheld
      exact hkept (.of_held rfl hheld)
    · exact absurd h (by simp)
  | @take _ v p m hp hs hc =>
    obtain ⟨r, hr, rfl⟩ := callback_spec hc
    rcases dequeue_moved hs.ok hr with ⟨h, -⟩ | ⟨q, m', rest, h, hq, -, hmoved⟩
    · exact absurd h (by simp)
    obtain rfl := Option.some.inj h
    have hpk := hmoved.packets (b := (s.inst p).kind.multiqueue) (hs.mem_queues hq)
    rw [load_packets, hq, ← Multiset.cons_coe, ← Multiset.singleton_add] at hpk
    have hout : r.packets (s.inst p).kind.multiqueue + {m} =
        (s.inst p).s.packets (s.inst p).kind.multiqueue := by
      refine add_right_cancel (b := (rest : Multiset Mbuf)) ?_
      rw [add_assoc, hpk]
    have hheld := Dn.held_store (o := {m}) (n := 0) (r := r) hp rfl
      (hout.trans (add_zero _).symm)
    rw [add_zero] at hheld
    obtain ⟨hlog, hsis, hother, c, d, hd, hself⟩ := moveToDline_line (s.store p (s.inst p) r) p m
    have hup := Dn.held_update (s := s.store p (s.inst p) r) (p := p) hp hsis hother
    rw [hself, SchInst.held_snoc hd, ← add_assoc, add_right_comm] at hup
    exact hkept (.of_aside hlog rfl rfl (by rw [add_zero, add_right_cancel hup, hheld]))
  | line p active d hd => exact hkept (.of_held rfl (Dn.held_setInst (by
      rw [SchInst.held, SchInst.held, hd])))
  | @transmit _ q p now hp =>
    obtain ⟨q', v, he⟩ : ∃ q' v, transmitEvent s q p now = (q', v) := ⟨_, _, rfl⟩
    obtain ⟨out, rest, l, b, -, hlog, hl, hsis, -, hother, hdl, hself, -⟩ := transmitEvent_line he
    rw [he] at hkept ⊢
    have hup := Dn.held_update hp hsis hother
    refine hkept ⟨_, hlog, by rw [freed_append, freed_released, freed_keys hl]; rfl, ?_⟩
    rw [released_append, released_map, released_aside fun e he => (hl e he).aside, List.append_nil]
    rw [hself, SchInst.held_drop hdl, ← add_assoc, add_right_comm] at hup
    rw [add_zero, add_right_cancel hup]
  | flush => exact hkept (.of_held rfl rfl)

/-- A path of changes that lose no packets. -/
theorem Path.balance {A : Set MoveKind} (hnote : MoveKind.note ∉ A) (henq : MoveKind.enqueue ∉ A)
    (hlossy : ∀ k ∈ A, k ∉ lossyMoves) (h : Path A s t) : Balance s t 0 := by
  refine h.invariant (I := fun t => Balance s t 0) (fun {k u v} hk hm hI => ?_) (.refl s)
  obtain ⟨lost, hb, hl⟩ := hm.balance (fun he => hnote (he ▸ hk)) (fun he => henq (he ▸ hk))
  rw [hl (hlossy k hk)] at hb
  have := hI.trans hb
  rwa [add_zero] at this

/-- A path of any changes but arrivals and records. -/
theorem Path.balance_lossy {A : Set MoveKind} (hnote : MoveKind.note ∉ A)
    (henq : MoveKind.enqueue ∉ A) (h : Path A s t) : ∃ lost, Balance s t lost := by
  refine h.invariant (I := fun t => ∃ lost, Balance s t lost) (fun {k u v} hk hm hI => ?_)
    ⟨0, .refl s⟩
  obtain ⟨lost, hI⟩ := hI
  obtain ⟨lost', hb, -⟩ := hm.balance (fun he => hnote (he ▸ hk)) (fun he => henq (he ▸ hk))
  exact ⟨_, hI.trans hb⟩

/-- **An arrival**: the packet is in a queue, or was dropped. -/
theorem enqueue_held {q : QPtr} {m : Mbuf} {r : Draws} {drop : Bool} (hp : p ∈ s.sis)
    (hq : q ∈ (s.inst p).queues) (hs : (s.inst p).kind.Sound (s.load (s.inst p)))
    (hm : ¬ (s.inst p).s.isHead q m)
    (h : s.callback p (fun k t => k.desc.enqueue t q m r) = some (drop, t)) :
    t.held = s.held + if drop then 0 else {m} := by
  obtain ⟨y, hy, rfl⟩ := callback_spec h
  obtain ⟨q', hq', -, -, hmoved⟩ := enqueue_moved hs.ok hq hm hy
  have hpk := hmoved.packets hq'
  rw [load_packets] at hpk
  have hin : y.packets (s.inst p).kind.multiqueue + 0 =
      (s.inst p).s.packets (s.inst p).kind.multiqueue + if drop then 0 else {m} := by
    refine add_right_cancel (b := ((s.load (s.inst p)).mq q' : Multiset Mbuf)) ?_
    rw [add_zero, hpk, add_assoc]
    cases drop with
    | true => simp
    | false =>
      simp only [Bool.false_eq_true, if_false]
      rw [← Multiset.coe_add, Multiset.coe_singleton, add_comm ({m} : Multiset Mbuf)]
  have hheld := Dn.held_store hp rfl hin
  rwa [add_zero] at hheld

/-! ### The drain -/

/-- The lengths that the drain looks at are 0 only where there are no packets. -/
def Dn.Honest (s : Dn) : Prop :=
  ∀ p ∈ s.sis, (∀ q, ((s.inst p).s.queue q).ni.length = 0 → (s.inst p).s.mq q = []) ∧
    ((s.inst p).kind.multiqueue = false → (s.inst p).s.ni.length = 0 →
      (s.inst p).s.mq fifoQueue = [])

/-- A part of the drain keeps the packets, if the lengths are right. -/
def Spares (s t : Dn) : Prop := s.Honest → t.Honest ∧ t.held = s.held

theorem Spares.refl (s : Dn) : Spares s s := fun h => ⟨h, rfl⟩

theorem Spares.trans (h : Spares s t) (h' : Spares t u) : Spares s u := fun hs => by
  obtain ⟨ht, heq⟩ := h hs
  obtain ⟨hu, heq'⟩ := h' ht
  exact ⟨hu, heq'.trans heq⟩

theorem Spares.of_eq (hinst : t.inst = s.inst) (hsis : t.sis = s.sis) : Spares s t := fun h => by
  refine ⟨fun p hp => ?_, Dn.held_congr hinst hsis⟩
  rw [hinst]
  exact h p (hsis ▸ hp)

/-- **`dn_delete_queue`** on a queue with the length 0. -/
theorem callback_delete_spares {q : QPtr} {safe b : Bool} (hp : p ∈ s.sis)
    (hq : q ∈ (s.inst p).s.live) (hs : (s.inst p).kind.Sound (s.load (s.inst p)))
    (hlen : ((s.inst p).s.queue q).ni.length = 0)
    (h : s.callback p (fun k t => dnDeleteQueue k.desc t q true safe) = some (b, t)) :
    Spares s t := by
  intro hh
  obtain ⟨r, hr, rfl⟩ := callback_spec h
  obtain ⟨out, hout, hnil⟩ := packets_deleteQueue hs hq hr
  rw [load_packets, hnil ((hh p hp).1 q hlen)] at hout
  have hheld := Dn.held_store (o := 0) (n := 0) (r := r) hp rfl (hout.trans (add_zero _).symm)
  rw [add_zero, add_zero] at hheld
  have hmulti : (s.inst p).kind.multiqueue = true := by
    by_contra hk
    have hlive : (s.inst p).s.live = ∅ := hs.single (by simpa using hk)
    rw [hlive] at hq
    exact Finset.notMem_empty q hq
  refine ⟨fun p' hp' => ?_, hheld⟩
  rcases eq_or_ne p' p with rfl | hne
  · rw [s.store_inst]
    refine ⟨fun q' hq' => ?_, fun hk => absurd (hmulti.symm.trans hk) (by simp)⟩
    rcases dnDeleteQueue_shell hr with ⟨-, hshell⟩ | ⟨-, -, -, -, -, hqueue, -⟩
    · change ((r.queue q').ni.length = 0) at hq'
      rw [shell_queue hshell] at hq'
      exact (shell_mq hshell q').trans ((hh p' hp).1 q' hq')
    · change (r.queue q').mq = []
      change ((r.queue q').ni.length = 0) at hq'
      rw [hqueue] at hq' ⊢
      rcases eq_or_ne q' q with rfl | hne
      · rw [Function.update_self]
      · rw [Function.update_of_ne hne] at hq' ⊢
        exact (hh p' hp).1 q' hq'
  · rw [s.store_inst_of_ne _ r hne]
    exact hh p' hp'

/-- **`si_destroy`** on an instance without queues, with an empty delay line. -/
theorem siDestroy_spares (hp : p ∈ s.sis) (hlive : (s.inst p).s.live = ∅)
    (hlen : (s.inst p).s.ni.length = 0) (hdl : (s.inst p).dline = [])
    (h : siDestroy s p = some t) : Spares s t := by
  intro hh
  obtain ⟨hsis, hother⟩ := siDestroy_other h
  have hnone : (s.inst p).held = 0 := by
    rw [SchInst.held, hdl, Inst.packets_of_empty fun q hq => ?_]
    · rfl
    cases hk : (s.inst p).kind.multiqueue with
    | true =>
      rw [Inst.queues, hk, if_pos rfl, hlive] at hq
      exact absurd hq (Finset.notMem_empty q)
    | false =>
      rw [Inst.queues, hk, if_neg (by simp), Finset.mem_singleton] at hq
      rw [hq]
      exact (hh p hp).2 hk hlen
  refine ⟨fun p' hp' => ?_, ?_⟩
  · rw [hsis] at hp'
    rw [hother p' (Finset.ne_of_mem_erase hp')]
    exact hh p' (Finset.mem_of_mem_erase hp')
  · rw [Dn.held, Dn.held, hsis, ← Finset.sum_erase_add _ _ hp, hnone, add_zero]
    refine Finset.sum_congr rfl fun p' hp' => ?_
    rw [hother p' (Finset.ne_of_mem_erase hp')]

end Dummynet
