import Dummynet.System.Arrive
import Dummynet.System.Collect
import Dummynet.System.Commands
import Dummynet.System.Events
import Dummynet.System.Lifetime
import Dummynet.System.Links

/-!
# Dummynet between two operations

Whatever arrives, is configured or deleted, and whenever the timer runs: between two operations the
flowsets, schedulers, instances and queues refer to each other as they should, and the event heap
contains the instances and delay lines that wait for an event, at the places that they name.

## Main definitions

* `DnOp.NewTo`: the packet of an arrival is not in dummynet.
* `DnOp.Ample`: the allocations of an operation succeed.
* `Dn.WellFormed`: the graph of the objects and the event heap.
* `Dn.Listed`, `Dn.Scheduled`: nothing stray is in the event heap, and nothing is forgotten.

## Main results

* `Dn.WellFormed.step`: every operation keeps the state well-formed.
* `graph_of_run`, `listed_of_run`, `scheduled_of_run`: runs.
-/

namespace Dummynet

variable {F : Set FskPtr} {S : Set SchkPtr} {L : Option FskPtr} {s t u : Dn} {p : SiPtr}
  {fp : FskPtr} {sp : SchkPtr} {M : Prop} {op : DnOp}

/-! ### The events that are due -/

/-- The extraction of an event. -/
theorem evExtract_goes {o : Option EvObj} (hg : Graph F S L s) (h : s.evExtract o = some t) :
    Goes serveMoves F S L s t ∧ Kept s t ∧ t.sis = s.sis := by
  obtain ⟨ev, pos, rfl⟩ := evExtract_spec h
  have hmove : Move .heap s { s with evheap := ev, oidId := pos } :=
    .heap (l := []) ⟨rfl, rfl, rfl, rfl, rfl, id⟩ (List.append_nil _).symm (by simp)
  exact ⟨⟨hg.of_eq rfl rfl rfl rfl rfl le_rfl, .single hmove (by simp [serveMoves])⟩,
    .of_eq rfl rfl rfl rfl, rfl⟩

/-- The object of the first event exists. -/
theorem Events.top_mem {X : Set EvObj} (h : Events M X s) (hne : s.evheap.elements ≠ 0) :
    s.evheap.topObject.ptr ∈ s.sis :=
  (h.listed _ ⟨_, DnHeap.has_place (Nat.pos_of_ne_zero hne)⟩).1

/-- A relation between the states and lists before and after a part of `dummynet_task`. -/
structure Handles (R : Dn → List DlPkt → Dn → List DlPkt → Prop) : Prop where
  refl : ∀ s q, R s q s q
  trans : ∀ {s t u q q' q''}, R s q t q' → R t q' u q'' → R s q u q''
  extract : ∀ {s t q}, s.evExtract none = some t → R s q t q
  serve : ∀ {F S L s t q q' p}, Graph F S L s → p ∈ s.sis →
    serveSched s q p s.currTime = some (q', t) → R s q t q'
  transmit : ∀ {s t q q' p}, transmitEvent s q p s.currTime = (q', t) → R s q t q'

/-- **The loop of `dummynet_task`.** An event is taken from the heap and handled. -/
theorem taskLoop_spec {R : Dn → List DlPkt → Dn → List DlPkt → Prop} (hR : Handles R) {n : ℕ}
    {q q' : List DlPkt} (hg : Graph F S L s) (hE : Events M ∅ s)
    (h : taskLoop n s q = some (q', t)) :
    Goes serveMoves F S L s t ∧ Kept s t ∧ Events M ∅ t ∧ R s q t q' := by
  induction n generalizing s q with
  | zero => exact absurd h (by simp [taskLoop])
  | succ n ih =>
    unfold taskLoop at h
    split_ifs at h with hdone
    · obtain ⟨rfl, rfl⟩ := Prod.mk.inj (Option.some.inj h)
      exact ⟨.refl hg, .refl s, hE, hR.refl s q⟩
    obtain ⟨u, hu, h⟩ := Option.bind_eq_some_iff.1 h
    have hne : s.evheap.elements ≠ 0 := fun he => hdone (.inl he)
    have hptr := hE.top_mem hne
    have hEu := hE.extractTop (Nat.pos_of_ne_zero hne) hu
    obtain ⟨hgu, hku, hsis⟩ := evExtract_goes hg hu
    cases htop : s.evheap.topObject with
    | si p =>
      rw [htop] at hptr hEu
      simp only [htop] at h
      obtain ⟨⟨q₁, v⟩, hv, h⟩ := Option.bind_eq_some_iff.1 h
      have hp : p ∈ u.sis := by
        rw [hsis]
        exact hptr
      obtain ⟨hgv, hkv, -⟩ := serveSched_spec hgu.graph hp hv
      obtain ⟨hgt, hkt, hEt, hRt⟩ := ih hgv.graph (hEu.serveSched hgu.graph hp hv) h
      exact ⟨(hgu.trans hgv).trans hgt, (hku.trans hkv).trans hkt, hEt,
        hR.trans (hR.trans (hR.extract hu) (hR.serve hgu.graph hp hv)) hRt⟩
    | dline p =>
      rw [htop] at hptr hEu
      simp only [htop] at h
      obtain ⟨⟨q₁, v⟩, hv, h⟩ := Option.bind_eq_some_iff.1 h
      have hp : p ∈ u.sis := by
        rw [hsis]
        exact hptr
      have hv := Option.some.inj hv
      obtain ⟨hgv, hkv, -, -⟩ := transmitEvent_goes (A := serveMoves) hgu.graph
        (by simp [serveMoves]) hp hv
      obtain ⟨hgt, hkt, hEt, hRt⟩ := ih hgv.graph
        (hEu.transmitEvent (Set.notMem_empty _) hp hv) h
      exact ⟨(hgu.trans hgv).trans hgt, (hku.trans hkv).trans hkt, hEt,
        hR.trans (hR.trans (hR.extract hu) (hR.transmit hv)) hRt⟩

/-! ### The operations -/

/-- The packet of an arrival is not in dummynet. -/
def DnOp.NewTo (s : Dn) : DnOp → Prop
  | .io a _ => ¬ s.Holds a.m.ptr
  | _ => True

/-- The allocations of an operation succeed. -/
def DnOp.Ample : DnOp → Prop
  | .io _ env | .task env | .config _ _ env => ∀ n, env.malloc n = true
  | .sysctl _ => True

/-- The operations that configure nothing. -/
def DnOp.Traffic : DnOp → Prop
  | .config _ _ _ => False
  | _ => True

/-- The objects refer to each other as they should, and the event heap is consistent. If `M` holds,
no allocation has failed. -/
structure Dn.WellFormed (M : Prop) (s : Dn) : Prop where
  shape : ∃ F S, Graph F S none s ∧ Hashed S s
  events : Events M ∅ s

/-- Another environment. -/
theorem Events.withEnv {X : Set EvObj} {env : Env} {l : List Event} (h : Events M X s)
    (hm : M → ∀ n, env.malloc n = true) : Events M X { s with log := l, env := env } :=
  ⟨h.placed, h.hole, h.listed, h.absent, h.line, h.due, h.full, hm⟩

/-- Whatever the allocations do from now on. -/
theorem Events.forget {X : Set EvObj} {env : Env} {l : List Event} (h : Events M X s) :
    Events False X { s with log := l, env := env } :=
  ⟨h.placed, h.hole, h.listed, h.absent, h.line, h.due, fun h => h.elim, fun h => h.elim⟩

/-- Another environment. -/
theorem Graph.withEnv {env : Env} {l : List Event} (h : Graph F S L s) :
    Graph F S L { s with log := l, env := env } :=
  h.of_eq rfl rfl rfl rfl rfl le_rfl

/-- **The parts of `dummynet_io` after the queue was found**, with their graphs: the scheduler drops
the packet, or takes it, and an instance that is not active is served. -/
theorem ioEnqueue_parts {a : IoArgs} {w : QAddr} {r : IoResult} (hg : Graph F S none s)
    (hp : w.si ∈ s.sis) (hq : w.q ∈ (s.inst w.si).queues) (hm : ¬ (s.inst w.si).s.isHead w.q a.m)
    (h : ioEnqueue s a fp sp w = some (r, t)) : ∃ drop u,
      s.callback w.si (fun k t => k.desc.enqueue t w.q a.m s.env.draws) = some (drop, u) ∧
      Graph F S none u ∧ u.sis = s.sis ∧ u.log = s.log ∧
      (drop = true ∧ dropIt (u.emit (.freed a.m)) (some fp) none = (r, t) ∨
        drop = false ∧ t = u ∨
        drop = false ∧ (u.inst w.si).active = false ∧ ∃ i q v, i = initialAllowance u w.si sp ∧
          Goes {.credit} F S none u i ∧ w.si ∈ i.sis ∧
          serveSched i [] w.si i.currTime = some (q, v) ∧ Goes serveMoves F S none i v ∧
          handBack v a q = (r, t)) := by
  obtain ⟨drop, u, hcall, hcases⟩ := ioEnqueue_spec h
  have hgu := hg.enqueue hp hq hm hcall
  obtain ⟨hsis, hlog⟩ : u.sis = s.sis ∧ u.log = s.log := by
    obtain ⟨x, -, rfl⟩ := callback_spec hcall
    exact ⟨rfl, rfl⟩
  refine ⟨drop, u, hcall, hgu, hsis, hlog, ?_⟩
  rcases hcases with ⟨hd, hdrop⟩ | ⟨hd, -, -, rfl⟩ | ⟨hd, hidle, q, v, hserve, hback⟩
  · exact .inl ⟨hd, hdrop⟩
  · exact .inr (.inl ⟨hd, rfl⟩)
  · obtain ⟨hgi, -, hsi⟩ := initialAllowance_goes (A := {.credit}) (p := w.si) sp hgu rfl
    have hpi : w.si ∈ (initialAllowance u w.si sp).sis := by
      rw [hsi, hsis]
      exact hp
    obtain ⟨hgv, -⟩ := serveSched_spec hgi.graph hpi hserve
    exact .inr (.inr ⟨hd, hidle, _, q, v, rfl, hgi, hpi, hserve, hgv, hback⟩)

/-- **An arrival.** -/
theorem Events.dummynetIo {a : IoArgs} {r : IoResult} (h : Events M ∅ s) (hg : Graph F S none s)
    (hm : ¬ s.Holds a.m.ptr) (hio : dummynetIo s a = some (r, t)) : Events M ∅ t := by
  have hnote : ∀ {u v : Dn}, Goes {.note} F S none u v → Events M ∅ u → Events M ∅ v :=
    fun hgo hE => hgo.path.events (by rintro _ rfl; trivial) hE
  obtain ⟨u, hgu, -, -, -, -, -, hcases⟩ := dummynetIo_spec hg hio
  have hEu := hgu.path.events (by rintro _ (rfl | rfl | rfl | rfl) <;> trivial) h
  rcases hcases with ⟨o, hdrop⟩ | ⟨fp, sp, w, -, -, hp, hq, -, -, henq⟩
  · exact hnote (dropIt_goes hgu.graph rfl hdrop) hEu
  have hqueued := hgu.path.not_queued fun p hp q hin => hm ⟨p, hp, .inl ⟨q, hin⟩⟩
  obtain ⟨drop, v, hcall, hgv, -, -, hcases⟩ :=
    ioEnqueue_parts hgu.graph hp hq (not_isHead (hqueued _ hp _)) henq
  have hEv := hEu.callback hcall
  rcases hcases with ⟨-, hdrop⟩ | ⟨-, rfl⟩ | ⟨-, hidle, i, q, x, rfl, hgi, hpi, hserve, hgx, hback⟩
  · have hgo := note_goes (A := {.note}) hgv rfl v.ioPkt v.cfg.ioPktDrop v.ioPktFast
      (l := [.freed a.m]) (by simp [Event.isNote])
    exact hnote (hgo.trans (dropIt_goes hgo.graph rfl hdrop)) hEv
  · exact hEv
  -- an instance without its flag is not in the heap
  · have hEi := hgi.path.events (by rintro _ rfl; trivial) hEv
    have hact : (initialAllowance v w.si sp).flag (.si w.si) = false := by
      unfold initialAllowance
      dsimp only
      split
      · rw [Dn.flag, Dn.setInst_inst]
        exact hidle
      · exact hidle
    have hout : ¬ (initialAllowance v w.si sp).evheap.Mem (.si w.si) := fun ho =>
      absurd ((hEi.listed _ ho).2.symm.trans hact) (by simp)
    exact hnote (handBack_goes hgx.graph rfl hback)
      ((hEi.weaken hout).serveSched hgi.graph hpi hserve)

/-- **The timer**: the clock, the events that are due, the drain, and the packets that leave. -/
theorem dummynetTask_spec {R : Dn → List DlPkt → Dn → List DlPkt → Prop} (hR : Handles R)
    (hg : Graph F S L s) (hE : Events M ∅ s) (h : dummynetTask s = some t) :
    ∃ u v w q, Goes {.clock} F S L s u ∧ Kept s u ∧ u.log = s.log ∧ R u [] v q ∧
      Goes serveMoves F S L u v ∧ Kept u v ∧ Events M ∅ v ∧
      doDrain v = some w ∧ Collected F S L v w ∧ t = dummynetSend w q := by
  obtain ⟨u, hu, h⟩ := Option.bind_eq_some_iff.1 h
  obtain ⟨⟨q, v⟩, hv, h⟩ := Option.bind_eq_some_iff.1 h
  obtain ⟨w, hw, h⟩ := Option.bind_eq_some_iff.1 h
  obtain rfl := Option.some.inj h
  obtain ⟨now, sum, rfl⟩ : ∃ now sum,
      u = { s with cfg := { s.cfg with currTime := now }, tickDeltaSum := sum } := by
    unfold taskTime at hu
    dsimp only at hu
    split at hu
    · exact absurd hu (by simp)
    · exact ⟨_, _, (Option.some.inj hu).symm⟩
  have hgu : Goes {.clock} F S L s { s with
      cfg := { s.cfg with currTime := now }, tickDeltaSum := sum } :=
    ⟨hg.of_eq rfl rfl rfl rfl rfl le_rfl, .single (.clock now sum) rfl⟩
  have hEu := hgu.path.events (by rintro _ rfl; trivial) hE
  obtain ⟨hgv, hkv, hEv, hRv⟩ := taskLoop_spec hR hgu.graph hEu hv
  exact ⟨_, v, w, q, hgu, .of_eq rfl rfl rfl rfl, rfl, hRv, hgv, hkv, hEv, hw,
    doDrain_collected hgv.graph hw, rfl⟩

/-- The relation that says nothing. -/
theorem handles_true : Handles fun _ _ _ _ => True :=
  ⟨fun _ _ => trivial, fun _ _ => trivial, fun _ => trivial, fun _ _ _ => trivial, fun _ => trivial⟩

theorem Dn.WellFormed.dummynetTask (h : s.WellFormed M) (ht : dummynetTask s = some t) :
    t.WellFormed M := by
  obtain ⟨⟨F, S, hg, hh⟩, hE⟩ := h
  obtain ⟨u, v, w, q, -, hku, -, -, -, hkv, hEv, -, hcol, rfl⟩ :=
    dummynetTask_spec handles_true hg hE ht
  have hEw := hcol.path.events (fun k hk => by cases k <;> first | exact absurd hk id | trivial) hEv
  have hgt := dummynetSend_goes (A := {.note}) hcol.graph rfl q
  have hhw := (hku.trans (hkv.trans hcol.toKept)).toSameNumbers.hashed hh
  refine ⟨⟨F, S, hgt.graph, hhw.congr (fun _ => rfl) (fun _ => rfl) (fun _ => rfl) rfl⟩, ?_⟩
  exact hgt.path.events (by rintro _ rfl; trivial) hEw

/-- **A configuration message.** -/
theorem Dn.WellFormed.doConfig {os : List DnObj} {l err : ℕ} (h : s.WellFormed M)
    (hc : doConfig s os l = some (err, t)) : t.WellFormed M := by
  obtain ⟨⟨F, S, hg, hh⟩, hE⟩ := h
  obtain ⟨F', S', hb, hh'⟩ := doConfig_becomes (c := False) hg hh (fun hc => hc.elim) hc
  refine ⟨⟨F', S', hb.graph, hh'⟩, ?_⟩
  have hstages := hb.stages
  clear hc hb hh'
  induction hstages with
  | refl => exact hE
  | tail _ hstage ih =>
    obtain ⟨K, hpath, -⟩ := hstage
    exact hpath.events (fun k hk => by cases k <;> first | exact absurd hk id | trivial) ih

/-- **Every operation** keeps the state well-formed, if the packet of an arrival is a new one. -/
theorem Dn.WellFormed.step {l : List Event} (h : s.WellFormed M) (hnew : op.NewTo s)
    (hm : M → op.Ample) (hs : s.step op = some (l, t)) : t.WellFormed M := by
  obtain ⟨v, hv, he⟩ := Option.map_eq_some_iff.1 hs
  obtain ⟨-, rfl⟩ := Prod.mk.inj he
  have hstart : ∀ {env : Env}, (M → ∀ n, env.malloc n = true) →
      Dn.WellFormed M { s with log := [], env := env } := fun henv => by
    obtain ⟨⟨F, S, hg, hh⟩, hE⟩ := h
    exact ⟨⟨F, S, hg.withEnv, hh.congr (fun _ => rfl) (fun _ => rfl) (fun _ => rfl) rfl⟩,
      hE.withEnv henv⟩
  cases op with
  | io a env =>
    obtain ⟨⟨r, w⟩, hw, rfl⟩ := Option.map_eq_some_iff.1 hv
    obtain ⟨⟨F, S, hg, hh⟩, hE⟩ := hstart hm
    obtain ⟨hgo, hk⟩ := dummynetIo_goes hg hnew hw
    exact ⟨⟨F, S, hgo.graph, hk.toSameNumbers.hashed hh⟩, hE.dummynetIo hg hnew hw⟩
  | task env => exact (hstart hm).dummynetTask hv
  | config os n env =>
    obtain ⟨⟨r, w⟩, hw, rfl⟩ := Option.map_eq_some_iff.1 hv
    exact (hstart hm).doConfig hw
  | sysctl parms =>
    obtain rfl := Option.some.inj hv
    obtain ⟨⟨F, S, hg, hh⟩, hE⟩ := hstart h.events.malloc
    exact ⟨⟨F, S, hg.of_eq rfl rfl rfl rfl rfl le_rfl,
      hh.congr (fun _ => rfl) (fun _ => rfl) (fun _ => rfl) rfl⟩,
      hE.congr rfl rfl rfl (fun o => by cases o <;> rfl) (fun _ => rfl) fun h => h⟩

/-! ### Runs -/

theorem wellFormed_init (M : Prop) (parms : DnParms) (schedlist : List SchedType) :
    (Dn.init parms schedlist).WellFormed M := by
  have hno : ∀ p : SiPtr, p ∉ (Dn.init parms schedlist).sis := fun p => Finset.notMem_empty p
  refine ⟨⟨∅, ∅, ⟨⟨Nat.one_pos, ?_, ?_, ?_, ?_⟩, ⟨?_, ?_⟩, ⟨?_, ?_, ?_, ?_, ?_, ?_⟩,
    ⟨?_, ?_, ?_, ?_, ?_⟩⟩, ⟨⟨?_, ?_, ?_⟩, ?_⟩⟩, ?_⟩
  · exact fun fp hfp => absurd hfp (Set.notMem_empty fp)
  · exact fun sp hsp => absurd hsp (Set.notMem_empty sp)
  · exact fun _ _ => rfl
  · exact fun _ _ => rfl
  · rintro (_ | sp) fp
    · exact iff_of_false List.not_mem_nil fun h => Set.notMem_empty fp h.1
    · exact iff_of_false List.not_mem_nil fun h => Set.notMem_empty fp h.1
  · rintro (_ | sp)
    · exact List.nodup_nil
    · exact List.nodup_nil
  · exact fun p hp => absurd hp (hno p)
  · exact fun sp p => iff_of_false List.not_mem_nil fun h => hno p h.1
  · exact fun _ => trivial
  · exact fun p hp => absurd hp (hno p)
  · exact fun p hp => absurd hp (hno p)
  · exact fun p hp => absurd hp (hno p)
  · exact fun p hp => absurd hp (hno p)
  · exact fun fp a => iff_of_false List.not_mem_nil fun h => hno _ h.1
  · exact fun _ => trivial
  · exact fun p hp => absurd hp (hno p)
  · exact fun p hp => absurd hp (hno p)
  · exact fun sp hsp => absurd hsp (Set.notMem_empty sp)
  · exact fun sp hsp => absurd hsp (Set.notMem_empty sp)
  · exact fun sp hsp => absurd hsp (Set.notMem_empty sp)
  · exact fun sp hsp => absurd hsp (Set.notMem_empty sp)
  · have hnone : ∀ {e}, ¬ (Dn.init parms schedlist).evheap.Has e := fun ⟨i, hi, _⟩ =>
      absurd hi (Nat.not_lt_zero i)
    exact ⟨⟨(by decide : (0 : ℤ) < 4), fun i j hi => absurd hi (Nat.not_lt_zero i),
        fun i hi => absurd hi (Nat.not_lt_zero i)⟩, fun o ho => absurd ho (Set.notMem_empty o),
      fun o ⟨k, hk⟩ => absurd hk hnone, fun o ho => absurd ho (hno _),
      fun p hp => absurd hp (hno p), fun k p hk => absurd hk hnone,
      fun _ o _ ho => absurd ho (hno _), fun _ _ => rfl⟩

/-- The state after a run. -/
theorem wellFormed_of_run {parms : DnParms} {schedlist : List SchedType}
    {l : List (DnOp × List Event)}
    (h : Runs.Run Dn.step (fun s op _ => op.NewTo s ∧ (M → op.Ample)) (Dn.init parms schedlist)
      l s) : s.WellFormed M :=
  h.invariant (fun _ _ _ _ hs hok hst => hs.step hok.1 hok.2 hst)
    (wellFormed_init M parms schedlist)

/-- What is in the event heap exists, is there once, at the index that it stores, and has its flag.
A delay line has its flag if it holds packets, and is in the heap with the output time of its
head. -/
structure Dn.Listed (s : Dn) : Prop where
  placed : s.evheap.Placed s.oidId
  listed : ∀ o, s.evheap.Mem o → o.ptr ∈ s.sis ∧ s.flag o = true
  line : ∀ p ∈ s.sis, (s.inst p).dlineSubtype = true ↔ (s.inst p).dline ≠ []
  due : ∀ k p, s.evheap.Has ⟨k, .dline p⟩ → (s.inst p).due = some k

/-- The event heap contains what waits for an event: the active instances, and the delay lines that
hold packets. -/
structure Dn.Scheduled (s : Dn) : Prop extends s.Listed where
  waiting : ∀ o, o.ptr ∈ s.sis → s.flag o = true → s.evheap.Mem o

theorem Events.isListed (h : Events M ∅ s) : s.Listed :=
  ⟨h.placed, h.listed, fun p hp => h.line p hp (Set.notMem_empty _), h.due⟩

/-- **The object graph.** Whatever happens, with failing allocations as well, the objects refer to
each other as they should, and the schedulers are in their table. -/
theorem graph_of_run {parms : DnParms} {schedlist : List SchedType} {l : List (DnOp × List Event)}
    (h : Runs.Run Dn.step (fun s op _ => op.NewTo s) (Dn.init parms schedlist) l s) :
    ∃ F S, Graph F S none s ∧ Hashed S s :=
  (wellFormed_of_run (M := False) (h.mono fun _ _ _ hok => ⟨hok, fun h => h.elim⟩)).shape

/-- **Nothing stray in the event heap**, also if allocations fail: no instance that was destroyed,
and no delay line that is empty. -/
theorem listed_of_run {parms : DnParms} {schedlist : List SchedType} {l : List (DnOp × List Event)}
    (h : Runs.Run Dn.step (fun s op _ => op.NewTo s) (Dn.init parms schedlist) l s) : s.Listed :=
  (wellFormed_of_run (M := False)
    (h.mono fun _ _ _ hok => ⟨hok, fun h => h.elim⟩)).events.isListed

/-- **The event heap.** As long as allocations succeed, nothing that waits for an event is
forgotten. -/
theorem scheduled_of_run {parms : DnParms} {schedlist : List SchedType}
    {l : List (DnOp × List Event)}
    (h : Runs.Run Dn.step (fun s op _ => op.NewTo s ∧ op.Ample) (Dn.init parms schedlist) l s) :
    s.Scheduled := by
  have hE := (wellFormed_of_run (M := True)
    (h.mono fun _ _ _ hok => ⟨hok.1, fun _ => hok.2⟩)).events
  exact ⟨hE.isListed, fun o ho hf => hE.full trivial o (Set.notMem_empty o) ho hf⟩

/-- Scheduler 1 and its link, with 50 ms of delay. -/
def opLink : DnOp :=
  .config [.header { len := 12, id := dnApiVersion }, .sch (schedOne 2), .link linkOne]
    (12 + sizeofSch.toNat + sizeofLink.toNat) {}

/-- A configuration, a packet and the timer. -/
def threeOps : Option (Dn × Dn × Dn) := do
  let (_, s₁) ← (Dn.init {} [.fifo, .wf2qp, .rr]).step opLink
  let (_, s₂) ← s₁.step opPacket
  let (_, s₃) ← s₂.step (opTask 3)
  pure (s₁, s₂, s₃)

theorem threeOps_steps (h : threeOps = some (s, t, u)) : ∃ o₁ o₂ o₃,
    (Dn.init {} [.fifo, .wf2qp, .rr]).step opLink = some (o₁, s) ∧
      s.step opPacket = some (o₂, t) ∧ t.step (opTask 3) = some (o₃, u) := by
  unfold threeOps at h
  obtain ⟨⟨o₁, s₁⟩, h₁, h⟩ := Option.bind_eq_some_iff.1 h
  obtain ⟨⟨o₂, s₂⟩, h₂, h⟩ := Option.bind_eq_some_iff.1 h
  obtain ⟨⟨o₃, s₃⟩, h₃, h⟩ := Option.bind_eq_some_iff.1 h
  obtain ⟨rfl, hrest⟩ := Prod.mk.inj (Option.some.inj h)
  obtain ⟨rfl, rfl⟩ := Prod.mk.inj hrest
  exact ⟨o₁, o₂, o₃, h₁, h₂, h₃⟩

/-- The configuration, and then the packet and the timer, after which the instance 4 exists. -/
theorem threeOps_runs (h : threeOps = some (s, t, u)) (hs : s.sis = ∅) (ht : 4 ∈ t.sis)
    (hu : 4 ∈ u.sis) : ∃ o₁ o₂ o₃,
    Runs.Run Dn.step (fun s op _ => (op.NewTo s ∧ op.Ample) ∧
        s = Dn.init {} [.fifo, .wf2qp, .rr] ∧ op = opLink)
      (Dn.init {} [.fifo, .wf2qp, .rr]) [(opLink, o₁)] s ∧
    Runs.Run Dn.step (fun s op t => (op.NewTo s ∧ op.Ample) ∧ op.Traffic ∧ 4 ∈ t.sis)
      s [(opPacket, o₂), (opTask 3, o₃)] u := by
  obtain ⟨o₁, o₂, o₃, h₁, h₂, h₃⟩ := threeOps_steps h
  have hnew : opPacket.NewTo s := fun ⟨p, hp, _⟩ => by
    rw [hs] at hp
    exact Finset.notMem_empty p hp
  have hlink : opLink.NewTo (Dn.init {} [.fifo, .wf2qp, .rr]) := trivial
  have htask : (opTask 3).NewTo t := trivial
  exact ⟨o₁, o₂, o₃, (Runs.Run.nil _).snoc ⟨⟨hlink, fun _ => rfl⟩, rfl, rfl⟩ h₁,
    ((Runs.Run.nil _).snoc ⟨⟨hnew, fun _ => rfl⟩, trivial, ht⟩ h₂).snoc
      ⟨⟨htask, fun _ => rfl⟩, trivial, hu⟩ h₃⟩

theorem threeOps_spec : ∃ s t u, threeOps = some (s, t, u) ∧ s.sis = ∅ ∧ 4 ∈ t.sis ∧ 4 ∈ u.sis ∧
    (u.inst 4).dlineSubtype = true ∧ (u.inst 4).dline.length = 1 := by
  have hexec : threeOps.any (fun x => decide (x.1.sis = ∅ ∧ 4 ∈ x.2.1.sis ∧ 4 ∈ x.2.2.sis ∧
      (x.2.2.inst 4).dlineSubtype = true ∧ (x.2.2.inst 4).dline.length = 1)) = true := by
    decide +kernel
  obtain ⟨⟨s, t, u⟩, h, hall⟩ := (Option.any_eq_true _ _).1 hexec
  exact ⟨s, t, u, h, of_decide_eq_true hall⟩

theorem threeOps_run : ∃ l u, Runs.Run Dn.step (fun s op _ => op.NewTo s ∧ op.Ample)
    (Dn.init {} [.fifo, .wf2qp, .rr]) l u ∧ 4 ∈ u.sis ∧ (u.inst 4).dlineSubtype = true := by
  obtain ⟨s, t, u, h, hs, ht, hu, hsub, -⟩ := threeOps_spec
  obtain ⟨o₁, o₂, o₃, hl, hl'⟩ := threeOps_runs h hs ht hu
  exact ⟨_, u, (hl.mono fun _ _ _ hok => hok.1).trans (hl'.mono fun _ _ _ hok => hok.1), hu, hsub⟩

/-- With an instance in the graph. -/
theorem graph_threeOps : ∃ F S s, Graph F S none s ∧ Hashed S s ∧ 4 ∈ s.sis := by
  obtain ⟨l, u, hl, hu, -⟩ := threeOps_run
  obtain ⟨F, S, hg, hh⟩ := graph_of_run (hl.mono fun _ _ _ hok => hok.1)
  exact ⟨F, S, u, hg, hh, hu⟩

/-- With an instance that has a packet on its delay line. -/
theorem listed_threeOps : ∃ s : Dn, s.Listed ∧ 4 ∈ s.sis ∧ (s.inst 4).dline ≠ [] := by
  obtain ⟨l, u, hl, hu, hsub⟩ := threeOps_run
  have hlisted := listed_of_run (hl.mono fun _ _ _ hok => hok.1)
  exact ⟨u, hlisted, hu, (hlisted.line 4 hu).1 hsub⟩

/-- With a delay line in the event heap. -/
theorem scheduled_threeOps : ∃ s : Dn, s.Scheduled ∧ s.evheap.Mem (.dline 4) := by
  obtain ⟨l, u, hl, hu, hsub⟩ := threeOps_run
  have hscheduled := scheduled_of_run hl
  exact ⟨u, hscheduled, hscheduled.waiting (.dline 4) hu hsub⟩

end Dummynet
