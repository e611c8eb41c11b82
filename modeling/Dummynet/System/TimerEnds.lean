import Dummynet.System.Order
import Dummynet.System.WakeUp

/-!
# The timer ends

The loop of `dummynet_task` ends. An event that is handled comes back later than the clock, unless
the credit of its instance has wrapped, so that in one tick every event is handled at most once. And
the loop of `serve_sched`, which is inside of it, ends because every round takes a packet.

## Main definitions

* `Dn.overdue`: the events that are due, which every round makes fewer.
* `ServeRound`, `TaskRound`: one round of the loop of `serve_sched`, and of the loop of the timer.
* `Dn.ServesWell`, `Serves`: what goes well in a service, and in the next round.

## Main results

* `serveLoop_ends`: the loop of `serve_sched` ends after at most one round for every packet.
* `TaskRound.card_overdue`: the measure of the outer loop.
* `taskLoop_ends`: it ends after at most one round for every event that is due.
* `timer_ends_of_run`: in every reachable state.
-/

namespace Dummynet

variable {F : Set FskPtr} {S : Set SchkPtr} {L : Option FskPtr} {s t u v : Dn} {p : SiPtr}
  {M : Prop} {X : Set EvObj} {now k : BitVec 64} {o : EvObj} {q q' : List DlPkt}
  {x y : Dn × List DlPkt}

/-! ### The events that are due -/

/-- The entries of the event heap that are due. -/
def Dn.overdue (s : Dn) : Set (DnHeapEntry EvObj) :=
  {e | s.evheap.Has e ∧ keyLT s.currTime e.key = false}

theorem Dn.overdue_subset (s : Dn) :
    s.overdue ⊆ s.evheap.p '' (Finset.range s.evheap.elements : Set ℕ) := by
  rintro e ⟨⟨i, hi, rfl⟩, -⟩
  exact ⟨i, Finset.mem_coe.2 (Finset.mem_range.2 hi), rfl⟩

theorem Dn.overdue_finite (s : Dn) : s.overdue.Finite :=
  ((Finset.finite_toSet _).image _).subset s.overdue_subset

/-- There are not more of them than elements. -/
theorem Dn.card_overdue_le (s : Dn) : s.overdue.ncard ≤ s.evheap.elements := by
  have himage := Set.ncard_le_ncard s.overdue_subset ((Finset.finite_toSet _).image _)
  have hrange := Set.ncard_image_le (f := s.evheap.p)
    (Finset.finite_toSet (Finset.range s.evheap.elements))
  rw [Set.ncard_coe_finset, Finset.card_range] at hrange
  exact himage.trans hrange

theorem Dn.overdue_congr (hev : t.evheap = s.evheap) (hnow : t.currTime = s.currTime) :
    t.overdue = s.overdue := by
  unfold Dn.overdue
  rw [hev, hnow]

/-- **Insertion** of an event in the future. -/
theorem evInsert_overdue (hpl : s.evheap.Placed s.oidId) (ho : ¬ s.evheap.Mem o)
    (hk : keyLT s.currTime k = true) :
    (s.evInsert k o).overdue ⊆ s.overdue ∧
      (s.evInsert k o).evheap.Placed (s.evInsert k o).oidId ∧
      ∀ o', (s.evInsert k o).evheap.Mem o' → o' = o ∨ s.evheap.Mem o' := by
  obtain ⟨ev, pos, heq, hpl', hhas, -, -⟩ := heapInsert_placed (k := k) hpl ho
  have hnow : (s.evInsert k o).currTime = s.currTime := rfl
  rcases Dn.evInsert_or heq with ⟨hev, hid⟩ | ⟨hev, hid⟩
  · refine ⟨fun e ⟨he, hdue⟩ => ?_, by rwa [hev, hid], fun o' ⟨k', hk'⟩ => ?_⟩
    · rcases (hhas e).1 (hev ▸ he) with rfl | he
      · exact absurd (hk.symm.trans (hnow ▸ hdue)) (by simp)
      · exact ⟨he, hnow ▸ hdue⟩
    · rcases (hhas _).1 (hev ▸ hk') with he | he
      · exact .inl (congrArg DnHeapEntry.object he)
      · exact .inr ⟨k', he⟩
  · exact ⟨(Dn.overdue_congr hev hnow).subset, by rwa [hev, hid], fun o' ho' => .inr (hev ▸ ho')⟩

/-- A time that is not due is later than the clock. -/
theorem keyLT_of_not_keyLEQ (h : keyLEQ k now = false) : keyLT now k = true := by
  have hpos : ¬ (k - now).toInt ≤ 0 := of_decide_eq_false h
  have hneg : now - k = -(k - now) := (neg_sub k now).symm
  have hmax := BitVec.toInt_lt (x := k - now)
  have hlt : (now - k).toInt < 0 := by
    rw [hneg, BitVec.toInt_neg, Int.bmod_eq_of_le_mul_two] <;> omega
  exact decide_eq_true hlt

/-- **`transmit_event`** on a delay line that is not in the heap. -/
theorem transmitEvent_overdue (hpl : s.evheap.Placed s.oidId) (hno : ¬ s.evheap.Mem (.dline p))
    (he : transmitEvent s q p s.currTime = (q', t)) : t.overdue ⊆ s.overdue := by
  unfold transmitEvent at he
  dsimp only at he
  have hhead : ∀ d ∈ ((s.inst p).dline.dropWhile
      (fun d => keyLEQ d.tag.outputTime s.currTime)).head?,
      keyLEQ d.tag.outputTime s.currTime = false := fun d hd => by
    have hnot := List.head?_dropWhile_not (fun d => keyLEQ d.tag.outputTime s.currTime)
      (s.inst p).dline
    rw [hd] at hnot
    exact hnot
  generalize (s.inst p).dline.dropWhile (fun d => keyLEQ d.tag.outputTime s.currTime) = rest
    at he hhead
  cases rest with
  | nil =>
    obtain ⟨-, rfl⟩ := Prod.mk.inj he
    exact Set.Subset.rfl
  | cons d rest =>
    obtain ⟨-, rfl⟩ := Prod.mk.inj he
    exact (evInsert_overdue (s := { s.setInst p { s.inst p with
      dline := d :: rest, dlineSubtype := !(d :: rest).isEmpty } with log := _ }) hpl hno
      (keyLT_of_not_keyLEQ (hhead d rfl))).1

/-- The time of the next service is in the future. -/
theorem keyLT_refill (hbw : 0 < (s.bandwidth p).toInt) (hneg : (s.inst p).credit.toInt < 0)
    (hlow : (s.bandwidth p).toInt - 2 ^ 63 ≤ (s.inst p).credit.toInt) :
    keyLT now (now + s.refill p) = true := by
  have hrefill := refill_refills hbw hneg hlow
  have hlt : (s.refill p).toNat < 2 ^ 63 := by
    have hrest := hrefill.rest
    have hpos := hrefill.pos
    have hle : ((s.refill p).toNat : ℤ) ≤ (s.refill p).toNat * (s.bandwidth p).toInt :=
      le_mul_of_one_le_right (by omega) hbw
    omega
  have hsub : now - (now + s.refill p) = -s.refill p := by
    rw [sub_add_eq_sub_sub, sub_self, zero_sub]
  have hint : (s.refill p).toInt = (s.refill p).toNat := BitVec.toInt_eq_toNat_of_lt (by omega)
  have hpos := hrefill.pos
  have hneg : (now - (now + s.refill p)).toInt < 0 := by
    rw [hsub, BitVec.toInt_neg, Int.bmod_eq_of_le_mul_two] <;> omega
  exact decide_eq_true hneg

/-- The credit of the instance is not so low that the time of the next service wraps. -/
def Dn.Unwrapped (s : Dn) (p : SiPtr) : Prop :=
  (s.bandwidth p).toInt - 2 ^ 63 ≤ (s.inst p).credit.toInt

theorem Dn.unwrapped_congr (hbw : t.bandwidth p = s.bandwidth p)
    (hcredit : (t.inst p).credit = (s.inst p).credit) : t.Unwrapped p ↔ s.Unwrapped p := by
  unfold Dn.Unwrapped
  rw [hbw, hcredit]

theorem transmitEvent_unwrapped (h : transmitEvent s q p now = (q', t)) :
    t.Unwrapped p ↔ s.Unwrapped p := by
  obtain ⟨out, rest, l, b, -, -, -, -, -, -, -, hinst, -⟩ := transmitEvent_line h
  have hschk : t.schk = s.schk := by
    have ht : t = (transmitEvent s q p now).2 := by rw [h]
    rw [ht]
    unfold transmitEvent
    dsimp only
    split <;> rfl
  refine Dn.unwrapped_congr ?_ (by rw [hinst])
  unfold Dn.bandwidth
  rw [hinst, hschk]

theorem reschedule_unwrapped {last : Bool} (h : reschedule s p now last = some t) :
    t.Unwrapped p ↔ s.Unwrapped p := by
  obtain ⟨-, rfl⟩ := reschedule_spec h
  set y : Dn := s.setInst p { s.inst p with
    dline := if last then delayLast (s.refill p) (s.inst p).dline else (s.inst p).dline
    active := true } with hy
  refine Dn.unwrapped_congr ?_ ?_
  · change (s.schk (y.inst p).sched).link.bandwidth = _
    rw [hy, Dn.setInst_inst]
    rfl
  · change (y.inst p).credit = _
    rw [hy, Dn.setInst_inst]

/-- **`serve_sched`** on an instance that is not in the heap. -/
theorem serveSched_overdue (hg : Graph F S L s) (hE : Events M (insert (.si p) ∅) s)
    (hp : p ∈ s.sis) (he : serveSched s q p s.currTime = some (q', t)) (hlow : t.Unwrapped p) :
    t.overdue ⊆ s.overdue := by
  obtain ⟨-, -, -, hct, new, last, u, v, hserv, -⟩ := serveSched_spec hg hp he
  obtain ⟨hserved, -, hmiddle, hfinish⟩ := hserv
  have hev : u.evheap = s.evheap := hserved.evheap
  have hid : u.oidId = s.oidId := hserved.oidId
  have hcu : u.currTime = s.currTime := hserved.currTime
  have hlowv : v.Unwrapped p := by
    split_ifs at hfinish
    · exact (transmitEvent_unwrapped hfinish).1 hlow
    · exact hfinish.2 ▸ hlow
  -- the instance may be back in the heap, its delay line is not
  obtain ⟨hsub, hplv, hmem, hcv⟩ : v.overdue ⊆ s.overdue ∧ v.evheap.Placed v.oidId ∧
      (∀ o, v.evheap.Mem o → o = .si p ∨ s.evheap.Mem o) ∧ v.currTime = s.currTime := by
    rcases hmiddle with ⟨hneg, hres⟩ | ⟨-, rfl⟩
    · have hlowu := (reschedule_unwrapped hres).1 hlowv
      obtain ⟨hbw, rfl⟩ := reschedule_spec hres
      set y : Dn := u.setInst p { u.inst p with
        dline := if last then delayLast (u.refill p) (u.inst p).dline else (u.inst p).dline
        active := true } with hy
      have hyev : y.evheap = s.evheap := hev
      have hyid : y.oidId = s.oidId := hid
      have hycur : y.currTime = s.currTime := hcu
      have hno : ¬ y.evheap.Mem (.si p) := by
        rw [hyev]
        exact hE.hole _ (.inl rfl)
      have hpl : y.evheap.Placed y.oidId := by
        rw [hyev, hyid]
        exact hE.placed
      have hkey : keyLT y.currTime (s.currTime + u.refill p) = true := by
        rw [hycur]
        exact keyLT_refill hbw hneg hlowu
      obtain ⟨hsub, hpl', hmem⟩ := evInsert_overdue hpl hno hkey
      exact ⟨hsub.trans (Dn.overdue_congr hyev hycur).subset, hpl',
        fun o ho => (hmem o ho).imp_right fun ho => hyev ▸ ho, hycur⟩
    · refine ⟨(Dn.overdue_congr hev hcu).subset, ?_, fun o ho => .inr (hev ▸ ho), hcu⟩
      change u.evheap.Placed u.oidId
      rw [hev, hid]
      exact hE.placed
  split_ifs at hfinish with hempty
  · rw [← hcv] at hfinish
    refine (transmitEvent_overdue hplv (fun ho => ?_) hfinish).trans hsub
    rcases hmem _ ho with ho | ho
    · exact absurd ho (by simp)
    · have hX : EvObj.dline p ∉ (insert (.si p) ∅ : Set EvObj) := by
        rintro (h | h)
        · exact absurd h (by simp)
        · exact h
      exact (hE.line p hp hX).1 (hE.listed _ ho).2 hempty.1
  · obtain ⟨-, rfl⟩ := hfinish
    exact hsub

/-! ### The loop of a service -/

/-- One round of the loop of `serve_sched`. -/
inductive ServeRound (p : SiPtr) : Dn → Dn → Prop
  | take {s u : Dn} {m : Mbuf} : 0 ≤ (s.inst p).credit.toInt →
      s.callback p (fun k t => k.desc.dequeue t) = some (some m, u) →
      ServeRound p s (moveToDline u p m)

/-- **A round** takes a packet from the queues. -/
theorem ServeRound.pkts_lt (h : ServeRound p s t) (hg : Graph F S L s) (hp : p ∈ s.sis) :
    Graph F S L t ∧ p ∈ t.sis ∧ (t.inst p).pkts < (s.inst p).pkts := by
  obtain ⟨-, hcall⟩ := h
  rename_i u m
  obtain ⟨hgo, d, -, hserved⟩ := moveToDline_spec hg hp hcall
  refine ⟨hgo.graph, hserved.sis ▸ hp, ?_⟩
  have hs := hg.sound_load hp
  obtain ⟨r, hr, rfl, -, -⟩ := callback_dequeue hs hcall
  rcases dequeue_moved hs.ok hr with ⟨ho, -⟩ | ⟨q', m', rest, ho, hq', -, hmoved⟩
  · exact absurd ho (by simp)
  obtain ⟨-, -, -, c, d, -, hself⟩ := moveToDline_line (s.store p (s.inst p) r) p m
  have hmem : r.queues (s.inst p).kind.multiqueue = (s.inst p).queues :=
    Inst.queues_congr hmoved.live
  have hlen : ∀ q, (r.mq q).length ≤ ((s.inst p).s.mq q).length := fun q => by
    rcases eq_or_ne q q' with rfl | hne
    · rw [hmoved.mq_self]
      exact (Nat.le_succ _).trans (congrArg List.length hq').ge
    · exact (congrArg List.length (hmoved.mq_of_ne hne)).le
  rw [hself, s.store_inst]
  change ∑ q ∈ r.queues (s.inst p).kind.multiqueue, (r.mq q).length < _
  rw [hmem]
  refine Finset.sum_lt_sum (fun q _ => hlen q) ⟨q', hs.mem_queues hq', ?_⟩
  rw [hmoved.mq_self]
  exact (Nat.lt_succ_self _).trans_le (congrArg List.length hq').ge

/-- **The loop of `serve_sched` ends**, after at most one round for every packet. -/
theorem serveLoop_ends {n : ℕ} {done : Bool} (hg : Graph F S L s) (hp : p ∈ s.sis)
    (hn : (s.inst p).pkts ≤ n)
    (hok : ∀ t, Relation.ReflTransGen (ServeRound p) s t → 0 ≤ (t.inst p).credit.toInt →
      ∃ r, t.callback p (fun k t => k.desc.dequeue t) = some r) :
    ∃ done' last u, serveLoop (n + 1) s p done = some (done', last, u) ∧
      ((u.inst p).credit.toInt < 0 → Relation.ReflTransGen (ServeRound p) s u) := by
  induction n using Nat.strong_induction_on generalizing s done with
  | _ n ih =>
    unfold serveLoop
    split_ifs with hneg
    · exact ⟨_, _, _, rfl, fun _ => .refl⟩
    have hcredit := not_lt.1 hneg
    obtain ⟨⟨o, u⟩, hcall⟩ := hok s .refl hcredit
    rw [hcall]
    cases o with
    | none =>
      refine ⟨_, _, _, rfl, fun hlt => ?_⟩
      obtain ⟨r, -, rfl, -, -⟩ := callback_dequeue (hg.sound_load hp) hcall
      rw [s.store_inst] at hlt
      exact absurd hlt hneg
    | some m =>
      have hround : ServeRound p s (moveToDline u p m) := .take hcredit hcall
      obtain ⟨hgu, hpu, hlt⟩ := hround.pkts_lt hg hp
      obtain ⟨k, rfl⟩ : ∃ k, n = k + 1 := ⟨n - 1, by omega⟩
      obtain ⟨done', last, v, hloop, hreach⟩ := @ih k (Nat.lt_succ_self k) _ true hgu hpu
        (by omega) fun t ht => hok t (.head hround ht)
      exact ⟨done', last, v, hloop, fun hneg => .head hround (hreach hneg)⟩

/-- In the service of `p` the callback returns, and a negative credit comes only with a bandwidth
and has not wrapped. -/
structure Dn.ServesWell (s : Dn) (p : SiPtr) : Prop where
  dequeue : ∀ t, Relation.ReflTransGen (ServeRound p) s t → 0 ≤ (t.inst p).credit.toInt →
    ∃ r, t.callback p (fun k t => k.desc.dequeue t) = some r
  wake : ∀ t, Relation.ReflTransGen (ServeRound p) s t → (t.inst p).credit.toInt < 0 →
    0 < (t.bandwidth p).toInt ∧ t.Unwrapped p

/-- **`serve_sched` returns.** -/
theorem Dn.ServesWell.returns (h : (grantCredit s p now).ServesWell p) (hg : Graph F S L s)
    (hp : p ∈ s.sis) : ∃ q' t, serveSched s q p now = some (q', t) ∧ t.Unwrapped p := by
  have hgrant : Graph F S L (grantCredit s p now) :=
    (line_goes (A := serveMoves) hg (by simp [serveMoves]) (by simp [serveMoves]) false
      (s.inst p).dline (if 0 < (s.schk (s.inst p).sched).link.bandwidth.toInt then
        (s.inst p).credit +
          (now - (s.inst p).schedTime) * (s.schk (s.inst p).sched).link.bandwidth.signExtend 64
        else 0) now (s.inst p).idleTime rfl).graph
  obtain ⟨done, last, u, hloop, hreach⟩ :=
    @serveLoop_ends F S L _ p _ false hgrant hp le_rfl h.dequeue
  obtain ⟨v, hv, hlow⟩ : ∃ v, (if (u.inst p).credit.toInt < 0 then reschedule u p now last
      else some (u.setInst p { u.inst p with idleTime := now })) = some v ∧ v.Unwrapped p := by
    split_ifs with hneg
    · obtain ⟨hbw, hlow⟩ := h.wake u (hreach hneg) hneg
      obtain ⟨v, hv⟩ : ∃ v, reschedule u p now last = some v :=
        ⟨_, if_neg (not_le.2 hbw)⟩
      exact ⟨v, hv, (reschedule_unwrapped hv).2 hlow⟩
    · refine ⟨_, rfl, (Dn.unwrapped_congr (s := u) ?_ ?_).2 ?_⟩
      · change (u.schk ((u.setInst p _).inst p).sched).link.bandwidth = _
        rw [Dn.setInst_inst]
        rfl
      · rw [Dn.setInst_inst]
      · have hmax := BitVec.toInt_lt (x := u.bandwidth p)
        unfold Dn.Unwrapped
        omega
  have hserve : serveSched s q p now = (if (u.inst p).credit.toInt < 0 then reschedule u p now last
      else some (u.setInst p { u.inst p with idleTime := now })).bind fun v =>
        if ((s.inst p).dline.isEmpty && done) = true then some (transmitEvent v q p now)
          else some (q, v) := by
    unfold serveSched
    simp only [Option.bind_eq_bind, hloop, Option.bind_some]
    split_ifs <;> rfl
  rw [hv, Option.bind_some] at hserve
  split_ifs at hserve
  · exact ⟨_, _, hserve, (transmitEvent_unwrapped rfl).2 hlow⟩
  · exact ⟨q, v, hserve, hlow⟩

/-! ### The rounds -/

/-- An event is due. -/
def Dn.Due (s : Dn) : Prop := ¬ (s.evheap.elements = 0 ∨ keyLT s.currTime s.evheap.topKey = true)

instance (s : Dn) : Decidable s.Due := inferInstanceAs (Decidable (¬ _))

/-- One round of the loop of `dummynet_task`. -/
inductive TaskRound : Dn × List DlPkt → Dn × List DlPkt → Prop
  | serve {s u v : Dn} {p : SiPtr} {q q' : List DlPkt} : s.Due → s.evheap.topObject = .si p →
      s.evExtract none = some u → serveSched u q p u.currTime = some (q', v) →
      TaskRound (s, q) (v, q')
  | transmit {s u v : Dn} {p : SiPtr} {q q' : List DlPkt} : s.Due →
      s.evheap.topObject = .dline p → s.evExtract none = some u →
      transmitEvent u q p u.currTime = (q', v) → TaskRound (s, q) (v, q')

/-- If the next event is for an instance, its service goes well. -/
def Serves (x : Dn × List DlPkt) : Prop :=
  x.1.Due → ∀ p u, x.1.evheap.topObject = .si p → x.1.evExtract none = some u →
    (grantCredit u p u.currTime).ServesWell p

theorem evExtract_top (s : Dn) : ∃ t, s.evExtract none = some t := by
  unfold Dn.evExtract heapExtract
  split_ifs
  · exact ⟨_, rfl⟩
  · exact ⟨_, rfl⟩

/-- What comes from the top of the heap is not due any more. -/
theorem evExtract_overdue (hpl : s.evheap.Placed s.oidId) (hdue : s.Due)
    (he : s.evExtract none = some t) : t.overdue ⊂ s.overdue := by
  obtain ⟨hne, hkey⟩ := not_or.1 hdue
  have hpos := Nat.pos_of_ne_zero hne
  obtain ⟨r, hr, rfl⟩ := Option.map_eq_some_iff.1 he
  have hw := heapExtract_top_without hpl hpos hr
  refine ⟨fun e ⟨hmem, hk⟩ => ⟨((hw.has e).1 hmem).1, hk⟩, fun hall => ?_⟩
  have htop : s.evheap.p 0 ∈ s.overdue :=
    ⟨DnHeap.has_place hpos, Bool.eq_false_of_not_eq_true hkey⟩
  exact ((hw.has _).1 (hall htop).1).2 rfl

/-- **A round** makes the events that are due fewer. -/
theorem TaskRound.card_overdue (h : TaskRound x y) (hg : Graph F S L x.1) (hE : Events M ∅ x.1)
    (hs : Serves x) :
    Graph F S L y.1 ∧ Events M ∅ y.1 ∧ y.1.overdue.ncard < x.1.overdue.ncard := by
  have hdue : x.1.Due := by cases h <;> assumption
  have hne : x.1.evheap.elements ≠ 0 := fun h => hdue (.inl h)
  have hptr := hE.top_mem hne
  obtain ⟨u, hu⟩ := evExtract_top x.1
  have hEu := hE.extractTop (Nat.pos_of_ne_zero hne) hu
  obtain ⟨hgu, -, hsis⟩ := evExtract_goes hg hu
  have hlt := evExtract_overdue hE.placed hdue hu
  cases h with
  | @serve s u' v p q q' _ htop hu' hv =>
    obtain rfl : u' = u := Option.some.inj (hu'.symm.trans hu)
    rw [htop] at hptr hEu
    have hp : p ∈ u'.sis := by
      rw [hsis]
      exact hptr
    obtain ⟨q'', v', hv', hlow⟩ := (hs hdue p u' htop hu).returns (q := q) hgu.graph hp
    obtain ⟨rfl, rfl⟩ := Prod.mk.inj (Option.some.inj (hv.symm.trans hv'))
    obtain ⟨hgv, -⟩ := serveSched_spec hgu.graph hp hv
    have hsub := serveSched_overdue hgu.graph hEu hp hv hlow
    exact ⟨hgv.graph, hEu.serveSched hgu.graph hp hv,
      Set.ncard_lt_ncard (hsub.trans_ssubset hlt) (Dn.overdue_finite _)⟩
  | @transmit s u' v p q q' _ htop hu' hv =>
    obtain rfl : u' = u := Option.some.inj (hu'.symm.trans hu)
    rw [htop] at hptr hEu
    have hp : p ∈ u'.sis := by
      rw [hsis]
      exact hptr
    obtain ⟨hgv, -, -, -⟩ := transmitEvent_goes (A := serveMoves) hgu.graph
      (by simp [serveMoves]) hp hv
    have hsub := transmitEvent_overdue hEu.placed (hEu.hole _ (.inl rfl)) hv
    exact ⟨hgv.graph, hEu.transmitEvent (Set.notMem_empty _) hp hv,
      Set.ncard_lt_ncard (hsub.trans_ssubset hlt) (Dn.overdue_finite _)⟩

/-- If an event is due, there is a round, with which the loop goes on. -/
theorem taskLoop_round {n : ℕ} (hdue : x.1.Due) (hg : Graph F S L x.1) (hE : Events M ∅ x.1)
    (hs : Serves x) : ∃ y, TaskRound x y ∧ taskLoop (n + 1) x.1 x.2 = taskLoop n y.1 y.2 := by
  obtain ⟨s, q⟩ := x
  obtain ⟨u, hu⟩ := evExtract_top s
  have hptr := hE.top_mem fun h => hdue (.inl h)
  obtain ⟨hgu, -, hsis⟩ := evExtract_goes hg hu
  cases htop : s.evheap.topObject with
  | si p =>
    have hp : p ∈ u.sis := by
      rw [hsis]
      have hptr : s.evheap.topObject.ptr ∈ s.sis := hptr
      rwa [htop] at hptr
    obtain ⟨q', v, hv, -⟩ := (hs hdue p u htop hu).returns (q := q) hgu.graph hp
    refine ⟨(v, q'), .serve hdue htop hu hv, ?_⟩
    rw [taskLoop, if_neg hdue]
    simp only [htop, hu, Option.bind_eq_bind, Option.bind_some, hv]
  | dline p =>
    refine ⟨((transmitEvent u q p u.currTime).2, (transmitEvent u q p u.currTime).1),
      .transmit hdue htop hu rfl, ?_⟩
    rw [taskLoop, if_neg hdue]
    simp only [htop, hu, Option.bind_eq_bind, Option.bind_some]

/-- **The loop ends**, after at most one round for every event that is due. -/
theorem taskLoop_ends {n : ℕ} (hg : Graph F S L x.1) (hE : Events M ∅ x.1)
    (hn : x.1.overdue.ncard ≤ n) (hok : ∀ y, Relation.ReflTransGen TaskRound x y → Serves y) :
    ∃ y, taskLoop (n + 1) x.1 x.2 = some (y.2, y.1) ∧ Relation.ReflTransGen TaskRound x y ∧
      ¬ y.1.Due := by
  induction n generalizing x with
  | zero =>
    have hdone : ¬ x.1.Due := fun hdue => by
      obtain ⟨y, hround, -⟩ := taskLoop_round (n := 0) hdue hg hE (hok x .refl)
      have hlt := (hround.card_overdue hg hE (hok x .refl)).2.2
      omega
    refine ⟨x, ?_, .refl, hdone⟩
    rw [taskLoop, if_pos (not_not.1 hdone)]
  | succ n ih =>
    by_cases hdue : x.1.Due
    · obtain ⟨y, hround, hloop⟩ := taskLoop_round (n := n + 1) hdue hg hE (hok x .refl)
      obtain ⟨hgy, hEy, hlt⟩ := hround.card_overdue hg hE (hok x .refl)
      obtain ⟨z, hz, hyz, hdone⟩ := ih hgy hEy (by omega) fun z hyz => hok z (.head hround hyz)
      exact ⟨z, hloop.trans hz, .head hround hyz, hdone⟩
    · refine ⟨x, ?_, .refl, hdue⟩
      rw [taskLoop, if_pos (not_not.1 hdue)]

/-- **The timer ends** in every reachable state. As long as the services go well, there is a last
round, after which no event is due. -/
theorem timer_ends_of_run {parms : DnParms} {schedlist : List SchedType}
    {l : List (DnOp × List Event)} {env : Env}
    (h : Runs.Run Dn.step (fun s op _ => op.NewTo s) (Dn.init parms schedlist) l s)
    (hu : taskTime { s with log := [], env := env } = some u)
    (hok : ∀ y, Relation.ReflTransGen TaskRound (u, []) y → Serves y) :
    ∃ q t, taskLoop (u.evheap.elements + 1) u [] = some (q, t) ∧ ¬ t.Due := by
  have hwf : s.WellFormed False :=
    wellFormed_of_run (h.mono fun _ _ _ hok => ⟨hok, fun h => h.elim⟩)
  obtain ⟨⟨F, S, hg, -⟩, hE⟩ := hwf
  have hparts : Graph F S none u ∧ Events False ∅ u := by
    have hE₀ : Events False ∅ { s with log := [], env := env } := hE.forget
    obtain ⟨now, sum, rfl⟩ : ∃ now sum, u = { s with
        log := [], env := env, cfg := { s.cfg with currTime := now }, tickDeltaSum := sum } := by
      unfold taskTime at hu
      dsimp only at hu
      split at hu
      · exact absurd hu (by simp)
      · exact ⟨_, _, (Option.some.inj hu).symm⟩
    exact ⟨hg.of_eq rfl rfl rfl rfl rfl le_rfl,
      hE₀.congr rfl rfl rfl (fun o => by cases o <;> rfl) (fun _ => rfl) fun h => h⟩
  obtain ⟨y, hy, -, hdone⟩ := taskLoop_ends (x := (u, [])) hparts.1 hparts.2 u.card_overdue_le hok
  exact ⟨y.2, y.1, hy, hdone⟩

/-- Long after a packet has come, its delay line is due. -/
def opLate : Env := { tickLast := 60000, drainCycles := 70 }

theorem timer_ends_threeOps : ∃ u : Dn, u.Due ∧
    ∃ q t, taskLoop (u.evheap.elements + 1) u [] = some (q, t) ∧ ¬ t.Due := by
  have hexec : threeOps.any (fun x => decide (x.1.sis = ∅) &&
      (taskTime { x.2.1 with log := [], env := opLate }).any fun u =>
        decide (u.Due ∧ u.evheap.topObject = .dline 4) && (u.evExtract none).all fun v =>
          decide ((transmitEvent v [] 4 v.currTime).2.evheap.elements = 0)) = true := by
    decide +kernel
  obtain ⟨⟨s, t, _⟩, h, hall⟩ := (Option.any_eq_true _ _).1 hexec
  obtain ⟨hs, hany⟩ := Bool.and_eq_true_iff.1 hall
  obtain ⟨u, hu, hall⟩ := (Option.any_eq_true _ _).1 hany
  obtain ⟨hdue, hall⟩ := Bool.and_eq_true_iff.1 hall
  obtain ⟨hdue, htop⟩ := of_decide_eq_true hdue
  obtain ⟨o₁, o₂, o₃, hstep₁, hstep₂, -⟩ := threeOps_steps h
  have hnew : opPacket.NewTo s := fun ⟨p, hp, _⟩ => by
    rw [of_decide_eq_true hs] at hp
    exact Finset.notMem_empty p hp
  have hlink : opLink.NewTo (Dn.init {} [.fifo, .wf2qp, .rr]) := trivial
  refine ⟨u, hdue, timer_ends_of_run
    (((Runs.Run.nil _).snoc hlink hstep₁).snoc hnew hstep₂) hu fun y hy => ?_⟩
  -- the delay line is the only event
  rcases Relation.ReflTransGen.cases_head hy with rfl | ⟨z, hz, hzy⟩
  · intro _ p v hsi
    exact absurd (htop.symm.trans hsi) (by simp)
  have hempty : z.1.evheap.elements = 0 := by
    cases hz with
    | serve _ hsi => exact absurd (htop.symm.trans hsi) (by simp)
    | @transmit _ v _ p _ _ _ hdl hv htr =>
      obtain rfl : (4 : SiPtr) = p := EvObj.dline.inj (htop.symm.trans hdl)
      have hzero := (Option.all_eq_true _ _).1 hall v hv
      rw [htr] at hzero
      exact of_decide_eq_true hzero
  rcases Relation.ReflTransGen.cases_head hzy with rfl | ⟨w, hw, -⟩
  · exact fun hdue => absurd (.inl hempty) hdue
  · cases hw with
    | serve hdue => exact absurd (.inl hempty) hdue
    | transmit hdue => exact absurd (.inl hempty) hdue

end Dummynet
