import Dummynet.System.Conserve

/-!
# Events on time

The timer handles what is due. After a tick everything in the event heap lies in the future, as long
as the times that enter the heap are less than `2 ^ 60` ticks away from the clock: keys are compared
by their signed difference, and the heap is in order only within half of the circle of words.

## Main definitions

* `Dn.Timed W s`: the event heap is in the order of its keys, which are in `W`.
* `Dn.InTime`: what an operation does to the clock and with it.

## Main results

* `taskLoop_timed`: the loop of `dummynet_task` keeps the order, and ends before an event in the
  future.
* `Dn.WellFormed.step_timed`: every operation.
* `ahead_of_run`, `timely_of_run`: after a tick, nothing is overdue.
-/

namespace Dummynet

variable {F : Set FskPtr} {S : Set SchkPtr} {L : Option FskPtr} {s t u v : Dn} {p : SiPtr}
  {M : Prop} {W : Set (BitVec 64)} {c now k : BitVec 64} {o : EvObj} {op : DnOp}
  {q q' : List DlPkt}

/-! ### The order of the event heap -/

/-- The event heap is in the order of its keys, and these are in `W`. -/
structure Dn.Timed (W : Set (BitVec 64)) (s : Dn) : Prop where
  ordered : ∀ i, 0 < i → i < s.evheap.elements →
    keyLT (s.evheap.p i).key (s.evheap.p (BinHeap.parent i)).key = false
  keys : ∀ e, s.evheap.Has e → e.key ∈ W

/-- An extraction keeps the order. -/
theorem heapExtract_ordered {h h' : DnHeap EvObj} {pos pos' : EvObj → ℤ} {obj : Option EvObj}
    (hw : h.Wf pos) (hc : h.InWindow c) (he : heapExtract h pos obj = some (h', pos')) :
    (∀ i, 0 < i → i < h'.elements →
      keyLT (h'.p i).key (h'.p (BinHeap.parent i)).key = false) ∧ ∀ e, h'.Has e → h.Has e := by
  unfold heapExtract at he
  split_ifs at he with hel
  · obtain ⟨rfl, rfl⟩ := Prod.mk.inj (Option.some.inj he)
    exact ⟨hw.ordered, fun e he => he⟩
  · obtain ⟨f, hf, heq⟩ := Option.map_eq_some_iff.1 he
    have hlt : f < h.elements := by
      cases obj with
      | none =>
        obtain rfl := Option.some.inj hf
        exact Nat.pos_of_ne_zero hel
      | some o =>
        simp only [extractIndex] at hf
        split_ifs at hf with hofs hout
        obtain rfl := Option.some.inj hf
        omega
    obtain ⟨hwf, hhas, -⟩ := extractAt_spec hw hc hlt
    rw [heq] at hwf hhas
    exact ⟨hwf.ordered, fun e he => ((hhas e).1 he).1⟩

namespace Dn.Timed

theorem of_eq (h : s.Timed W) (hev : t.evheap = s.evheap) : t.Timed W := by
  constructor
  · rw [hev]
    exact h.ordered
  · rw [hev]
    exact h.keys

/-- A heap without entries is in order. -/
theorem of_elements (h : s.evheap.elements = 0) : s.Timed W := by
  constructor
  · intro i _ hi
    omega
  · rintro e ⟨i, hi, -⟩
    omega

theorem mono {W' : Set (BitVec 64)} (h : s.Timed W) (hW : W ⊆ W') : s.Timed W' :=
  ⟨h.ordered, fun e he => hW (h.keys e he)⟩

theorem wf (h : s.Timed W) (hpl : s.evheap.Placed s.oidId) : s.evheap.Wf s.oidId :=
  ⟨hpl.ofs_pos, h.ordered, hpl.indexed⟩

/-- If the top is in the future, everything is. -/
theorem ahead (h : s.Timed W) (hW : ∀ k ∈ W, Serial.InWindow c k)
    (hpl : s.evheap.Placed s.oidId) (hnow : Serial.InWindow c now)
    (hend : s.evheap.elements = 0 ∨ keyLT now s.evheap.topKey) {e : DnHeapEntry EvObj}
    (he : s.evheap.Has e) : keyLT now e.key := by
  have hwin : s.evheap.InWindow c := fun e he => hW _ (h.keys e he)
  rcases hend with hzero | htop
  · obtain ⟨i, hi, -⟩ := he
    omega
  have hpos : 0 < s.evheap.elements := by
    obtain ⟨i, hi, -⟩ := he
    omega
  have hlt := (Serial.lt_iff hnow (hwin _ (DnHeap.has_top hpos))).1 htop
  exact (Serial.lt_iff hnow (hwin e he)).2 (hlt.trans_le ((h.wf hpl).top_le hwin he))

/-- **Insertion.** -/
theorem evInsert (h : s.Timed W) (hW : ∀ k ∈ W, Serial.InWindow c k)
    (hpl : s.evheap.Placed s.oidId) (ho : ¬ s.evheap.Mem o) (hk : k ∈ W) :
    (s.evInsert k o).Timed W ∧ (s.evInsert k o).evheap.Placed (s.evInsert k o).oidId ∧
      ∀ o', (s.evInsert k o).evheap.Mem o' → o' = o ∨ s.evheap.Mem o' := by
  obtain ⟨ev, pos, heq, hwf, hhas, -, -⟩ :=
    heapInsert_spec (h.wf hpl) (fun e he => hW _ (h.keys e he)) (hW k hk) ho
  rcases Dn.evInsert_or heq with ⟨hev, hid⟩ | ⟨hev, hid⟩
  · refine ⟨⟨?_, fun e he => ?_⟩, ?_, fun o' ⟨k', hk'⟩ => ?_⟩
    · rw [hev]
      exact hwf.ordered
    · rcases (hhas e).1 (hev ▸ he) with rfl | he
      · exact hk
      · exact h.keys e he
    · rw [hev, hid]
      exact hwf.placed
    · rcases (hhas _).1 (hev ▸ hk') with he | he
      · exact .inl (congrArg DnHeapEntry.object he)
      · exact .inr ⟨k', he⟩
  · refine ⟨h.of_eq hev, ?_, fun o' ho' => .inr (hev ▸ ho')⟩
    rw [hev, hid]
    exact hpl

/-- **Extraction.** -/
theorem evExtract {obj : Option EvObj} (h : s.Timed W) (hW : ∀ k ∈ W, Serial.InWindow c k)
    (hpl : s.evheap.Placed s.oidId) (he : s.evExtract obj = some t) : t.Timed W := by
  obtain ⟨⟨ev, pos⟩, hr, rfl⟩ := Option.map_eq_some_iff.1 he
  obtain ⟨hord, hhas⟩ := heapExtract_ordered (h.wf hpl) (fun e he => hW _ (h.keys e he)) hr
  exact ⟨hord, fun e he => h.keys e (hhas e he)⟩

theorem evExtractIf {flag : Bool} (h : s.Timed W) (hW : ∀ k ∈ W, Serial.InWindow c k)
    (hpl : s.evheap.Placed s.oidId) (he : s.evExtractIf flag o = some t) : t.Timed W := by
  unfold Dn.evExtractIf at he
  split_ifs at he
  · exact h.evExtract hW hpl he
  · obtain rfl := Option.some.inj he
    exact h

end Dn.Timed

/-- Such a change keeps the order. -/
theorem Move.timed {kind : MoveKind} (hkind : kind ∈ asideMoves) (hm : Move kind s t)
    (hE : Events M ∅ s) (hW : ∀ k ∈ W, Serial.InWindow c k) (h : s.Timed W) : t.Timed W := by
  cases hm with
  | quiet hq | conf hq => exact h.of_eq hq.evheap
  | note | clock | credit | new => exact h.of_eq rfl
  | destroy hp _ _ hd =>
    obtain ⟨u, hu, hd⟩ := Option.bind_eq_some_iff.1 hd
    obtain ⟨v, hv, hd⟩ := Option.bind_eq_some_iff.1 hd
    obtain rfl := Option.some.inj hd
    have hEu := hE.extractIf (o := .dline _) hp rfl hu
    have hTu := h.evExtractIf hW hE.placed hu
    have hTv := (hTu.of_eq (t := (s.inst _).uncount u) rfl).evExtractIf hW hEu.placed hv
    exact hTv.of_eq rfl
  | newQueue _ _ _ _ hc =>
    obtain ⟨r, -, rfl⟩ := callback_setInst_spec hc
    exact h.of_eq rfl
  | delete _ _ _ _ hc | purge _ _ _ hc | enqueue _ _ _ _ hc | idle _ _ hc =>
    obtain ⟨r, -, rfl⟩ := callback_spec hc
    exact h.of_eq rfl
  | flush hsis =>
    refine .of_elements ?_
    by_contra hne
    have hmem := ((hE.flush hsis).listed _ ⟨_, DnHeap.has_place (Nat.pos_of_ne_zero hne)⟩).1
    change _ ∈ s.sis at hmem
    rw [hsis] at hmem
    exact absurd hmem (Finset.notMem_empty _)
  | heap | take | line | transmit => exact absurd hkind id

/-- A path of such changes. -/
theorem Path.timed {A : Set MoveKind} (hA : A ⊆ asideMoves) (hpath : Path A s t)
    (hE : Events M ∅ s) (hW : ∀ k ∈ W, Serial.InWindow c k) (h : s.Timed W) : t.Timed W :=
  (hpath.invariant (I := fun t => Events M ∅ t ∧ t.Timed W)
    (fun hk hm hI => ⟨hm.events (hA hk) hI.1, hm.timed (hA hk) hI.1 hW hI.2⟩) ⟨hE, h⟩).2

/-! ### A service -/

/-- **`transmit_event`** on a delay line that is not in the heap. -/
theorem Dn.Timed.transmitEvent (h : s.Timed W) (hW : ∀ k ∈ W, Serial.InWindow c k)
    (hpl : s.evheap.Placed s.oidId) (hno : ¬ s.evheap.Mem (.dline p))
    (he : transmitEvent s q p now = (q', t)) (hk : ∀ k, Event.key k ∈ t.log → k ∈ W) :
    t.Timed W := by
  unfold Dummynet.transmitEvent at he
  dsimp only at he
  generalize (s.inst p).dline.dropWhile (fun d => keyLEQ d.tag.outputTime now) = rest at he
  generalize (s.inst p).dline.takeWhile (fun d => keyLEQ d.tag.outputTime now) = out at he
  set u : Dn := { s.setInst p { s.inst p with dline := rest, dlineSubtype := !rest.isEmpty } with
    log := s.log ++ out.map (Event.released p) } with hu
  have hTu : u.Timed W := h.of_eq rfl
  cases rest with
  | nil =>
    obtain ⟨-, rfl⟩ := Prod.mk.inj he
    exact hTu
  | cons d rest =>
    obtain ⟨-, rfl⟩ := Prod.mk.inj he
    refine (hTu.evInsert hW hpl hno (hk _ ?_)).1
    exact List.mem_append_right _ (List.mem_singleton_self _)

/-- **`serve_sched`** on an instance that is not in the heap. -/
theorem Dn.Timed.serveSched (h : s.Timed W) (hW : ∀ k ∈ W, Serial.InWindow c k)
    (hg : Graph F S L s) (hE : Events M (insert (.si p) ∅) s) (hp : p ∈ s.sis)
    (he : serveSched s q p now = some (q', t)) (hk : ∀ k, Event.key k ∈ t.log → k ∈ W) :
    t.Timed W := by
  obtain ⟨-, -, -, -, new, last, u, v, hserv, -⟩ := serveSched_spec hg hp he
  obtain ⟨hserved, -, hmiddle, hfinish⟩ := hserv
  have hev : u.evheap = s.evheap := hserved.evheap
  have hid : u.oidId = s.oidId := hserved.oidId
  have hlog : v.log ⊆ t.log := by
    split_ifs at hfinish
    · obtain ⟨out, rest, l, b, -, hlog, -⟩ := transmitEvent_line hfinish
      rw [hlog]
      exact List.subset_append_left ..
    · rw [hfinish.2]
      exact List.Subset.refl _
  -- the instance may be back in the heap, its delay line is not
  obtain ⟨hTv, hplv, hmem⟩ : v.Timed W ∧ v.evheap.Placed v.oidId ∧
      ∀ o, v.evheap.Mem o → o = .si p ∨ s.evheap.Mem o := by
    rcases hmiddle with ⟨-, hres⟩ | ⟨-, rfl⟩
    · obtain ⟨-, rfl⟩ := reschedule_spec hres
      set y : Dn := u.setInst p { u.inst p with
        dline := if last then delayLast (u.refill p) (u.inst p).dline else (u.inst p).dline
        active := true } with hy
      have hyev : y.evheap = s.evheap := hev
      have hyid : y.oidId = s.oidId := hid
      have hno : ¬ y.evheap.Mem (.si p) := by
        rw [hyev]
        exact hE.hole _ (.inl rfl)
      have hpl : y.evheap.Placed y.oidId := by
        rw [hyev, hyid]
        exact hE.placed
      have hTy : y.Timed W := h.of_eq hyev
      obtain ⟨hT, hpl', hmem⟩ := hTy.evInsert hW hpl hno
        (hk _ (hlog (List.mem_append_right _ (List.mem_singleton_self _))))
      exact ⟨hT, hpl', fun o ho => (hmem o ho).imp (fun h => h) fun ho => hyev ▸ ho⟩
    · refine ⟨h.of_eq hev, ?_, fun o ho => .inr (hev ▸ ho)⟩
      change u.evheap.Placed u.oidId
      rw [hev, hid]
      exact hE.placed
  split_ifs at hfinish with hempty
  · refine hTv.transmitEvent hW hplv (fun ho => ?_) hfinish hk
    rcases hmem _ ho with ho | ho
    · exact absurd ho (by simp)
    · have hX : EvObj.dline p ∉ (insert (.si p) ∅ : Set EvObj) := by
        rintro (h | h)
        · exact absurd h (by simp)
        · exact h
      exact (hE.line p hp hX).1 (hE.listed _ ho).2 hempty.1
  · obtain ⟨-, rfl⟩ := hfinish
    exact hTv

/-! ### The timer -/

/-- What is recorded stays. -/
theorem Path.log_subset {A : Set MoveKind} (hA : MoveKind.new ∉ A) (h : Path A s t) :
    s.log ⊆ t.log := by
  obtain ⟨l, hlog, -⟩ := h.follows (p := 0) hA
  rw [hlog]
  exact List.subset_append_left ..

/-- **The loop of `dummynet_task`** keeps the order, and ends before an event in the future. -/
theorem taskLoop_timed {n : ℕ} (h : s.Timed W) (hW : ∀ k ∈ W, Serial.InWindow c k)
    (hg : Graph F S L s) (hE : Events M ∅ s) (ht : taskLoop n s q = some (q', t))
    (hk : ∀ k, Event.key k ∈ t.log → k ∈ W) :
    t.Timed W ∧ (t.evheap.elements = 0 ∨ keyLT t.currTime t.evheap.topKey) := by
  induction n generalizing s q with
  | zero => exact absurd ht (by simp [taskLoop])
  | succ n ih =>
    unfold taskLoop at ht
    split_ifs at ht with hdone
    · obtain ⟨rfl, rfl⟩ := Prod.mk.inj (Option.some.inj ht)
      exact ⟨h, hdone⟩
    obtain ⟨u, hu, ht⟩ := Option.bind_eq_some_iff.1 ht
    have hne : s.evheap.elements ≠ 0 := fun he => hdone (.inl he)
    have hptr := hE.top_mem hne
    have hEu := hE.extractTop (Nat.pos_of_ne_zero hne) hu
    have hTu := h.evExtract hW hE.placed hu
    obtain ⟨hgu, -, hsis⟩ := evExtract_goes hg hu
    have hlater : ∀ {v q}, Graph F S L v → Events M ∅ v → taskLoop n v q = some (q', t) →
        ∀ k, Event.key k ∈ v.log → k ∈ W := fun hgv hEv ht k hkv =>
      hk k ((taskLoop_spec handles_true hgv hEv ht).1.path.log_subset (by simp [serveMoves]) hkv)
    cases htop : s.evheap.topObject with
    | si p =>
      rw [htop] at hptr hEu
      simp only [htop] at ht
      obtain ⟨⟨q₁, v⟩, hv, ht⟩ := Option.bind_eq_some_iff.1 ht
      have hp : p ∈ u.sis := by
        rw [hsis]
        exact hptr
      obtain ⟨hgv, -⟩ := serveSched_spec hgu.graph hp hv
      have hEv := hEu.serveSched hgu.graph hp hv
      exact ih (hTu.serveSched hW hgu.graph hEu hp hv (hlater hgv.graph hEv ht)) hgv.graph hEv ht
    | dline p =>
      rw [htop] at hptr hEu
      simp only [htop] at ht
      obtain ⟨⟨q₁, v⟩, hv, ht⟩ := Option.bind_eq_some_iff.1 ht
      have hp : p ∈ u.sis := by
        rw [hsis]
        exact hptr
      have hv := Option.some.inj hv
      obtain ⟨hgv, -, -, -⟩ := transmitEvent_goes (A := serveMoves) hgu.graph
        (by simp [serveMoves]) hp hv
      have hEv := hEu.transmitEvent (Set.notMem_empty _) hp hv
      exact ih (hTu.transmitEvent hW hEu.placed (hEu.hole _ (.inl rfl)) hv
        (hlater hgv.graph hEv ht)) hgv.graph hEv ht

/-! ### The operations -/

/-- `k` is less than `2 ^ 60` ticks before or after `now`. -/
def near (now k : BitVec 64) : Prop := (k - now).toInt.natAbs < 2 ^ 60

instance (now k : BitVec 64) : Decidable (near now k) := inferInstanceAs (Decidable (_ < _))

/-- A time that enters the event heap is near `now`. -/
def Event.Near (now : BitVec 64) : Event → Prop
  | .key k => near now k
  | _ => True

instance (now : BitVec 64) : DecidablePred (Event.Near now)
  | .key k => inferInstanceAs (Decidable (near now k))
  | .dequeued _ _ | .released _ _ | .handed _ | .chained _ | .sent _ _ | .freed _ =>
    inferInstanceAs (Decidable True)

/-- Between `s` and `t` the clock goes forward by less than `2 ^ 60` ticks, and the times that enter
the event heap are near it. -/
structure Dn.InTime (s t : Dn) : Prop where
  clock : (t.currTime - s.currTime).toNat < 2 ^ 60
  keys : ∀ e ∈ t.log, e.Near t.currTime

/-- What is near a point of a window that is away from its ends is in the window. -/
theorem near.inWindow (h : near now k) (hlow : 2 ^ 60 ≤ (now - c).toNat)
    (hhigh : (now - c).toNat < 2 ^ 61) : Serial.InWindow c k := by
  have hsum : (k - c).toNat = ((k - now).toNat + (now - c).toNat) % 2 ^ 64 := by
    rw [← BitVec.toNat_add, sub_add_sub_cancel]
  have hk := (k - now).isLt
  unfold near at h
  rw [BitVec.toInt_eq_toNat_cond] at h
  unfold Serial.InWindow Serial.rank
  split_ifs at h <;> omega

/-- A window that begins before the clock of `s`. -/
def Dn.base (s : Dn) : BitVec 64 := s.currTime - BitVec.ofNat 64 (2 ^ 60)

/-- The words near two clocks are in one window with the later clock. -/
theorem inWindow_of_near (h : (v.currTime - s.currTime).toNat < 2 ^ 60)
    (hk : near s.currTime k ∨ near v.currTime k ∨ k = v.currTime) :
    Serial.InWindow s.base k := by
  have hlen : (BitVec.ofNat 64 (2 ^ 60)).toNat = 2 ^ 60 := by
    rw [BitVec.toNat_ofNat, Nat.mod_eq_of_lt (by norm_num)]
  have hs : (s.currTime - s.base).toNat = 2 ^ 60 := by
    rw [Dn.base, sub_sub_cancel, hlen]
  have hv : (v.currTime - s.base).toNat = (v.currTime - s.currTime).toNat + 2 ^ 60 := by
    rw [← sub_add_sub_cancel v.currTime s.currTime, BitVec.toNat_add, hs]
    omega
  rcases hk with hk | hk | rfl
  · exact hk.inWindow hs.ge (by omega)
  · exact hk.inWindow (by omega) (by omega)
  · unfold Serial.InWindow Serial.rank
    omega

/-- A word near the earlier clock and after the later one is near the later one. -/
theorem near.later (hk : near s.currTime k) (h : (v.currTime - s.currTime).toNat < 2 ^ 60)
    (hlt : keyLT v.currTime k) : near v.currTime k := by
  have hsum : (k - s.currTime).toNat =
      ((k - v.currTime).toNat + (v.currTime - s.currTime).toNat) % 2 ^ 64 := by
    rw [← BitVec.toNat_add, sub_add_sub_cancel]
  have hneg : (v.currTime - k).toNat = (2 ^ 64 - (k - v.currTime).toNat) % 2 ^ 64 := by
    rw [← neg_sub, BitVec.toNat_neg]
  have hlt : (v.currTime - k).toInt < 0 := of_decide_eq_true hlt
  have hk' := (k - v.currTime).isLt
  unfold near at hk ⊢
  rw [BitVec.toInt_eq_toNat_cond] at hk hlt ⊢
  split_ifs at hk hlt ⊢ <;> omega

/-- A configuration does not change the clock. -/
theorem Path.currTime {K : SiPtr → Prop} (h : Path (confMoves K) s t) :
    t.currTime = s.currTime := by
  refine h.invariant (I := fun t => t.currTime = s.currTime) (fun {k u v} hk hm hI => ?_) rfl
  rw [← hI]
  cases hm with
  | quiet hq | conf hq => exact congrArg DnCfg.currTime hq.cfg
  | credit | flush => rfl
  | destroy _ _ _ hd =>
    obtain ⟨ev, pos, rfl⟩ := siDestroy_spec hd
    rfl
  | delete _ _ _ _ hc | purge _ _ _ hc => exact (deleteQueue_aged (X := ∅) hc).clock
  | _ => exact absurd hk id

theorem enqueue_currTime {w : QPtr} {m : Mbuf} {r : Draws} {b : Bool}
    (h : s.callback p (fun k t => k.desc.enqueue t w m r) = some (b, t)) :
    t.currTime = s.currTime := by
  obtain ⟨x, hx, rfl⟩ := callback_spec h
  change x.cfg.currTime = s.cfg.currTime
  rcases SchedType.gives hx with ⟨-, hshell⟩ | ⟨w', -, hshell⟩
  · exact congrArg DnCfg.currTime (shell_cfg hshell)
  · obtain ⟨b', cfg, ni, z, heq, hclock, -⟩ := dnEnqueue_aged (s.load (s.inst p)).cfg
      (s.load (s.inst p)).ni ((s.load (s.inst p)).queue w') m false r
    rw [shell_cfg hshell, Inst.enqueue, heq]
    exact hclock

theorem dropIt_currTime {fp : Option FskPtr} {m : Option Mbuf} {r : IoResult}
    (h : dropIt s fp m = (r, t)) : t.currTime = s.currTime := by
  obtain ⟨-, rfl⟩ := Prod.mk.inj h
  cases m <;> rfl

/-- **An arrival.** -/
theorem Dn.Timed.dummynetIo {a : IoArgs} {r : IoResult} (h : s.Timed W)
    (hW : ∀ k ∈ W, Serial.InWindow c k) (hg : Graph F S none s) (hE : Events M ∅ s)
    (hm : ¬ s.Holds a.m.ptr) (hio : dummynetIo s a = some (r, t))
    (hk : ∀ k, Event.key k ∈ t.log → k ∈ W) : t.Timed W ∧ t.currTime = s.currTime := by
  have hnote : ∀ {u v : Dn}, Goes {.note} F S none u v → Events M ∅ u → u.Timed W → v.Timed W :=
    fun hgo hE hT => hgo.path.timed (by rintro _ rfl; trivial) hE hW hT
  obtain ⟨u, hgu, -, hcu, -, -, -, hcases⟩ := dummynetIo_spec hg hio
  have hfind : findMoves ⊆ asideMoves := by rintro _ (rfl | rfl | rfl | rfl) <;> trivial
  have hEu := hgu.path.events hfind hE
  have hTu := hgu.path.timed hfind hE hW h
  rcases hcases with ⟨o, hdrop⟩ | ⟨fp, sp, w, -, -, hp, hq, -, -, henq⟩
  · exact ⟨hnote (dropIt_goes hgu.graph rfl hdrop) hEu hTu, (dropIt_currTime hdrop).trans hcu⟩
  have hqueued := hgu.path.not_queued fun p hp q hin => hm ⟨p, hp, .inl ⟨q, hin⟩⟩
  obtain ⟨drop, v, hcall, hgv, -, -, hcases⟩ :=
    ioEnqueue_parts hgu.graph hp hq (not_isHead (hqueued _ hp _)) henq
  have hEv := hEu.callback hcall
  have hcv : v.currTime = s.currTime := (enqueue_currTime hcall).trans hcu
  have hTv : v.Timed W := by
    obtain ⟨x, -, rfl⟩ := callback_spec hcall
    exact hTu.of_eq rfl
  rcases hcases with ⟨-, hdrop⟩ | ⟨-, rfl⟩ | ⟨-, hidle, i, q, x, rfl, hgi, hpi, hserve, hgx, hback⟩
  · have hgo := note_goes (A := {.note}) hgv rfl v.ioPkt v.cfg.ioPktDrop v.ioPktFast
      (l := [.freed a.m]) (by simp [Event.isNote])
    exact ⟨hnote (hgo.trans (dropIt_goes hgo.graph rfl hdrop)) hEv hTv,
      (dropIt_currTime hdrop).trans hcv⟩
  · exact ⟨hTv, hcv⟩
  · have hcredit : ({.credit} : Set MoveKind) ⊆ asideMoves := by rintro _ rfl; trivial
    have hEi := hgi.path.events hcredit hEv
    have hTi := hgi.path.timed hcredit hEv hW hTv
    have hci : (initialAllowance v w.si sp).currTime = v.currTime := by
      unfold initialAllowance
      dsimp only
      split <;> rfl
    have hact : (initialAllowance v w.si sp).flag (.si w.si) = false := by
      unfold initialAllowance
      dsimp only
      split
      · rw [Dn.flag, Dn.setInst_inst]
        exact hidle
      · exact hidle
    have hout : ¬ (initialAllowance v w.si sp).evheap.Mem (.si w.si) := fun ho =>
      absurd ((hEi.listed _ ho).2.symm.trans hact) (by simp)
    obtain ⟨l, hlog, -, -, hct⟩ := handBack_gone hback
    have hkx : ∀ k, Event.key k ∈ x.log → k ∈ W := fun k hkx => hk k (by
      rw [hlog]
      exact List.mem_append_left _ hkx)
    have hEw := hEi.weaken hout
    obtain ⟨-, -, -, hcx, -⟩ := serveSched_spec hgi.graph hpi hserve
    exact ⟨hnote (handBack_goes hgx.graph rfl hback) (hEw.serveSched hgi.graph hpi hserve)
      (hTi.serveSched hW hgi.graph hEw hpi hserve hkx),
      hct.trans (hcx.trans (hci.trans hcv))⟩

/-- **The timer.** After a tick everything in the event heap is in the future. -/
theorem Dn.Timed.dummynetTask (h : s.Timed W) (hW : ∀ k ∈ W, Serial.InWindow c k)
    (hg : Graph F S L s) (hE : Events M ∅ s) (ht : dummynetTask s = some t)
    (hnow : Serial.InWindow c t.currTime) (hk : ∀ k, Event.key k ∈ t.log → k ∈ W) :
    t.Timed {k | k ∈ W ∧ keyLT t.currTime k} := by
  obtain ⟨u, hu, ht⟩ := Option.bind_eq_some_iff.1 ht
  obtain ⟨⟨q, v⟩, hv, ht⟩ := Option.bind_eq_some_iff.1 ht
  obtain ⟨w, hw, ht⟩ := Option.bind_eq_some_iff.1 ht
  obtain rfl := Option.some.inj ht
  obtain ⟨now, sum, rfl⟩ : ∃ now sum,
      u = { s with cfg := { s.cfg with currTime := now }, tickDeltaSum := sum } := by
    unfold taskTime at hu
    dsimp only at hu
    split at hu
    · exact absurd hu (by simp)
    · exact ⟨_, _, (Option.some.inj hu).symm⟩
  have hgu : Graph F S L { s with cfg := { s.cfg with currTime := now }, tickDeltaSum := sum } :=
    hg.of_eq rfl rfl rfl rfl rfl le_rfl
  have hEu : Events M ∅ { s with cfg := { s.cfg with currTime := now }, tickDeltaSum := sum } :=
    hE.congr rfl rfl rfl (fun o => by cases o <;> rfl) (fun _ => rfl) fun h => h
  obtain ⟨hgv, -, hEv, -⟩ := taskLoop_spec handles_true hgu hEu hv
  have hcol := doDrain_collected hgv.graph hw
  have hcw : w.currTime = v.currTime := (doDrain_aged hw).clock
  have hlw : w.log = v.log := (hcol.path.mono dropMoves_subset).log_eq
  have hTu : Timed W { s with cfg := { s.cfg with currTime := now }, tickDeltaSum := sum } :=
    h.of_eq rfl
  obtain ⟨hTv, hend⟩ := taskLoop_timed hTu hW hgu hEu hv fun k hkv =>
    hk k (List.mem_append_left _ (hlw ▸ hkv))
  have hnow : Serial.InWindow c v.currTime := hcw ▸ hnow
  have hfuture : v.Timed {k | k ∈ W ∧ keyLT v.currTime k} := ⟨hTv.ordered, fun e he =>
    ⟨hTv.keys e he, hTv.ahead hW hEv.placed hnow hend he⟩⟩
  have hTw := hcol.path.timed
    (fun k hk => by cases k <;> first | exact absurd hk (fun h => h) | trivial) hEv
    (fun k hk => hW k hk.1) hfuture
  rw [← hcw] at hTw
  exact hTw.of_eq rfl

/-- **A configuration.** -/
theorem stages_timed {d : Prop} (hstages : Relation.ReflTransGen (Stage d) s t)
    (hE : Events M ∅ s) (hW : ∀ k ∈ W, Serial.InWindow c k) (h : s.Timed W) :
    Events M ∅ t ∧ t.Timed W ∧ t.currTime = s.currTime := by
  induction hstages with
  | refl => exact ⟨hE, h, rfl⟩
  | tail _ hstage ih =>
    obtain ⟨hEu, hTu, hcu⟩ := ih
    obtain ⟨K, hpath, -⟩ := hstage
    have hK : confMoves K ⊆ asideMoves := fun k hk => by
      cases k <;> first | exact absurd hk (fun h => h) | trivial
    exact ⟨hpath.events hK hEu, hpath.timed hK hEu hW hTu, hpath.currTime.trans hcu⟩

theorem Dn.Timed.withEnv {env : Env} {l : List Event} (h : s.Timed W) :
    Dn.Timed W { s with log := l, env := env } := h.of_eq rfl

/-- The operation is the timer. -/
def DnOp.IsTask : DnOp → Prop
  | .task _ => True
  | _ => False

/-- **Every operation** keeps the event heap in order and its keys near the clock, and after the
timer everything in it is in the future. -/
theorem Dn.WellFormed.step_timed {l : List Event} (h : s.WellFormed M) (hnew : op.NewTo s)
    (hs : s.step op = some (l, t)) (hin : s.InTime t) (hT : s.Timed {k | near s.currTime k}) :
    t.Timed {k | near t.currTime k} ∧
      (op.IsTask → ∀ e, t.evheap.Has e → keyLT t.currTime e.key) := by
  obtain ⟨v, hv, he⟩ := Option.map_eq_some_iff.1 hs
  obtain ⟨-, rfl⟩ := Prod.mk.inj he
  obtain ⟨⟨F, S, hg, hh⟩, hE⟩ := h
  set W : Set (BitVec 64) := {k | near s.currTime k ∨ near v.currTime k} with hWdef
  have hW : ∀ k ∈ W, Serial.InWindow s.base k := fun k hk =>
    inWindow_of_near hin.clock (hk.imp_right .inl)
  have hkeys : ∀ k, Event.key k ∈ v.log → k ∈ W := fun k hk => .inr (hin.keys _ hk)
  have hTW : s.Timed W := hT.mono fun k hk => .inl hk
  -- without a tick the clock stands still
  have hstill : v.Timed W → v.currTime = s.currTime → v.Timed {k | near v.currTime k} := by
    intro hTv hcv
    refine hTv.mono fun k hk => hk.elim (fun hk => ?_) fun hk => hk
    change near v.currTime k
    rw [hcv]
    exact hk
  cases op with
  | io a env =>
    obtain ⟨⟨r, w⟩, hw, rfl⟩ := Option.map_eq_some_iff.1 hv
    have hg₀ : Graph F S none { s with log := [], env := env } := hg.withEnv
    obtain ⟨hTw, hcw⟩ := hTW.withEnv.dummynetIo hW hg₀ hE.forget hnew hw hkeys
    exact ⟨hstill hTw hcw, fun h => h.elim⟩
  | task env =>
    have hg₀ : Graph F S none { s with log := [], env := env } := hg.withEnv
    have hTv := hTW.withEnv.dummynetTask hW hg₀ hE.forget hv
      (inWindow_of_near hin.clock (.inr (.inr rfl))) hkeys
    refine ⟨hTv.mono fun k hk => hk.1.elim (fun hnear => ?_) fun hk => hk,
      fun _ e he => (hTv.keys e he).2⟩
    exact hnear.later hin.clock hk.2
  | config os n env =>
    obtain ⟨⟨r, w⟩, hw, rfl⟩ := Option.map_eq_some_iff.1 hv
    have hg₀ : Graph F S none { s with log := [], env := env } := hg.withEnv
    obtain ⟨F', S', hb, -⟩ := doConfig_becomes (c := False) hg₀
      (hh.congr (fun _ => rfl) (fun _ => rfl) (fun _ => rfl) rfl) (fun h => h.elim) hw
    obtain ⟨-, hTw, hcw⟩ := stages_timed hb.stages hE.forget hW hTW.withEnv
    exact ⟨hstill hTw hcw, fun h => h.elim⟩
  | sysctl parms =>
    obtain rfl := Option.some.inj hv
    exact ⟨hT.of_eq rfl, fun h => h.elim⟩

/-! ### Runs -/

/-- **After a tick the event heap is in the future**, also if allocations fail. -/
theorem ahead_of_run {parms : DnParms} {schedlist : List SchedType} {l : List (DnOp × List Event)}
    {l' : List Event}
    (h : Runs.Run Dn.step (fun s op t => op.NewTo s ∧ s.InTime t) (Dn.init parms schedlist) l s)
    (hs : s.step op = some (l', t)) (hnew : op.NewTo s) (hin : s.InTime t) (htask : op.IsTask) :
    ∀ e, t.evheap.Has e → keyLT t.currTime e.key := by
  obtain ⟨hwf, hT⟩ := h.invariant
    (I := fun s => s.WellFormed False ∧ s.Timed {k | near s.currTime k})
    (fun _ _ _ _ hI hok hst => ⟨hI.1.step hok.1 (fun h => h.elim) hst,
      (hI.1.step_timed hok.1 hst hok.2 hI.2).1⟩)
    ⟨wellFormed_init False parms schedlist, .of_elements rfl⟩
  exact (hwf.step_timed hnew hs hin hT).2 htask

/-- **Nothing is overdue.** If allocations succeed and no time is too far from the clock, then after
a tick every wake-up of an instance is in the future, and so is the output time of every packet that
is at the head of its delay line. -/
theorem timely_of_run {parms : DnParms} {schedlist : List SchedType} {l : List (DnOp × List Event)}
    {l' : List Event} {env : Env}
    (h : Runs.Run Dn.step (fun s op t => (op.NewTo s ∧ op.Ample) ∧ s.InTime t)
      (Dn.init parms schedlist) l s)
    (hs : s.step (.task env) = some (l', t)) (hm : ∀ n, env.malloc n = true) (hin : s.InTime t) :
    (∀ e, t.evheap.Has e → keyLT t.currTime e.key) ∧
      ∀ p ∈ t.sis, ∀ d, (t.inst p).dline.head? = some d → keyLT t.currTime d.tag.outputTime := by
  have hnew : (DnOp.task env).NewTo s := trivial
  have hahead := ahead_of_run (h.mono fun _ _ _ hok => ⟨hok.1.1, hok.2⟩) hs hnew hin trivial
  have hsched := scheduled_of_run ((h.mono fun _ _ _ hok => hok.1).snoc ⟨hnew, hm⟩ hs)
  refine ⟨hahead, fun p hp d hd => ?_⟩
  have hne : (t.inst p).dline ≠ [] := fun hnil => by
    rw [hnil] at hd
    exact absurd hd (by simp)
  obtain ⟨k, hk⟩ := hsched.waiting (.dline p) hp ((hsched.line p hp).2 hne)
  have hdue : (t.inst p).due = some k := hsched.due k p hk
  have hkey : d.tag.outputTime = k := by
    rw [SchInst.due, hd] at hdue
    exact Option.some.inj hdue
  rw [hkey]
  exact hahead ⟨k, .dline p⟩ hk

theorem inTime_threeOps : ∃ s t u, threeOps = some (s, t, u) ∧ s.sis = ∅ ∧ 4 ∈ u.sis ∧
    (u.inst 4).dline ≠ [] ∧ (Dn.init {} [.fifo, .wf2qp, .rr]).InTime s ∧ s.InTime t ∧
      t.InTime u := by
  have hexec : threeOps.any (fun x => decide (x.1.sis = ∅ ∧ 4 ∈ x.2.2.sis ∧
      (x.2.2.inst 4).dline.isEmpty = false ∧
      (x.1.currTime.toNat < 2 ^ 60 ∧ ∀ e ∈ x.1.log, e.Near x.1.currTime) ∧
      ((x.2.1.currTime - x.1.currTime).toNat < 2 ^ 60 ∧
        ∀ e ∈ x.2.1.log, e.Near x.2.1.currTime) ∧
      (x.2.2.currTime - x.2.1.currTime).toNat < 2 ^ 60 ∧
        ∀ e ∈ x.2.2.log, e.Near x.2.2.currTime)) = true := by
    decide +kernel
  obtain ⟨⟨s, t, u⟩, h, hall⟩ := (Option.any_eq_true _ _).1 hexec
  obtain ⟨hs, hu, hne, h₁, h₂, h₃⟩ := of_decide_eq_true hall
  refine ⟨s, t, u, h, hs, hu, fun hnil => ?_, ⟨?_, h₁.2⟩, ⟨h₂.1, h₂.2⟩, ⟨h₃.1, h₃.2⟩⟩
  · simp [hnil] at hne
  · rw [show (Dn.init {} [.fifo, .wf2qp, .rr]).currTime = 0 from rfl, sub_zero]
    exact h₁.1

/-- With a packet on a delay line. -/
theorem timely_threeOps : ∃ u : Dn, (∀ e, u.evheap.Has e → keyLT u.currTime e.key) ∧
    4 ∈ u.sis ∧ ∃ d, (u.inst 4).dline.head? = some d ∧ keyLT u.currTime d.tag.outputTime := by
  obtain ⟨s, t, u, h, hs, hu, hne, h₁, h₂, h₃⟩ := inTime_threeOps
  obtain ⟨o₁, o₂, o₃, hstep₁, hstep₂, hstep₃⟩ := threeOps_steps h
  have hnew : opPacket.NewTo s := fun ⟨p, hp, _⟩ => by
    rw [hs] at hp
    exact Finset.notMem_empty p hp
  have hlink : opLink.NewTo (Dn.init {} [.fifo, .wf2qp, .rr]) := trivial
  obtain ⟨hheap, hline⟩ := timely_of_run
    (((Runs.Run.nil _).snoc ⟨⟨hlink, fun _ => rfl⟩, h₁⟩ hstep₁).snoc
      ⟨⟨hnew, fun _ => rfl⟩, h₂⟩ hstep₂) hstep₃ (fun _ => rfl) h₃
  obtain ⟨d, l, hd⟩ := List.exists_cons_of_ne_nil hne
  have hhead : (u.inst 4).dline.head? = some d := by
    rw [hd]
    rfl
  exact ⟨u, hheap, hu, d, hhead, hline 4 hu d hhead⟩

end Dummynet
