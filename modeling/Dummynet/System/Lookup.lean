import Dummynet.System.Moves

/-!
# Instances and queues for a packet

`ipdn_si_find` and `ipdn_q_find`, which make what they do not find.
-/

namespace Dummynet

variable {F : Set FskPtr} {S : Set SchkPtr} {L : Option FskPtr} {s t u : Dn} {p : SiPtr}
  {fp : FskPtr} {sp : SchkPtr} {A B : Set MoveKind}

/-! ### Quiet changes -/

theorem Goes.refl (hg : Graph F S L s) : Goes A F S L s s := ⟨hg, .refl s⟩

theorem Goes.trans {F' : Set FskPtr} {S' : Set SchkPtr} {L' : Option FskPtr}
    (h : Goes A F S L s t) (h' : Goes A F' S' L' t u) : Goes A F' S' L' s u :=
  ⟨h'.graph, h.path.trans h'.path⟩

theorem Goes.mono (h : Goes A F S L s t) (hA : A ⊆ B) : Goes B F S L s t :=
  ⟨h.graph, h.path.mono hA⟩

/-- The memory of the objects and the lists are the same. -/
structure Plain (s t : Dn) : Prop extends Quiet s t where
  fsk : t.fsk = s.fsk
  schk : t.schk = s.schk
  fsu : t.fsu = s.fsu
  brk : s.brk ≤ t.brk

/-- Only the environment and the addresses in use change. -/
structure Silent (s t : Dn) : Prop extends Plain s t where
  fshash : t.fshash = s.fshash
  schedhash : t.schedhash = s.schedhash
  tags : t.tags = s.tags

theorem Plain.refl (s : Dn) : Plain s s := ⟨.refl s, rfl, rfl, rfl, le_rfl⟩

theorem Silent.refl (s : Dn) : Silent s s := ⟨.refl s, rfl, rfl, rfl⟩

theorem Plain.trans (h : Plain s t) (h' : Plain t u) : Plain s u :=
  ⟨h.toQuiet.trans h'.toQuiet, h'.fsk.trans h.fsk, h'.schk.trans h.schk, h'.fsu.trans h.fsu,
    h.brk.trans h'.brk⟩

theorem Silent.trans (h : Silent s t) (h' : Silent t u) : Silent s u :=
  ⟨h.toPlain.trans h'.toPlain, h'.fshash.trans h.fshash, h'.schedhash.trans h.schedhash,
    h'.tags.trans h.tags⟩

theorem Plain.graph (h : Plain s t) (hg : Graph F S L s) : Graph F S L t :=
  hg.of_eq h.fsk h.schk h.inst h.sis h.fsu h.brk

theorem Plain.path (h : Plain s t) (hA : MoveKind.quiet ∈ A) : Path A s t :=
  .single (.quiet h.toQuiet fun sp => by rw [h.schk]) hA

theorem Plain.goes (h : Plain s t) (hg : Graph F S L s) (hA : MoveKind.quiet ∈ A) :
    Goes A F S L s t :=
  ⟨h.graph hg, h.path hA⟩

theorem silent_malloc (s : Dn) : Silent s s.malloc.2 :=
  ⟨⟨⟨⟨rfl, rfl, rfl, rfl, rfl, fun h n => h (n + 1)⟩, rfl, rfl, rfl⟩, rfl, rfl, rfl, le_rfl⟩, rfl,
    rfl, rfl⟩

theorem silent_random (s : Dn) : Silent s s.random.2 :=
  ⟨⟨⟨⟨rfl, rfl, rfl, rfl, rfl, id⟩, rfl, rfl, rfl⟩, rfl, rfl, rfl, le_rfl⟩, rfl, rfl, rfl⟩

theorem silent_alloc (s : Dn) : Silent s s.alloc.2 :=
  ⟨⟨⟨⟨rfl, rfl, rfl, rfl, rfl, id⟩, rfl, rfl, rfl⟩, rfl, rfl, rfl, Nat.le_succ _⟩, rfl, rfl,
    rfl⟩

/-- The numbers and the references between schedulers and flowsets are the same. -/
structure SameNumbers (s t : Dn) : Prop where
  fshash : t.fshash = s.fshash
  schedhash : t.schedhash = s.schedhash
  sch : ∀ sp, (t.schk sp).sch = (s.schk sp).sch
  fp : ∀ sp, (t.schk sp).fp = (s.schk sp).fp
  fs : ∀ sp, (t.schk sp).fs = (s.schk sp).fs
  head : ∀ fp, (t.fsk fp).head = (s.fsk fp).head
  sched : ∀ fp, (t.fsk fp).sched = (s.fsk fp).sched

theorem SameNumbers.refl (s : Dn) : SameNumbers s s :=
  ⟨rfl, rfl, fun _ => rfl, fun _ => rfl, fun _ => rfl, fun _ => rfl, fun _ => rfl⟩

theorem SameNumbers.trans (h : SameNumbers s t) (h' : SameNumbers t u) : SameNumbers s u :=
  ⟨h'.fshash.trans h.fshash, h'.schedhash.trans h.schedhash,
    fun sp => (h'.sch sp).trans (h.sch sp), fun sp => (h'.fp sp).trans (h.fp sp),
    fun sp => (h'.fs sp).trans (h.fs sp), fun fp => (h'.head fp).trans (h.head fp),
    fun fp => (h'.sched fp).trans (h.sched fp)⟩

/-- Schedulers are found alike where their numbers are alike. -/
theorem findSched_congr (hsh : t.schedhash = s.schedhash)
    (hsch : ∀ sp, (t.schk sp).sch = (s.schk sp).sch) (i : BitVec 32) :
    t.findSched i = s.findSched i := by
  unfold Dn.findSched
  rw [hsh]
  simp only [hsch]

/-- Flowsets are found alike where their numbers are alike. -/
theorem findFs_congr (hfs : t.fshash = s.fshash)
    (hhead : ∀ fp, (t.fsk fp).head = (s.fsk fp).head) (i : BitVec 32) :
    t.findFs i = s.findFs i := by
  unfold Dn.findFs
  rw [hfs]
  simp only [hhead]

/-! ### Instances -/

/-- An instance in zeroed memory is sound. -/
theorem SchedType.sound_new (k : SchedType) {x : Inst k.Priv k.Ext} (hpriv : x.priv = k.newSched)
    (hlive : x.live = ∅) (hcount : x.qCount = 0) (hmq : ∀ q, (x.queue q).mq = [])
    (hni : ∀ q, (x.queue q).ni = {})
    (howned : k.multiqueue = false → (x.queue fifoQueue).si = some x.si) : k.Sound x := by
  refine ⟨?_, fun q _ => hmq q, fun q hq => ?_, fun q => ?_, by simp [hcount, hlive],
    fun _ => hlive⟩
  · cases k with
    | prio =>
      intro ix q hq
      rw [hpriv] at hq
      exact absurd hq (by simp [SchedType.newSched])
    | _ => trivial
  · rw [Inst.queues] at hq
    split_ifs at hq with hk
    · rw [hlive] at hq
      exact absurd hq (Finset.notMem_empty q)
    · obtain rfl := Finset.mem_singleton.1 hq
      exact howned (by simpa using hk)
  · rw [DnQueue.Counted, hmq, hni]
    rfl

/-- The fields of a new instance before its credit is set. -/
theorem SchInst.init_fresh (s : Dn) (p : SiPtr) (sp : SchkPtr) (kind : SchedType) (key : FlowId) :
    (SchInst.init s p sp kind key).Fresh p ∧ (SchInst.init s p sp kind key).sched = sp ∧
      (SchInst.init s p sp kind key).kind = kind ∧
      (SchInst.init s p sp kind key).kind.Sound (SchInst.init s p sp kind key).s := by
  rcases eq_or_ne kind .fifo with hk | hk
  · subst hk
    have hmq : ∀ q, ((Function.update (SchInst.zero .fifo).s.queue fifoQueue
        ({ si := some p } : DnQueue)) q).mq = [] ∧ ((Function.update (SchInst.zero .fifo).s.queue
        fifoQueue ({ si := some p } : DnQueue)) q).ni = {} := fun q => by
      rcases eq_or_ne q fifoQueue with rfl | hne
      · simp
      · simp [hne, SchInst.zero]
    refine ⟨⟨rfl, rfl, rfl, fun q => (hmq q).1, fun q => (hmq q).2, rfl, fun _ => rfl, rfl, rfl,
      rfl⟩, rfl, rfl, ?_⟩
    refine SchedType.sound_new .fifo rfl rfl rfl (fun q => (hmq q).1) (fun q => (hmq q).2)
      fun _ => ?_
    change (Function.update (SchInst.zero .fifo).s.queue fifoQueue ({ si := some p } : DnQueue)
      fifoQueue).si = some p
    rw [Function.update_self]
  · unfold SchInst.init
    rw [if_neg hk]
    refine ⟨⟨rfl, rfl, rfl, fun _ => rfl, fun _ => rfl, rfl, fun _ => rfl, rfl, rfl, rfl⟩, rfl,
      rfl, ?_⟩
    refine SchedType.sound_new kind rfl rfl rfl (fun _ => rfl) (fun _ => rfl) fun hmulti => ?_
    cases kind <;> simp_all [SchedType.multiqueue]

/-- The credit of an instance that was just written. -/
theorem siResetCredit_setInst (s : Dn) (p : SiPtr) (x : SchInst) :
    ∃ c i, siResetCredit (s.setInst p x) p = s.setInst p { x with credit := c, idleTime := i } := by
  have hx : (s.setInst p x).inst p = x := Function.update_self ..
  have heq : ∀ y, ((s.setInst p x).setInst p y) = s.setInst p y := s.setInst_setInst p x
  rw [siResetCredit, hx, heq]
  exact ⟨_, _, rfl⟩

/-- The end of `si_new`, for an instance of the algorithm `kind`. -/
theorem siNew_place (u : Dn) (sp : SchkPtr) (kind : SchedType) (key : FlowId) :
    ∃ x : SchInst, x.Fresh u.brk ∧ x.sched = sp ∧ x.kind = kind ∧ x.kind.Sound x.s ∧
      siResetCredit (u.alloc.2.setInst u.brk (SchInst.init u.alloc.2 u.brk sp kind key)) u.brk =
        u.alloc.2.setInst u.brk x := by
  obtain ⟨hfresh, hsched, hkind, hsound⟩ := SchInst.init_fresh u.alloc.2 u.brk sp kind key
  obtain ⟨c, i, heq⟩ := siResetCredit_setInst u.alloc.2 u.brk
    (SchInst.init u.alloc.2 u.brk sp kind key)
  rw [heq]
  refine ⟨_, ?_, ?_, ?_, ?_, rfl⟩
  · exact ⟨hfresh.si, hfresh.ni, hfresh.live, hfresh.mq, hfresh.niq, hfresh.priv, hfresh.ext,
      hfresh.active, hfresh.dline, hfresh.dlineSubtype⟩
  · exact hsched
  · exact hkind
  · exact hsound

/-- **`si_new`.** -/
theorem siNew_spec {key : FlowId} {o : Option SiPtr} (h : siNew s sp key = some (o, t)) :
    o = none ∧ Silent s t ∨ ∃ u p x, o = some p ∧ Silent s u ∧ s.brk ≤ p ∧ p < u.brk ∧
      x.Fresh p ∧ x.sched = sp ∧ (s.schk sp).fp = some x.kind ∧ x.kind.Sound x.s ∧
      t = u.addInst p x := by
  obtain ⟨kind, hkind, h⟩ := Option.bind_eq_some_iff.1 h
  have hs := silent_malloc s
  obtain ⟨ok, s₁, hm⟩ : ∃ ok s₁, s.malloc = (ok, s₁) := ⟨_, _, rfl⟩
  rw [hm] at hs
  simp only [hm] at h
  cases ok with
  | false =>
    obtain ⟨rfl, rfl⟩ := Prod.mk.inj (Option.some.inj h)
    exact .inl ⟨rfl, hs⟩
  | true =>
    obtain ⟨heaps, s₂, hs₂, hm₂⟩ : ∃ heaps s₂, Silent s₁ s₂ ∧
        (if kind = .wf2qp then s₁.malloc else (true, s₁)) = (heaps, s₂) := by
      split_ifs
      · exact ⟨_, _, silent_malloc s₁, rfl⟩
      · exact ⟨_, _, .refl s₁, rfl⟩
    simp only [Bool.not_true, Bool.false_eq_true, if_false, hm₂] at h
    have hs' := hs.trans hs₂
    cases heaps with
    | false =>
      obtain ⟨rfl, rfl⟩ := Prod.mk.inj (Option.some.inj h)
      exact .inl ⟨rfl, hs'⟩
    | true =>
      obtain ⟨rfl, rfl⟩ := Prod.mk.inj (Option.some.inj h)
      obtain ⟨x, hfresh, hsched, rfl, hsound, heq⟩ := siNew_place s₂ sp kind key
      refine .inr ⟨s₂.alloc.2, s₂.brk, x, rfl, hs'.trans (silent_alloc s₂), hs'.brk,
        Nat.lt_succ_self _, hfresh, hsched, hkind, hsound, ?_⟩
      have haddr : s₂.alloc.1 = s₂.brk := rfl
      rw [haddr, heq]
      rfl

/-- The changes on the way to the queue of a packet. -/
def lookupMoves : Set MoveKind := {.quiet, .new, .newQueue}

/-- A write to a scheduler that keeps its link is quiet. -/
theorem path_setSchk {x : Schk} (hA : MoveKind.quiet ∈ A) (hlink : x.link = (s.schk sp).link) :
    Path A s (s.setSchk sp x) := by
  refine .single (.quiet ⟨⟨rfl, rfl, rfl, rfl, rfl, id⟩, rfl, rfl, rfl⟩ fun sp' => ?_) hA
  rcases eq_or_ne sp' sp with rfl | hne
  · simp [Dn.setSchk, hlink]
  · simp [Dn.setSchk, hne]

/-- A new instance enters the table of its scheduler. -/
theorem addInst_goes {x : SchInst} {siht : Objs SiPtr} (hg : Graph F S L s) (hu : Silent s u)
    (hle : s.brk ≤ p) (hlt : p < u.brk) (hx : x.Fresh p) (hsched : x.sched = sp)
    (hfp : (s.schk sp).fp = some x.kind) (hsound : x.kind.Sound x.s)
    (hsiht : ∀ p', p' ∈ siht.list ↔ p' = p ∨ p' ∈ (s.schk sp).siht.list) (hnodup : siht.Nodup) :
    Goes lookupMoves F S L s ((u.addInst p x).setSchk sp { s.schk sp with siht := siht }) := by
  have hp : p ∉ u.sis := fun h => absurd (hg.inst_lt p (hu.sis ▸ h)) (not_lt.2 hle)
  have hschk : u.schk sp = s.schk sp := by rw [hu.schk]
  refine ⟨?_, ((hu.path (by simp [lookupMoves])).trans (.single (.new hp hx hsound)
    (by simp [lookupMoves]))).trans (path_setSchk (by simp [lookupMoves]) ?_)⟩
  · refine (hu.graph hg).addInst (hschk ▸ hfp) hp hlt hsched hx.si hx.live hsound ?_ hnodup rfl rfl
      le_rfl rfl ?_ (fun p' hne => ?_) ?_
    · rw [hschk]
      exact hsiht
    · simp [Dn.setSchk, Dn.addInst, Dn.setInst]
    · simp [Dn.setSchk, Dn.addInst, Dn.setInst, hne]
    · simp [Dn.setSchk, Dn.addInst, Dn.setInst, hschk]
  · change (s.schk sp).link = (u.schk sp).link
    rw [hschk]

/-- The numbers, the links and the data of flowsets are the same. -/
structure Kept (s t : Dn) : Prop extends SameNumbers s t where
  data : ∀ fp, (t.fsk fp).data = (s.fsk fp).data
  link : ∀ sp, (t.schk sp).link = (s.schk sp).link

theorem Kept.refl (s : Dn) : Kept s s := ⟨.refl s, fun _ => rfl, fun _ => rfl⟩

theorem Kept.trans (h : Kept s t) (h' : Kept t u) : Kept s u :=
  ⟨h.toSameNumbers.trans h'.toSameNumbers, fun fp => (h'.data fp).trans (h.data fp),
    fun sp => (h'.link sp).trans (h.link sp)⟩

/-- Flowsets, schedulers and tables that are the same. -/
theorem Kept.of_eq (hfsk : t.fsk = s.fsk) (hschk : t.schk = s.schk) (hfs : t.fshash = s.fshash)
    (hsh : t.schedhash = s.schedhash) : Kept s t := by
  refine ⟨⟨hfs, hsh, ?_, ?_, ?_, ?_, ?_⟩, ?_, ?_⟩
  case refine_4 | refine_5 | refine_6 => exact fun fp => by rw [hfsk]
  all_goals exact fun sp => by rw [hschk]

/-- What a lookup leaves as it is. -/
structure Found (s t : Dn) : Prop extends Kept s t where
  tags : t.tags = s.tags

theorem Found.refl (s : Dn) : Found s s := ⟨.refl s, rfl⟩

theorem Found.trans (h : Found s t) (h' : Found t u) : Found s u :=
  ⟨h.toKept.trans h'.toKept, h'.tags.trans h.tags⟩

theorem Silent.found (h : Silent s t) : Found s t :=
  ⟨.of_eq h.fsk h.schk h.fshash h.schedhash, h.tags⟩

theorem found_addInst {x : SchInst} {siht : Objs SiPtr} (hu : Silent s u) :
    Found s ((u.addInst p x).setSchk sp { s.schk sp with siht := siht }) := by
  have hfsk : (u.addInst p x).fsk = s.fsk := hu.fsk
  have hschk : (u.addInst p x).schk = s.schk := hu.schk
  refine ⟨⟨⟨hu.fshash, hu.schedhash, fun sp' => ?_, fun sp' => ?_, fun sp' => ?_, fun fp => ?_,
    fun fp => ?_⟩, fun fp => ?_, fun sp' => ?_⟩, hu.tags⟩
  case refine_4 | refine_5 | refine_6 =>
    rw [← hfsk]
    rfl
  all_goals
    rcases eq_or_ne sp' sp with rfl | hne
    · simp [Dn.setSchk]
    · simp [Dn.setSchk, hne, hschk]

/-- **`ipdn_si_find`** finds or makes an instance of the scheduler. -/
theorem ipdnSiFind_goes {id : FlowId} {o : Option SiPtr} (hg : Graph F S L s)
    (h : ipdnSiFind s sp id = some (o, t)) :
    Goes lookupMoves F S L s t ∧ Found s t ∧ t.fsk = s.fsk ∧ s.brk ≤ t.brk ∧
      ∀ p, o = some p → p ∈ t.sis ∧ (t.inst p).sched = sp := by
  have hold : ∀ {p}, p ∈ (s.schk sp).siht.list → some (some p, s) = some (o, t) →
      Goes lookupMoves F S L s t ∧ Found s t ∧ t.fsk = s.fsk ∧ s.brk ≤ t.brk ∧
        ∀ p, o = some p → p ∈ t.sis ∧ (t.inst p).sched = sp := by
    intro p hp he
    obtain ⟨rfl, rfl⟩ := Prod.mk.inj (Option.some.inj he)
    refine ⟨.refl hg, .refl s, rfl, le_rfl, fun p' hp' => ?_⟩
    obtain rfl := Option.some.inj hp'
    exact (hg.insts sp p).1 hp
  have hadd : ∀ {u p} {x : SchInst} {siht : Objs SiPtr}, Silent s u → x.sched = sp →
      p ∈ ((u.addInst p x).setSchk sp { s.schk sp with siht := siht }).sis ∧
        (((u.addInst p x).setSchk sp { s.schk sp with siht := siht }).inst p).sched = sp := by
    intro u p x siht hu hx
    exact ⟨Finset.mem_insert_self _ _, by simp [Dn.setSchk, Dn.addInst, Dn.setInst, hx]⟩
  unfold ipdnSiFind at h
  simp only at h
  split_ifs at h with hflags
  · rcases hsiht : (s.schk sp).siht with _ | p | ht
    · simp [hsiht] at h
    · simp [hsiht] at h
    · simp only [hsiht] at h
      split at h
      · next p hfind => exact hold (hsiht ▸ (DnHt.find_eq_some hfind).1) h
      · obtain ⟨⟨o', u⟩, hnew, h⟩ := Option.bind_eq_some_iff.1 h
        rcases siNew_spec hnew with ⟨rfl, hs⟩ | ⟨v, p, x, rfl, hs, hle, hlt, hx, hsched, hfp, hok, rfl⟩
        · obtain ⟨rfl, rfl⟩ := Prod.mk.inj (Option.some.inj h)
          exact ⟨hs.goes hg (by simp [lookupMoves]), hs.found, hs.fsk, hs.brk,
            fun p hp => by simp at hp⟩
        · obtain ⟨rfl, rfl⟩ := Prod.mk.inj (Option.some.inj h)
          have hschk : (v.addInst p x).schk sp = s.schk sp := congrFun hs.schk sp
          rw [hschk]
          have hp : p ∉ ht.ordered := fun hmem =>
            absurd (hg.inst_lt p ((hg.insts sp p).1 (hsiht ▸ hmem)).1) (not_lt.2 hle)
          have hnodup := hg.insts_nodup sp
          rw [hsiht] at hnodup
          refine ⟨addInst_goes hg hs hle hlt hx hsched hfp hok (fun p' => ?_)
            (DnHt.nodup_insert hnodup hp), found_addInst hs, hs.fsk, hs.brk, fun p' hp' => ?_⟩
          · rw [hsiht]
            exact DnHt.mem_insert
          · obtain rfl := Option.some.inj hp'
            exact hadd hs hsched
  · rcases hsiht : (s.schk sp).siht with _ | p | ht
    · simp only [hsiht] at h
      obtain ⟨⟨o', u⟩, hnew, h⟩ := Option.bind_eq_some_iff.1 h
      rcases siNew_spec hnew with ⟨rfl, hs⟩ | ⟨v, p, x, rfl, hs, hle, hlt, hx, hsched, hfp, hok, rfl⟩
      · obtain ⟨rfl, rfl⟩ := Prod.mk.inj (Option.some.inj h)
        have hnull : (u.schk sp).siht = .null := by rw [hs.schk, hsiht]
        have heq : u.setSchk sp { u.schk sp with siht := .null } = u := by
          rw [Dn.setSchk, ← hnull, Function.update_eq_self]
        rw [Option.elim_none, heq]
        exact ⟨hs.goes hg (by simp [lookupMoves]), hs.found, hs.fsk, hs.brk,
          fun p hp => by simp at hp⟩
      · obtain ⟨rfl, rfl⟩ := Prod.mk.inj (Option.some.inj h)
        have hschk : (v.addInst p x).schk sp = s.schk sp := congrFun hs.schk sp
        rw [hschk]
        refine ⟨addInst_goes hg hs hle hlt hx hsched hfp hok (fun p' => ?_) trivial,
          found_addInst hs, hs.fsk, hs.brk, fun p' hp' => ?_⟩
        · rw [hsiht]
          simp [Objs.list]
        · obtain rfl := Option.some.inj hp'
          exact hadd hs hsched
    · simp only [hsiht] at h
      exact hold (by simp [hsiht, Objs.list]) h
    · simp [hsiht] at h

/-! ### Queues -/

/-- A write to a flowset that keeps its numbers. -/
theorem found_setFsk {f : Fsk} (hhead : f.head = (s.fsk fp).head)
    (hsched : f.sched = (s.fsk fp).sched) (hdata : f.data = (s.fsk fp).data) :
    Found s (s.setFsk fp f) := by
  refine ⟨⟨⟨rfl, rfl, fun _ => rfl, fun _ => rfl, fun _ => rfl, fun fp' => ?_, fun fp' => ?_⟩,
    fun fp' => ?_, fun _ => rfl⟩, rfl⟩
  all_goals
    rcases eq_or_ne fp' fp with rfl | hne
    · simp [Dn.setFsk, hhead, hsched, hdata]
    · simp [Dn.setFsk, hne]

/-- A new queue of the flowset `fp`, which enters the table of the flowset. -/
theorem newQueue_goes {key : FlowId} {q : QPtr} {v : Unit} (qht : Objs QAddr) (hg : Graph F S L s)
    (hp : p ∈ s.sis) (hsched : (s.fsk fp).sched = some (s.inst p).sched)
    (hmulti : (s.inst p).kind.multiqueue = true) (hq : q ∉ (s.inst p).s.live) (hlt : q < s.brk)
    (h : (s.setInst p ((s.inst p).name q fp key)).callback p
      (fun k t => (qNew k.desc t q (s.fsk fp).data).map fun t => ((), t)) = some (v, t))
    (hqht : ∀ a, a ∈ qht.list ↔ a = ⟨p, q⟩ ∨ a ∈ (s.fsk fp).qht.list) (hnodup : qht.Nodup) :
    Goes lookupMoves F S L s (t.setFsk fp { t.fsk fp with qht := qht }) ∧
      Found s (t.setFsk fp { t.fsk fp with qht := qht }) := by
  have hmove := Move.newQueue hp hq hmulti (hg.sound_load hp) h
  obtain ⟨r, hcall, rfl⟩ := callback_setInst_spec h
  obtain ⟨r, hr, he⟩ := Option.map_eq_some_iff.1 hcall
  obtain ⟨rfl, rfl⟩ := Prod.mk.inj he
  have hsound := (hg.sound_name hp hq).newQueue hmulti hq hr
  obtain ⟨hsi, hlive, -, -, hqueue, -⟩ := qNew_shell hr
  set x : SchInst := { (s.inst p).name q fp key with s := r } with hx
  have hself : (s.store p ((s.inst p).name q fp key) r).inst p = x := Function.update_self ..
  have hother : ∀ p', p' ≠ p → (s.store p ((s.inst p).name q fp key) r).inst p' = s.inst p' :=
    fun p' hne => Function.update_of_ne hne ..
  refine ⟨⟨?_, (Path.single hmove (by simp [lookupMoves])).trans (.single (.quiet
    ⟨⟨rfl, rfl, rfl, rfl, rfl, id⟩, rfl, rfl, rfl⟩ fun _ => rfl) (by simp [lookupMoves]))⟩,
    ?_⟩
  · refine hg.addQueue (s := s) (x := x) le_rfl rfl rfl rfl rfl hself hother hp hq hlt hsched
      ⟨rfl, rfl, hsi, fun _ => hsound⟩ hlive rfl ?_ (fun q' hq' => ?_) hqht hnodup
    · change (r.queue q).fs.fs.par = _
      rw [hqueue, Function.update_self]
    · have hne : q' ≠ q := fun he => hq (he ▸ hq')
      change (r.queue q').fs.fs.par = _
      rw [hqueue, Function.update_of_ne hne]
      change (s.fsOf (Function.update (s.inst p).qfs q (some fp) q')).fs.par = _
      rw [Function.update_of_ne hne]
      exact hg.par p hp q' hq'
  · have hstore : Found s (s.store p ((s.inst p).name q fp key) r) :=
      ⟨.of_eq rfl rfl rfl rfl, rfl⟩
    exact hstore.trans (found_setFsk rfl rfl rfl)

/-- **`q_new`**, and the new queue in the table of its flowset. -/
theorem qNewAt_goes {key : FlowId} {o : Option QAddr} (hg : Graph F S L s)
    (hmulti : ∀ sp kind, (s.fsk fp).sched = some sp → (s.schk sp).fp = some kind →
      kind.multiqueue = true)
    (h : qNewAt s fp key = some (o, t)) :
    o = none ∧ Goes lookupMoves F S L s t ∧ Found s t ∧ t.fsk = s.fsk ∨
      ∃ a, o = some a ∧ a ∉ (s.fsk fp).qht.list ∧ (t.fsk fp) = (s.fsk fp) ∧
        ∀ qht : Objs QAddr, (∀ a', a' ∈ qht.list ↔ a' = a ∨ a' ∈ (s.fsk fp).qht.list) →
          qht.Nodup → Goes lookupMoves F S L s (t.setFsk fp { t.fsk fp with qht := qht }) ∧
            Found s (t.setFsk fp { t.fsk fp with qht := qht }) := by
  obtain ⟨sp, hsp, h⟩ := Option.bind_eq_some_iff.1 h
  have hs := silent_malloc s
  obtain ⟨ok, s₁, hm⟩ : ∃ ok s₁, s.malloc = (ok, s₁) := ⟨_, _, rfl⟩
  rw [hm] at hs
  simp only [hm] at h
  cases ok with
  | false =>
    obtain ⟨rfl, rfl⟩ := Prod.mk.inj (Option.some.inj h)
    exact .inl ⟨rfl, hs.goes hg (by simp [lookupMoves]), hs.found, hs.fsk⟩
  | true =>
    simp only [Bool.not_true, Bool.false_eq_true, if_false] at h
    obtain ⟨⟨p, s₂⟩, hfind, h⟩ := Option.bind_eq_some_iff.1 h
    obtain ⟨hgo, hfound, hfsk, hbrk, hp⟩ := ipdnSiFind_goes (hs.graph hg) hfind
    have hgo' := (hs.goes hg (by simp [lookupMoves])).trans hgo
    have hfound' := hs.found.trans hfound
    rcases p with _ | p
    · obtain ⟨rfl, rfl⟩ := Prod.mk.inj (Option.some.inj h)
      exact .inl ⟨rfl, hgo', hfound', hfsk.trans hs.fsk⟩
    · obtain ⟨hmem, hsched⟩ := hp p rfl
      obtain ⟨⟨v, u⟩, hcall, h⟩ := Option.bind_eq_some_iff.1 h
      obtain ⟨rfl, rfl⟩ := Prod.mk.inj (Option.some.inj h)
      have ha := silent_alloc s₂
      have hga := ha.graph hgo.graph
      have hbrk' : s.brk ≤ s₂.brk := hs.brk.trans hbrk
      have hfsk' : s₂.alloc.2.fsk = s.fsk := (ha.fsk.trans hfsk).trans hs.fsk
      have hq : s₂.brk ∉ (s₂.inst p).s.live := fun hq =>
        (hgo.graph.queue_lt p hmem _ hq).ne rfl
      have hk : (s₂.inst p).kind.multiqueue = true := by
        refine hmulti sp _ hsp ?_
        have hkind := hgo.graph.kind p hmem
        rwa [hsched, hfound'.fp] at hkind
      refine .inr ⟨_, rfl, fun hmem' => ?_, ?_, fun qht hqht hnodup => ?_⟩
      · have hold := (hg.queues fp _).1 hmem'
        exact absurd (hg.queue_lt _ hold.1 _ hold.2.1) (not_lt.2 hbrk')
      · obtain ⟨r, -, rfl⟩ := callback_setInst_spec hcall
        exact congrFun hfsk' fp
      · have hsched' : (s₂.alloc.2.fsk fp).sched = some (s₂.alloc.2.inst p).sched := by
          rw [hfsk', hsp]
          exact congrArg some hsched.symm
        obtain ⟨hgq, hfq⟩ := newQueue_goes qht hga hmem hsched' hk hq
          (Nat.lt_succ_self _) hcall (by rw [hfsk']; exact hqht) hnodup
        exact ⟨(hgo'.trans (ha.goes hgo.graph (by simp [lookupMoves]))).trans hgq,
          (hfound'.trans ha.found).trans hfq⟩

/-- A write to a flowset is quiet. -/
theorem path_setFsk {f : Fsk} (hA : MoveKind.quiet ∈ A) : Path A s (s.setFsk fp f) :=
  .single (.quiet ⟨⟨rfl, rfl, rfl, rfl, rfl, id⟩, rfl, rfl, rfl⟩ fun _ => rfl) hA

/-- The hash table of a flowset. -/
theorem qhtTable_goes {o : Option (DnHt QAddr)} (hg : Graph F S L s) (hfp : fp ∈ F)
    (h : qhtTable s fp = some (o, t)) :
    Goes lookupMoves F S L s t ∧ Found s t ∧ ∀ ht, o = some ht → (t.fsk fp).qht = .table ht := by
  unfold qhtTable at h
  simp only at h
  rcases hq : (s.fsk fp).qht with _ | a | ht
  · simp only [hq] at h
    have hs := silent_malloc s
    obtain ⟨ok, u, hm⟩ : ∃ ok u, s.malloc = (ok, u) := ⟨_, _, rfl⟩
    rw [hm] at hs
    simp only [hm] at h
    split at h
    · obtain ⟨rfl, rfl⟩ := Prod.mk.inj (Option.some.inj h)
      exact ⟨hs.goes hg (by simp [lookupMoves]), hs.found, fun ht hht => by simp at hht⟩
    · next ht hinit =>
      obtain ⟨rfl, rfl⟩ := Prod.mk.inj (Option.some.inj h)
      have hobjs : ht.objs = [] := by
        simp only [dnHtInit] at hinit
        split_ifs at hinit
        rw [← Option.some.inj hinit]
      have hfsk : u.fsk fp = s.fsk fp := by rw [hs.fsk]
      refine ⟨⟨(hs.graph hg).setFsk hfp ⟨?_, ?_, fun _ => ?_, ?_⟩,
        (hs.path (by simp [lookupMoves])).trans (path_setFsk (by simp [lookupMoves]))⟩,
        hs.found.trans (found_setFsk ?_ ?_ ?_), fun ht' hht' => ?_⟩
      · rw [hfsk]
      · rw [hfsk, hq]
        simp [Objs.list, DnHt.ordered, DnHt.chain, hobjs]
      · simp [Objs.Nodup, hobjs]
      · rw [hfsk]
      · rw [hfsk]
      · rw [hfsk]
      · rw [hfsk]
      · obtain rfl := Option.some.inj hht'
        simp [Dn.setFsk]
  · simp [hq] at h
  · simp only [hq] at h
    obtain ⟨rfl, rfl⟩ := Prod.mk.inj (Option.some.inj h)
    exact ⟨.refl hg, .refl s, fun ht' hht' => by rw [hq, Option.some.inj hht']⟩

/-- **`ipdn_q_find`** finds or makes a queue of the flowset. -/
theorem ipdnQFind_goes {id : FlowId} {o : Option QAddr} (hg : Graph F S L s) (hfp : fp ∈ F)
    (hmulti : ∀ sp kind, (s.fsk fp).sched = some sp → (s.schk sp).fp = some kind →
      kind.multiqueue = true)
    (h : ipdnQFind s fp id = some (o, t)) :
    Goes lookupMoves F S L s t ∧ Found s t ∧
      ∀ a, o = some a → a ∈ (t.fsk fp).qht.list := by
  have hself : ∀ {u : Dn} {qht : Objs QAddr} {a : QAddr}, a ∈ qht.list →
      a ∈ ((u.setFsk fp { u.fsk fp with qht := qht }).fsk fp).qht.list := by
    intro u qht a ha
    rw [Dn.setFsk]
    simpa using ha
  have hold : ∀ {u a}, Goes lookupMoves F S L s u → Found s u → a ∈ (u.fsk fp).qht.list →
      some (some a, u) = some (o, t) → Goes lookupMoves F S L s t ∧ Found s t ∧
        ∀ a, o = some a → a ∈ (t.fsk fp).qht.list := by
    intro u a hgo hfound ha he
    obtain ⟨rfl, rfl⟩ := Prod.mk.inj (Option.some.inj he)
    refine ⟨hgo, hfound, fun a' ha' => ?_⟩
    obtain rfl := Option.some.inj ha'
    exact ha
  unfold ipdnQFind at h
  simp only at h
  split_ifs at h with hflags
  · obtain ⟨⟨o', u⟩, htab, h⟩ := Option.bind_eq_some_iff.1 h
    obtain ⟨hgo, hfound, hht⟩ := qhtTable_goes hg hfp htab
    rcases o' with _ | ht
    · obtain ⟨rfl, rfl⟩ := Prod.mk.inj (Option.some.inj h)
      exact ⟨hgo, hfound, fun a ha => by simp at ha⟩
    · have hqht := hht ht rfl
      simp only at h
      split at h
      · next a hfind =>
        refine hold hgo hfound ?_ h
        rw [hqht]
        exact (DnHt.find_eq_some hfind).1
      · obtain ⟨⟨o', v⟩, hnew, h⟩ := Option.bind_eq_some_iff.1 h
        have hmulti' : ∀ sp kind, (u.fsk fp).sched = some sp → (u.schk sp).fp = some kind →
            kind.multiqueue = true := fun sp kind hsp hk => by
          rw [hfound.sched] at hsp
          rw [hfound.fp] at hk
          exact hmulti sp kind hsp hk
        rcases qNewAt_goes hgo.graph hmulti' hnew with
          ⟨rfl, hgn, hfn, -⟩ | ⟨a, rfl, ha, hfsk, hadd⟩
        · obtain ⟨rfl, rfl⟩ := Prod.mk.inj (Option.some.inj h)
          exact ⟨hgo.trans hgn, hfound.trans hfn, fun a ha => by simp at ha⟩
        · obtain ⟨rfl, rfl⟩ := Prod.mk.inj (Option.some.inj h)
          have hnodup := hgo.graph.queues_nodup fp
          rw [hqht] at hnodup ha
          obtain ⟨hgn, hfn⟩ := hadd
            (.table (ht.insert (flowIdHash (flowIdMask (s.fsk fp).fskMask id)) a))
            (fun a' => by rw [hqht]; exact DnHt.mem_insert) (DnHt.nodup_insert hnodup ha)
          refine ⟨hgo.trans hgn, hfound.trans hfn, fun a' ha' => ?_⟩
          obtain rfl := Option.some.inj ha'
          exact hself (DnHt.mem_insert.2 (.inl rfl))
  · rcases hq : (s.fsk fp).qht with _ | a | ht
    · simp only [hq] at h
      obtain ⟨⟨o', v⟩, hnew, h⟩ := Option.bind_eq_some_iff.1 h
      rcases qNewAt_goes hg hmulti hnew with ⟨rfl, hgn, hfn, hfsk⟩ | ⟨a, rfl, ha, hfsk, hadd⟩
      · obtain ⟨rfl, rfl⟩ := Prod.mk.inj (Option.some.inj h)
        have hnull : (v.fsk fp).qht = .null := by rw [hfsk, hq]
        have heq : v.setFsk fp { v.fsk fp with qht := .null } = v := by
          rw [Dn.setFsk, ← hnull, Function.update_eq_self]
        rw [Option.elim_none, heq]
        exact ⟨hgn, hfn, fun a ha => by simp at ha⟩
      · obtain ⟨rfl, rfl⟩ := Prod.mk.inj (Option.some.inj h)
        obtain ⟨hgn, hfn⟩ := hadd (.one a) (fun a' => by simp [hq, Objs.list]) trivial
        refine ⟨hgn, hfn, fun a' ha' => ?_⟩
        obtain rfl := Option.some.inj ha'
        exact hself (by simp [Objs.list])
    · simp only [hq] at h
      exact hold (.refl hg) (.refl s) (by simp [hq, Objs.list]) h
    · simp [hq] at h

end Dummynet
