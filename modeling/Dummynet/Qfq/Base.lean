import Dummynet.Qfq.Model

/-!
# What the operations of QFQ leave alone

Serving and queueing packets changes timestamps, slots and the states of the groups, and nothing
else: the queues of the instance, their weights and their groups stay, and so does the width of
the slots. The part of an instance that stays is `base`. Only two functions change the lists of
the slots; the others also keep `core`, which has the lists.

## Main definitions

* `core`, `base`: an instance without its timestamps and bitmaps, with and without its lists.

## Main results

* `base_served`, `base_activate`: what follows a dequeue operation and what an idle class that gets
  a packet sets off keep the base.
* `qfqEnqueue_cases`, `qfqDequeue_cases`, `qNew_cases`, `dnDeleteQueue_cases`: what each operation
  can do.
-/

namespace Dummynet.Qfq

variable {s t : Qfq} {g : ℕ} {q : QPtr}

/-- An instance without timestamps, bitmaps and the places of the slots. -/
def core (s : Qfq) : Qfq :=
  { s with
    priv :=
      { wsum := s.priv.wsum
        groups := fun g =>
          { slotShift := (s.priv.groups g).slotShift
            index := (s.priv.groups g).index
            slots := (s.priv.groups g).slots } }
    ext := fun q => { s.ext q with S := 0, F := 0 } }

/-- What the scheduler knows apart from timestamps, slots and the states of the groups. -/
def base (s : Qfq) : Qfq :=
  { core s with
    priv :=
      { wsum := s.priv.wsum
        groups := fun g =>
          { slotShift := (s.priv.groups g).slotShift, index := (s.priv.groups g).index } } }

theorem base_of_core (h : core t = core s) : base t = base s := (congrArg base h :)

theorem slots_eq (h : core t = core s) (g : ℕ) :
    (t.priv.groups g).slots = (s.priv.groups g).slots :=
  (congrArg (fun u : Qfq => (u.priv.groups g).slots) h :)

section Fields

variable (h : base t = base s)
include h

theorem queue_eq : t.queue = s.queue := (congrArg Inst.queue h :)

theorem mq_eq (q : QPtr) : t.mq q = s.mq q := (congrArg (fun u : Qfq => u.mq q) h :)

theorem live_eq : t.live = s.live := (congrArg Inst.live h :)

theorem wsum_eq : t.priv.wsum = s.priv.wsum := (congrArg (fun u : Qfq => u.priv.wsum) h :)

theorem invW_eq (q : QPtr) : (t.ext q).invW = (s.ext q).invW :=
  (congrArg (fun u : Qfq => (u.ext q).invW) h :)

theorem lmax_eq (q : QPtr) : (t.ext q).lmax = (s.ext q).lmax :=
  (congrArg (fun u : Qfq => (u.ext q).lmax) h :)

theorem grp_eq (q : QPtr) : (t.ext q).grp = (s.ext q).grp :=
  (congrArg (fun u : Qfq => (u.ext q).grp) h :)

theorem shift_eq (g : ℕ) : (t.priv.groups g).slotShift = (s.priv.groups g).slotShift :=
  (congrArg (fun u : Qfq => (u.priv.groups g).slotShift) h :)

theorem index_eq (g : ℕ) : (t.priv.groups g).index = (s.priv.groups g).index :=
  (congrArg (fun u : Qfq => (u.priv.groups g).index) h :)

end Fields

/-! ### Functions that keep the lists -/

@[simp] theorem core_setV (s : Qfq) (V : BitVec 64) : core (setV s V) = core s := rfl

@[simp] theorem core_setBitmap (s : Qfq) (st : QfqState) (b : BitVec 64) :
    core (setBitmap s st b) = core s := rfl

@[simp] theorem core_setTimes (s : Qfq) (q : QPtr) (S F : BitVec 64) :
    core (setTimes s q S F) = core s := by
  have hext : (core (setTimes s q S F)).ext = (core s).ext := by
    funext q'
    rcases eq_or_ne q' q with rfl | hne
    · simp [core, setTimes]
    · simp [core, setTimes, hne]
  simp only [core, setTimes] at hext ⊢
  rw [hext]

/-- A group keeps its index, the width of its slots and its lists. -/
theorem core_setGroup {grp : QfqGroup} (hi : grp.index = (s.priv.groups g).index)
    (hs : grp.slotShift = (s.priv.groups g).slotShift)
    (hl : grp.slots = (s.priv.groups g).slots) : core (setGroup s g grp) = core s := by
  have hgroups : (core (setGroup s g grp)).priv.groups = (core s).priv.groups := by
    funext g'
    rcases eq_or_ne g' g with rfl | hne
    · simp [core, setGroup, hi, hs, hl]
    · simp [core, setGroup, hne]
  simp only [core, setGroup] at hgroups ⊢
  rw [hgroups]

/-- A group keeps its index and the width of its slots. -/
theorem base_setGroup {grp : QfqGroup} (hi : grp.index = (s.priv.groups g).index)
    (hs : grp.slotShift = (s.priv.groups g).slotShift) : base (setGroup s g grp) = base s := by
  have hgroups : (base (setGroup s g grp)).priv.groups = (base s).priv.groups := by
    funext g'
    rcases eq_or_ne g' g with rfl | hne
    · simp [base, setGroup, hi, hs]
    · simp [base, setGroup, hne]
  simp only [base, core, setGroup] at hgroups ⊢
  rw [hgroups]

@[simp] theorem core_setGroupTimes (s : Qfq) (g : ℕ) (S : BitVec 64) :
    core (setGroupTimes s g S) = core s := core_setGroup rfl rfl rfl

@[simp] theorem core_moveGroups (s : Qfq) (mask : BitVec 64) (src dst : QfqState) :
    core (qfqMoveGroups s mask src dst) = core s := rfl

theorem core_mark {st : QfqState} (h : markGroup s g st = some t) : core t = core s := by
  obtain ⟨b, -, rfl⟩ := Option.map_eq_some_iff.1 h
  rfl

theorem core_unmark {st : QfqState} (h : unmarkGroup s g st = some t) : core t = core s := by
  obtain ⟨b, -, rfl⟩ := Option.map_eq_some_iff.1 h
  rfl

theorem core_unblock {index : ℕ} {F : BitVec 64} (h : qfqUnblockGroups s index F = some t) :
    core t = core s := by
  obtain ⟨stay, -, rfl⟩ := Option.map_eq_some_iff.1 h
  split_ifs <;> rfl

theorem core_makeEligible {V : BitVec 64} (h : qfqMakeEligible s V = some t) :
    core t = core s := by
  simp only [qfqMakeEligible] at h
  split_ifs at h
  · obtain ⟨last, -, rfl⟩ := Option.map_eq_some_iff.1 h
    rfl
  · rw [Option.some.inj h]

theorem core_updateEligible {V : BitVec 64} (h : qfqUpdateEligible s V = some t) :
    core t = core s := by
  simp only [qfqUpdateEligible] at h
  split_ifs at h with hnone her
  · rw [Option.some.inj h]
  · obtain ⟨u, hu, ht⟩ := Option.bind_eq_some_iff.1 h
    obtain ⟨g, -, rfl⟩ := Option.map_eq_some_iff.1 hu
    rw [core_makeEligible ht]
    split_ifs <;> rfl
  · exact core_makeEligible h

theorem core_slotScan (s : Qfq) (g : ℕ) : core (qfqSlotScan s g).2 = core s := by
  simp only [qfqSlotScan]
  split_ifs
  · rfl
  · exact core_setGroup rfl rfl rfl

theorem core_slotRotate {S : BitVec 64} (h : qfqSlotRotate s g S = some t) : core t = core s := by
  simp only [qfqSlotRotate] at h
  split_ifs at h
  rw [← Option.some.inj h]
  exact core_setGroup rfl rfl rfl

theorem core_updateGroup (h : qfqUpdateGroup s g = some t) : core t = core s := by
  simp only [qfqUpdateGroup] at h
  split at h
  · obtain ⟨u, hu, ht⟩ := Option.bind_eq_some_iff.1 h
    rw [core_unblock ht, core_unmark hu, core_slotScan]
  · split_ifs at h
    · rw [← Option.some.inj h, core_slotScan]
    · obtain ⟨u, hu, h⟩ := Option.bind_eq_some_iff.1 h
      obtain ⟨st, -, h⟩ := Option.bind_eq_some_iff.1 h
      obtain ⟨v, hv, ht⟩ := Option.bind_eq_some_iff.1 h
      rw [core_unblock ht, core_mark hv, core_unmark hu, core_setGroupTimes, core_slotScan]

theorem core_updateState {S R : BitVec 64} (h : qfqUpdateState s g S R = some t) :
    core t = core s := by
  have hmark : ∀ {u : Qfq}, core u = core s → ((qfqCalcState (setGroupTimes u g R)
      ((setGroupTimes u g R).priv.groups g)).bind fun st =>
      markGroup (setGroupTimes u g R) g st) = some t → core t = core s := by
    intro u hu h
    obtain ⟨st, -, ht⟩ := Option.bind_eq_some_iff.1 h
    rw [core_mark ht, core_setGroupTimes, hu]
  simp only [qfqUpdateState] at h
  split_ifs at h
  · rw [Option.some.inj h]
  · obtain ⟨u, hu, h⟩ := Option.bind_eq_some_iff.1 h
    obtain ⟨v, hv, hu⟩ := Option.bind_eq_some_iff.1 hu
    obtain ⟨w, hw, hu⟩ := Option.bind_eq_some_iff.1 hu
    exact hmark (by rw [core_unmark hu, core_unmark hw, core_slotRotate hv]) h
  · exact hmark (core_setV s R) h
  · exact hmark rfl h

/-! ### Functions that change the lists -/

theorem base_slotInsert {S : BitVec 64} (h : qfqSlotInsert s g q S = some t) : base t = base s := by
  obtain ⟨full, -, rfl⟩ := Option.map_eq_some_iff.1 h
  exact base_setGroup rfl rfl

theorem base_frontSlotRemove (h : qfqFrontSlotRemove s g = some t) : base t = base s := by
  simp only [qfqFrontSlotRemove] at h
  split at h
  · simp at h
  · obtain ⟨full, -, rfl⟩ := Option.map_eq_some_iff.1 h
    exact base_setGroup rfl rfl

theorem base_updateClass {b : Bool} (h : qfqUpdateClass s g q = some (b, t)) :
    base t = base s := by
  simp only [qfqUpdateClass] at h
  split at h
  · obtain ⟨u, hu, ht⟩ := Option.map_eq_some_iff.1 h
    rw [← (Prod.mk.inj ht).2, base_frontSlotRemove hu, base_of_core (core_setTimes ..)]
  · split_ifs at h
    · rw [← (Prod.mk.inj (Option.some.inj h)).2, base_of_core (core_setTimes ..)]
    · obtain ⟨u, hu, h⟩ := Option.bind_eq_some_iff.1 h
      obtain ⟨v, hv, ht⟩ := Option.map_eq_some_iff.1 h
      rw [← (Prod.mk.inj ht).2, base_slotInsert hv, base_frontSlotRemove hu,
        base_of_core (core_setTimes ..)]

/-- After a packet was taken, the virtual time advances, the class gets its next timestamps, its
group follows if it has to, and groups become eligible. -/
theorem qfqServed_cases {len : BitVec 64} (h : qfqServed s g q len = some t) :
    ∃ b v w, qfqUpdateClass (setV s (s.priv.V + len * BitVec.ofNat 64 iwsum)) g q = some (b, v) ∧
      (b = false ∧ w = v ∨ b = true ∧ qfqUpdateGroup v g = some w) ∧
      qfqUpdateEligible w s.priv.V = some t := by
  obtain ⟨⟨b, v⟩, hv, h⟩ := Option.bind_eq_some_iff.1 h
  obtain ⟨w, hw, ht⟩ := Option.bind_eq_some_iff.1 h
  refine ⟨b, v, w, hv, ?_, ht⟩
  rcases b with _ | _
  · exact .inl ⟨rfl, (Option.some.inj hw).symm⟩
  · exact .inr ⟨rfl, hw⟩

/-- What follows a dequeue operation keeps the base. -/
theorem base_served {len : BitVec 64} (h : qfqServed s g q len = some t) : base t = base s := by
  obtain ⟨b, v, w, hv, hw, ht⟩ := qfqServed_cases h
  rw [base_of_core (core_updateEligible ht)]
  rcases hw with ⟨-, rfl⟩ | ⟨-, hw⟩
  · rw [base_updateClass hv, base_of_core (core_setV ..)]
  · rw [base_of_core (core_updateGroup hw), base_updateClass hv, base_of_core (core_setV ..)]

/-- What an idle class that gets a packet sets off keeps the base. -/
theorem base_activate {m : Mbuf} (h : qfqActivate s q m = some t) : base t = base s := by
  obtain ⟨g, -, h⟩ := Option.bind_eq_some_iff.1 h
  obtain ⟨S, -, h⟩ := Option.bind_eq_some_iff.1 h
  obtain ⟨u, hu, ht⟩ := Option.bind_eq_some_iff.1 h
  rw [base_slotInsert ht, base_of_core (core_updateState hu), base_of_core (core_setTimes ..)]

/-! ### What the operations can do -/

/-- An enqueue operation drops the packet, appends it to a backlogged class, or activates a class
that was idle. -/
theorem qfqEnqueue_cases {m : Mbuf} {r : Draws} {b : Bool} (hm : ¬ s.isHead q m)
    (h : qfqEnqueue s q m r = some (b, t)) :
    ∃ u, SameBut s u q (if b then s.mq q else s.mq q ++ [m]) ∧
      ((b = true ∨ s.mq q ≠ []) ∧ t = u ∨
        b = false ∧ s.mq q = [] ∧ qfqActivate u q m = some t) := by
  obtain ⟨b', u, hu, hbut⟩ := Inst.enqueue_spec s q m false r
  simp only [qfqEnqueue, if_neg hm, hu] at h
  rcases b' with _ | _
  · simp only [Bool.false_eq_true, if_false] at h hbut
    split_ifs at h with hhead
    · obtain ⟨v, hv, ht⟩ := Option.map_eq_some_iff.1 h
      obtain ⟨rfl, rfl⟩ := Prod.mk.inj ht
      refine ⟨u, hbut, .inr ⟨rfl, ?_, hv⟩⟩
      by_contra hne
      obtain ⟨x, l, hx⟩ := List.exists_cons_of_ne_nil hne
      rw [Inst.isHead, hbut.mq_self, hx] at hhead
      rw [Inst.isHead, hx] at hm
      exact hm hhead
    · obtain ⟨rfl, rfl⟩ := Prod.mk.inj (Option.some.inj h)
      refine ⟨u, hbut, .inl ⟨.inr fun h0 => hhead ?_, rfl⟩⟩
      rw [Inst.isHead, hbut.mq_self, h0]
      rfl
  · obtain ⟨rfl, rfl⟩ := Prod.mk.inj (Option.some.inj h)
    exact ⟨u, hbut, .inl ⟨.inl rfl, rfl⟩⟩

/-- A dequeue operation finds no group, or an empty class, or takes the first packet of the first
class in the first group that is eligible and ready. -/
theorem qfqDequeue_cases {o : Option Mbuf} (h : qfqDequeue s = some (o, t)) :
    (s.priv.bitmaps .ER = 0 ∧ o = none ∧ t = s) ∨
      ∃ g q, qfqFfs (s.priv.bitmaps .ER) = some g ∧
        ((s.priv.groups g).slots (s.priv.groups g).front).head? = some q ∧
        (s.mq q = [] ∧ o = none ∧ t = s ∨
          ∃ m rest u, s.mq q = m :: rest ∧ SameBut s u q rest ∧ o = some m ∧
            qfqServed u g q m.len64 = some t) := by
  simp only [qfqDequeue] at h
  split_ifs at h with her
  · obtain ⟨rfl, rfl⟩ := Prod.mk.inj (Option.some.inj h)
    exact .inl ⟨her, rfl, rfl⟩
  · obtain ⟨g, hg, h⟩ := Option.bind_eq_some_iff.1 h
    obtain ⟨q, hq, h⟩ := Option.bind_eq_some_iff.1 h
    refine .inr ⟨g, q, hg, hq, ?_⟩
    rcases hmq : s.mq q with _ | ⟨m, rest⟩
    · rw [Inst.dequeue_nil hmq] at h
      obtain ⟨rfl, rfl⟩ := Prod.mk.inj (Option.some.inj h)
      exact .inl ⟨rfl, rfl, rfl⟩
    · obtain ⟨u, hu, hbut⟩ := Inst.dequeue_spec hmq
      rw [hu] at h
      obtain ⟨v, hv, ht⟩ := Option.map_eq_some_iff.1 h
      obtain ⟨rfl, rfl⟩ := Prod.mk.inj ht
      exact .inr ⟨m, rest, u, rfl, hbut, rfl, hv⟩

/-- The weight of a flowset after `qfq_new_fsk`, as a word. -/
def fsWeight (fs : DnFsk) : ℕ := ((qfqNewFsk fs).fs.par 0).toNat

/-- What a class with this flowset adds to the sum of the weights. -/
def fsShare (fs : DnFsk) : ℕ := qfqOneFP / (qfqOneFP / fsWeight fs)

theorem fsWeight_mem (fs : DnFsk) : 1 ≤ fsWeight fs ∧ fsWeight fs ≤ qfqMaxWeight := by
  have h := @ipdnBoundVar_mem (fs.fs.par 0) 1 1 qfqMaxWeight (by decide)
  have hpar : (qfqNewFsk fs).fs.par 0 = ipdnBoundVar (fs.fs.par 0) 1 1 qfqMaxWeight := by
    simp [qfqNewFsk]
  rw [fsWeight, hpar]
  omega

theorem fsShare_mem (fs : DnFsk) : 1 ≤ fsShare fs ∧ fsShare fs ≤ qfqOneFP := by
  obtain ⟨hlo, hhi⟩ := fsWeight_mem fs
  have hle : fsWeight fs ≤ qfqOneFP := hhi.trans (by decide)
  have hpos : 0 < qfqOneFP / fsWeight fs := Nat.div_pos hle hlo
  exact ⟨Nat.div_pos (Nat.div_le_self _ _) hpos, Nat.div_le_self _ _⟩

/-- A new class of this flowset, before it has a group. -/
def fsClass (fs : DnFsk) : QfqClass where
  invW := BitVec.ofNat 32 (qfqOneFP / fsWeight fs)
  lmax := BitVec.ofInt 32 ((qfqNewFsk fs).fs.par 1)

theorem toNat_invW (fs : DnFsk) : (fsClass fs).invW.toNat = qfqOneFP / fsWeight fs := by
  have h : qfqOneFP / fsWeight fs ≤ qfqOneFP := Nat.div_le_self _ _
  rw [fsClass, BitVec.toNat_ofNat, Nat.mod_eq_of_lt (h.trans_lt (by decide))]

/-- The instance in which `qfq_new_queue` runs for a new class. -/
def fresh (s : Qfq) (q : QPtr) (fs : DnFsk) : Qfq :=
  { s with
    queue := Function.update s.queue q { fs := qfqNewFsk fs, si := some s.si }
    ext := Function.update s.ext q {}
    live := insert q s.live
    qCount := s.qCount + 1 }

theorem qfqNewQueue_fresh (s : Qfq) (q : QPtr) (fs : DnFsk) :
    qfqNewQueue (fresh s q fs) q =
      if qfqMaxWsum < (s.priv.wsum + BitVec.ofNat 32 (fsShare fs)).toNat then
        some (einval, { fresh s q fs with ext := Function.update s.ext q (fsClass fs) })
      else some (0, { fresh s q fs with
        ext := Function.update s.ext q { fsClass fs with
          grp := some (qfqCalcIndex (fsClass fs).invW (fsClass fs).lmax) }
        priv := { s.priv with wsum := s.priv.wsum + BitVec.ofNat 32 (fsShare fs) } }) := by
  obtain ⟨hlo, hhi⟩ := fsWeight_mem fs
  have hw : (BitVec.ofInt 32 ((qfqNewFsk fs).fs.par 0)).toNat = fsWeight fs := by
    have h := hhi
    simp only [qfqMaxWeight] at h
    rw [fsWeight] at hlo h ⊢
    rw [BitVec.toNat_ofInt]
    omega
  have hpar : ∀ i, (fresh s q fs).par q i = (qfqNewFsk fs).fs.par i := fun i => by
    simp [fresh, Inst.par, DnQueue.par]
  have hw0 : ¬ (BitVec.ofInt 32 ((qfqNewFsk fs).fs.par 0) = 0 ∨
      qfqMaxWeight < fsWeight fs) := by
    rintro (h0 | hgt)
    · rw [h0] at hw
      simp only [BitVec.ofNat_eq_ofNat, BitVec.toNat_ofNat] at hw
      omega
    · omega
  have hinv : (BitVec.ofNat 32 (qfqOneFP / fsWeight fs)).toNat = qfqOneFP / fsWeight fs :=
    toNat_invW fs
  simp only [qfqNewQueue, hpar, hw, if_neg hw0, hinv]
  simp only [fresh, fsClass, fsShare, Function.update_self, Function.update_idem]
  rfl

/-- **A new class** gets its weight, and if the sum of the weights allows it, its group. -/
theorem qNew_cases {fs : DnFsk} (h : qNew qfqDesc s q (qfqDesc.newFsk fs) = some t) :
    t.live = insert q s.live ∧ t.mq q = [] ∧
      (∀ q', q' ≠ q → t.queue q' = s.queue q' ∧ t.ext q' = s.ext q') ∧
      (qfqMaxWsum < (s.priv.wsum + BitVec.ofNat 32 (fsShare fs)).toNat ∧ t.priv = s.priv ∧
          t.ext q = fsClass fs ∨
        (s.priv.wsum + BitVec.ofNat 32 (fsShare fs)).toNat ≤ qfqMaxWsum ∧
          t.priv = { s.priv with wsum := s.priv.wsum + BitVec.ofNat 32 (fsShare fs) } ∧
          t.ext q = { fsClass fs with
            grp := some (qfqCalcIndex (fsClass fs).invW (fsClass fs).lmax) }) := by
  obtain ⟨⟨e, u⟩, hu, ht⟩ := Option.map_eq_some_iff.1 h
  have hu : qfqNewQueue (fresh s q fs) q = some (e, u) := hu
  rw [qfqNewQueue_fresh] at hu
  subst ht
  have hmq : ∀ {v : Qfq}, v.queue = (fresh s q fs).queue → v.mq q = [] := fun hv => by
    simp [Inst.mq, hv, fresh]
  have hother : ∀ {v : Qfq} {x : QfqClass}, v.queue = (fresh s q fs).queue →
      v.ext = Function.update s.ext q x →
      ∀ q', q' ≠ q → v.queue q' = s.queue q' ∧ v.ext q' = s.ext q' := fun hq hx q' hne => by
    simp [hq, hx, fresh, hne]
  split_ifs at hu with hmax
  · obtain ⟨-, rfl⟩ := Prod.mk.inj (Option.some.inj hu)
    exact ⟨rfl, hmq rfl, hother rfl rfl, .inl ⟨hmax, rfl, Function.update_self ..⟩⟩
  · obtain ⟨-, rfl⟩ := Prod.mk.inj (Option.some.inj hu)
    exact ⟨rfl, hmq rfl, hother rfl rfl, .inr ⟨not_lt.1 hmax, rfl, Function.update_self ..⟩⟩

/-- **A class that is deleted** gives its weight back, and nothing else happens. -/
theorem dnDeleteQueue_cases {destroy safe b : Bool}
    (h : dnDeleteQueue qfqDesc s q destroy safe = some (b, t)) :
    b = false ∧ t.live = s.live.erase q ∧
      (∀ q', q' ≠ q → t.queue q' = s.queue q' ∧ t.ext q' = s.ext q') ∧
      t.priv = { s.priv with wsum := if (s.ext q).invW = 0 then s.priv.wsum
        else s.priv.wsum - BitVec.ofNat 32 (qfqOneFP / (s.ext q).invW.toNat) } := by
  obtain ⟨⟨b', u⟩, hu, ht⟩ := Option.map_eq_some_iff.1 h
  simp only [qfqDesc, qfqFreeQueue] at hu
  split_ifs at hu with h0
  · obtain ⟨rfl, rfl⟩ := Prod.mk.inj (Option.some.inj hu)
    obtain ⟨rfl, rfl⟩ := Prod.mk.inj ht
    obtain ⟨hpriv, hext, hlive, hqueue⟩ := removeQueue_spec s q destroy
    refine ⟨rfl, hlive, fun q' hne => ⟨hqueue q' hne, by rw [hext]⟩, ?_⟩
    rw [if_pos h0]
    exact hpriv
  · obtain ⟨rfl, rfl⟩ := Prod.mk.inj (Option.some.inj hu)
    obtain ⟨rfl, rfl⟩ := Prod.mk.inj ht
    obtain ⟨hpriv, hext, hlive, hqueue⟩ := removeQueue_spec _ q destroy
    refine ⟨rfl, hlive, fun q' hne => ⟨hqueue q' hne, ?_⟩, ?_⟩
    · rw [hext]
      exact Function.update_of_ne hne _ _
    · rw [if_neg h0]
      exact hpriv

end Dummynet.Qfq
