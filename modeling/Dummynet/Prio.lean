import Dummynet.Sched
import Dummynet.Bitmap

/-!
# The PRIO scheduler

The scheduler of `dn_sched_prio.c`: one queue for every priority, and a bitmap of the priorities
that have a queue. Packets of two queues with one priority share the queue that came first.

The bits are set, cleared and tested with shifts of an `int`, and the first one is found with
`ffs`, which takes an `int`, although the bitmap has 64 bits. A shift by 32 or more is undefined
in C, so that only the priorities below 32 can be used; at 31 the sign fills the upper half of the
bitmap. And the bit of a priority is set before the packet is queued, so that a packet that is
dropped leaves the bit of an empty queue.

## Main definitions

* `PrioSi`, `Prio`: the instance.
* `prioEnqueue`, `prioDequeue`, `prioNewQueue`, `prioFreeQueue`: the callbacks.
* `Inv`, `Filled`: the invariant, and that no empty queue is in the array.
* `PrioOk`: priorities below 32, and no drop of the first packet of a priority.
* `Strict`: strict priority and work conservation.

## Main results

* `step_inv`, `run_inv`: every operation keeps the invariant.
* `strict_of_run`: in every state reached, the scheduler has strict priority.
* `not_strict_of_drop`: a packet that is dropped hides the packets of lower priorities.
-/

namespace Dummynet

/-- `struct prio_si`. -/
structure PrioSi where
  bitmap : BitVec 64 := 0
  qArray : ℕ → Option QPtr := fun _ => none

/-- A PRIO instance with its queues. -/
abbrev Prio := Inst PrioSi Unit

/-- `MAXPRIO`. -/
def maxPrio : ℕ := 64

/-- `prio_enqueue`. -/
def prioEnqueue (s : Prio) (q : QPtr) (m : Mbuf) (r : Draws) : Option (Bool × Prio) :=
  let prio := s.par q 0
  (testBit prio s.priv.bitmap).bind fun busy =>
    if !busy then
      -- no queue with this priority
      (setBit prio s.priv.bitmap).map fun bitmap =>
        let array := Function.update s.priv.qArray prio.toNat (some q)
        let s : Prio := { s with priv := { bitmap := bitmap, qArray := array } }
        s.enqueue q m false r
    else (s.priv.qArray prio.toNat).map fun q => s.enqueue q m false r

/-- `prio_dequeue`. -/
def prioDequeue (s : Prio) : Option (Option Mbuf × Prio) :=
  if s.priv.bitmap = 0 then some (none, s)
  else
    let prio : ℤ := Bits.ffs (s.priv.bitmap.setWidth 32) - 1
    if prio < 0 then none
    else
      (s.priv.qArray prio.toNat).bind fun q =>
        let (m, s) := s.dequeue q
        if s.mq q = [] then
          (clearBit prio s.priv.bitmap).map fun bitmap =>
            let array := Function.update s.priv.qArray prio.toNat none
            (m, { s with priv := { bitmap := bitmap, qArray := array } })
        else some (m, s)

/-- `prio_new_fsk`: the priority is between 0 and `MAXPRIO - 1`. -/
def prioNewFsk (fs : DnFsk) : DnFsk :=
  { fs with fs := { fs.fs with
      par := Function.update fs.fs.par 0 (ipdnBoundVar (fs.fs.par 0) 0 0 (maxPrio - 1)) } }

/-- `prio_new_queue`, the part for a queue with packets whose priority has a queue: the packets
move to the end of that queue. The tail of an empty queue points to freed memory. -/
def prioAppend (s : Prio) (oldq q : QPtr) : Option Prio :=
  if oldq = q then some s
  else if s.mq oldq = [] then none
  else
    let o := s.queue oldq
    let d := s.queue q
    let o := { o with
      mq := o.mq ++ d.mq
      ni := { o.ni with
        length := o.ni.length + d.ni.length
        lenBytes := o.ni.lenBytes + d.ni.lenBytes } }
    let d := { d with mq := [], ni := { d.ni with length := 0, lenBytes := 0 } }
    some { s with queue := Function.update (Function.update s.queue oldq o) q d }

/-- `prio_new_queue`. -/
def prioNewQueue (s : Prio) (q : QPtr) : Option (ℕ × Prio) :=
  let prio := s.par q 0
  if s.mq q = [] then some (0, s)
  else
    (testBit prio s.priv.bitmap).bind fun busy =>
      if !busy then
        (setBit prio s.priv.bitmap).map fun bitmap =>
          let array := Function.update s.priv.qArray prio.toNat (some q)
          (0, { s with priv := { bitmap := bitmap, qArray := array } })
      else
        (s.priv.qArray prio.toNat).bind fun oldq => (prioAppend s oldq q).map fun s => (0, s)

/-- `prio_free_queue`. -/
def prioFreeQueue (s : Prio) (q : QPtr) (_safe : Bool) : Option (Bool × Prio) :=
  let prio := s.par q 0
  if s.priv.qArray prio.toNat = some q then
    (clearBit prio s.priv.bitmap).map fun bitmap =>
      let array := Function.update s.priv.qArray prio.toNat none
      (false, { s with priv := { bitmap := bitmap, qArray := array } })
  else some (false, s)

/-- `prio_desc`. -/
def prioDesc : DnAlg PrioSi Unit where
  zeroExt := ()
  newFsk := prioNewFsk
  newQueue := prioNewQueue
  freeQueue := prioFreeQueue
  enqueue := prioEnqueue
  dequeue := prioDequeue

namespace Prio

variable {s t : Prio} {q : QPtr}

/-! ### The bitmap -/

/-- The bitmap is a word of 32 bits, extended by its sign, and has the bits of the priorities
with a queue. -/
def BitmapOk (si : PrioSi) : Prop :=
  ∃ b : BitVec 32, si.bitmap = b.signExtend 64 ∧
    ∀ ix < 32, b.getLsbD ix = (si.qArray ix).isSome

theorem signExtend_eq_zero {b : BitVec 32} : b.signExtend 64 = 0 ↔ b = 0 := by
  constructor
  · intro h
    rw [Bits.eq_zero_iff] at h ⊢
    intro i hi
    rw [← getLsbD_signExtend_of_lt b hi]
    exact h i (by omega)
  · rintro rfl
    rfl

theorem setWidth_signExtend (b : BitVec 32) : (b.signExtend 64).setWidth 32 = b := by
  refine BitVec.eq_of_getLsbD_eq fun i hi => ?_
  rw [BitVec.getLsbD_setWidth, getLsbD_signExtend_of_lt b hi, decide_eq_true hi, Bool.true_and]

/-- The test of a bit tells whether the priority has a queue. -/
theorem BitmapOk.testBit {si : PrioSi} (h : BitmapOk si) {ix : ℕ} (hix : ix < 32) :
    testBit ix si.bitmap = some (si.qArray ix).isSome := by
  obtain ⟨b, hb, hbits⟩ := h
  rw [Dummynet.testBit, intBit_of_lt hix, hb, Option.map_some, ← BitVec.signExtend_and, ← hbits ix hix]
  congr 1
  rcases hbit : b.getLsbD ix with _ | _
  · rw [(Bits.and_twoPow_eq_zero b hix).2 hbit]
    simp
  · have hne : b &&& BitVec.twoPow 32 ix ≠ 0 := fun h0 => by
      rw [(Bits.and_twoPow_eq_zero b hix).1 h0] at hbit
      exact Bool.false_ne_true hbit
    simpa using signExtend_eq_zero.not.2 hne

/-- A queue enters the array. -/
theorem BitmapOk.set {si : PrioSi} (h : BitmapOk si) {ix : ℕ} (hix : ix < 32) (q : QPtr) :
    ∃ bitmap, setBit ix si.bitmap = some bitmap ∧
      BitmapOk ⟨bitmap, Function.update si.qArray ix (some q)⟩ := by
  obtain ⟨b, hb, hbits⟩ := h
  refine ⟨_, by rw [setBit, intBit_of_lt hix]; rfl, b ||| BitVec.twoPow 32 ix, ?_, fun j hj => ?_⟩
  · rw [hb, BitVec.signExtend_or]
  · rw [Bits.getLsbD_set b hix, hbits j hj]
    rcases eq_or_ne ix j with rfl | hne
    · simp
    · simp [hne, hne.symm]

/-- A queue leaves the array. -/
theorem BitmapOk.clear {si : PrioSi} (h : BitmapOk si) {ix : ℕ} (hix : ix < 32) :
    ∃ bitmap, clearBit ix si.bitmap = some bitmap ∧
      BitmapOk ⟨bitmap, Function.update si.qArray ix none⟩ := by
  obtain ⟨b, hb, hbits⟩ := h
  refine ⟨_, by rw [clearBit, intBit_of_lt hix]; rfl, b &&& ~~~ BitVec.twoPow 32 ix, ?_,
    fun j hj => ?_⟩
  · rw [hb, BitVec.signExtend_and, BitVec.signExtend_not (by decide)]
  · rw [Bits.getLsbD_clear b ix hj, hbits j hj]
    rcases eq_or_ne ix j with rfl | hne
    · simp
    · simp [hne, hne.symm]

/-- `ffs` finds the smallest priority with a queue. -/
theorem BitmapOk.ffs {si : PrioSi} (h : BitmapOk si) :
    si.bitmap = 0 ∧ (∀ ix < 32, si.qArray ix = none) ∨
      si.bitmap ≠ 0 ∧ ∃ ix < 32, Bits.ffs (si.bitmap.setWidth 32) = ix + 1 ∧
        (si.qArray ix).isSome ∧ ∀ j < ix, si.qArray j = none := by
  obtain ⟨b, hb, hbits⟩ := h
  have hnone : ∀ ix < 32, b.getLsbD ix = false → si.qArray ix = none := by
    intro ix hix hbit
    rwa [hbits ix hix, Option.isSome_eq_false_iff, Option.isNone_iff_eq_none] at hbit
  by_cases h0 : b = 0
  · refine .inl ⟨by rw [hb, h0]; rfl, fun ix hix => hnone ix hix (by rw [h0]; simp)⟩
  · obtain ⟨hlt, hset, hmin⟩ := Bits.first_spec h0
    refine .inr ⟨hb ▸ signExtend_eq_zero.not.2 h0, Bits.first b, hlt, ?_, ?_, fun j hj => ?_⟩
    · rw [hb, setWidth_signExtend, Bits.ffs, if_neg h0]
    · rw [← hbits _ hlt, hset]
    · exact hnone j (by omega) (hmin j hj)

/-! ### The invariant -/

/-- The array holds queues of the instance at their priorities, and among them, for every
priority, the one queue that has packets. -/
structure Inv (s : Prio) : Prop where
  prio : ∀ q ∈ s.live, 0 ≤ s.par q 0
  bitmap : BitmapOk s.priv
  array : ∀ ix q, s.priv.qArray ix = some q → q ∈ s.live ∧ s.par q 0 = ix ∧ ix < 32
  backlog : ∀ q ∈ s.live, s.mq q ≠ [] → s.priv.qArray (s.par q 0).toNat = some q

/-- No queue in the array is empty. -/
def Filled (s : Prio) : Prop := ∀ ix q, s.priv.qArray ix = some q → s.mq q ≠ []

theorem Inv.toNat_par (hi : Inv s) (hq : q ∈ s.live) : ((s.par q 0).toNat : ℤ) = s.par q 0 :=
  Int.toNat_of_nonneg (hi.prio q hq)

/-- A change in the packets of a queue that is in the array. -/
theorem Inv.of_sameBut {l : List Mbuf} (hi : Inv s) (h : SameBut s t q l)
    (hq : s.priv.qArray (s.par q 0).toNat = some q) : Inv t := by
  refine ⟨fun q' hq' => ?_, by rw [h.priv]; exact hi.bitmap, fun ix q' hq' => ?_,
    fun q' hq' hm => ?_⟩
  · rw [h.par]
    exact hi.prio q' (h.live ▸ hq')
  · rw [h.priv] at hq'
    rw [h.live, h.par]
    exact hi.array ix q' hq'
  · rw [h.par, h.priv]
    rcases eq_or_ne q' q with rfl | hne
    · exact hq
    · rw [h.mq_of_ne hne] at hm
      exact hi.backlog q' (h.live ▸ hq') hm

theorem Filled.of_sameBut {l : List Mbuf} (hf : Filled s) (h : SameBut s t q l) (hl : l ≠ []) :
    Filled t := by
  intro ix q' hq'
  rw [h.priv] at hq'
  rcases eq_or_ne q' q with rfl | hne
  · rw [h.mq_self]
    exact hl
  · rw [h.mq_of_ne hne]
    exact hf ix q' hq'

/-- A queue leaves the array, when it is empty or deleted. -/
theorem Inv.leave {ix : ℕ} {bitmap : BitVec 64} (hi : Inv s) (hqa : s.priv.qArray ix = some q)
    (hpriv : t.priv = ⟨bitmap, Function.update s.priv.qArray ix none⟩) (hbits : BitmapOk t.priv)
    (hother : ∀ q', q' ≠ q →
      (q' ∈ t.live ↔ q' ∈ s.live) ∧ t.par q' 0 = s.par q' 0 ∧ t.mq q' = s.mq q')
    (hself : q ∈ t.live → t.par q 0 = s.par q 0 ∧ t.mq q = []) :
    Inv t ∧ (Filled s → Filled t) := by
  obtain ⟨hl, hp, -⟩ := hi.array ix q hqa
  have harray : t.priv.qArray = Function.update s.priv.qArray ix none := by rw [hpriv]
  have hentry : ∀ j q', t.priv.qArray j = some q' → s.priv.qArray j = some q' ∧ q' ≠ q := by
    intro j q' hq'
    rw [harray] at hq'
    by_cases hj : j = ix
    · simp [hj] at hq'
    · rw [Function.update_of_ne hj] at hq'
      refine ⟨hq', ?_⟩
      rintro rfl
      have := (hi.array j q' hq').2.1
      omega
  refine ⟨⟨fun q' hq' => ?_, hbits, fun j q' hq' => ?_, fun q' hq' hm' => ?_⟩, fun hf j q' hq' => ?_⟩
  · rcases eq_or_ne q' q with rfl | hne
    · rw [(hself hq').1]
      exact hi.prio q' hl
    · obtain ⟨hmem, hpar, -⟩ := hother q' hne
      rw [hpar]
      exact hi.prio q' (hmem.1 hq')
  · obtain ⟨hq', hne⟩ := hentry j q' hq'
    obtain ⟨hmem, hpar, -⟩ := hother q' hne
    obtain ⟨hl', hp', hj⟩ := hi.array j q' hq'
    exact ⟨hmem.2 hl', hpar.trans hp', hj⟩
  · have hne : q' ≠ q := by
      rintro rfl
      exact hm' (hself hq').2
    obtain ⟨hmem, hpar, hmq⟩ := hother q' hne
    rw [hmq] at hm'
    have hback := hi.backlog q' (hmem.1 hq') hm'
    have hpq : (s.par q' 0).toNat ≠ ix := by
      intro hpq
      rw [hpq, hqa] at hback
      exact hne (Option.some.inj hback).symm
    rw [harray, hpar, Function.update_of_ne hpq]
    exact hback
  · obtain ⟨hq', hne⟩ := hentry j q' hq'
    rw [(hother q' hne).2.2]
    exact hf j q' hq'

/-- What a step has to meet: a packet arrives for a priority that can be shifted, and is not
dropped if its priority has no queue yet. -/
def PrioOk (s : Prio) : SchedOp → Prop
  | .enqueue q m r => s.par q 0 < 32 ∧
      (testBit (s.par q 0) s.priv.bitmap = some false → (s.enqueue q m false r).1 = false)
  | _ => True

instance (s : Prio) : (i : SchedOp) → Decidable (PrioOk s i)
  | .enqueue .. => inferInstanceAs (Decidable (_ ∧ _))
  | .new .. | .delete .. | .dequeue => instDecidableTrue

/-- **`prio_enqueue`** keeps the invariant, and leaves no empty queue in the array if the first
packet of a priority is accepted. -/
theorem prioEnqueue_inv {m : Mbuf} {r : Draws} {b : Bool} (hi : Inv s) (hq : q ∈ s.live)
    (he : prioEnqueue s q m r = some (b, t)) :
    Inv t ∧ (Filled s → PrioOk s (.enqueue q m r) → Filled t) := by
  have hcast := hi.toNat_par hq
  obtain ⟨busy, htest, hrest⟩ := Option.bind_eq_some_iff.1 he
  have hlt : (s.par q 0).toNat < 32 := by
    by_contra hlt
    rw [testBit, intBit, if_neg (by omega)] at htest
    simp at htest
  have hbits := hi.bitmap.testBit hlt
  rw [hcast, htest, Option.some.injEq] at hbits
  rcases hqa : s.priv.qArray (s.par q 0).toNat with _ | q₀
  · -- no queue with this priority: `q` enters the array
    obtain ⟨bitmap, hset, hbits'⟩ := hi.bitmap.set hlt q
    rw [hcast] at hset
    rw [hqa, Option.isSome_none] at hbits
    subst hbits
    simp only [Bool.not_false, if_true, hset, Option.map_some, Option.some.injEq] at hrest
    let s₁ : Prio := { s with priv := ⟨bitmap, Function.update s.priv.qArray (s.par q 0).toNat q⟩ }
    obtain ⟨b', t', heq, hbut⟩ := Inst.enqueue_spec s₁ q m false r
    obtain ⟨rfl, rfl⟩ := Prod.mk.inj (heq.symm.trans hrest)
    have hempty : ∀ q' ∈ s.live, s.par q' 0 = s.par q 0 → s.mq q' = [] := by
      intro q' hq' hp
      by_contra hm
      have := hi.backlog q' hq' hm
      rw [hp, hqa] at this
      simp at this
    have hpriv : t'.priv.qArray = Function.update s.priv.qArray (s.par q 0).toNat q := by
      rw [hbut.priv]
    have hpar : ∀ q', t'.par q' 0 = s.par q' 0 := fun q' => hbut.par q' 0
    have hentry : ∀ ix q', t'.priv.qArray ix = some q' → q' = q ∧ ix = (s.par q 0).toNat ∨
        q' ≠ q ∧ s.priv.qArray ix = some q' := by
      intro ix q' hq'
      rw [hpriv] at hq'
      by_cases hix : ix = (s.par q 0).toNat
      · subst hix
        exact .inl ⟨by simpa using hq'.symm, rfl⟩
      · rw [Function.update_of_ne hix] at hq'
        refine .inr ⟨?_, hq'⟩
        rintro rfl
        have := (hi.array ix q' hq').2.1
        omega
    refine ⟨⟨fun q' hq' => ?_, by rw [hbut.priv]; exact hbits', fun ix q' hq' => ?_,
      fun q' hq' hm => ?_⟩, fun hf hok ix q' hq' => ?_⟩
    · rw [hpar]
      exact hi.prio q' (hbut.live ▸ hq')
    · rw [hbut.live, hpar]
      rcases hentry ix q' hq' with ⟨rfl, rfl⟩ | ⟨-, hq'⟩
      · exact ⟨hq, hcast.symm, hlt⟩
      · exact hi.array ix q' hq'
    · rw [hpriv, hpar]
      rcases eq_or_ne q' q with rfl | hne
      · rw [Function.update_self]
      · have hl : q' ∈ s.live := hbut.live ▸ hq'
        have hm' : s.mq q' ≠ [] := by rwa [hbut.mq_of_ne hne] at hm
        have hp : s.par q' 0 ≠ s.par q 0 := fun hp => hm' (hempty q' hl hp)
        have h0 := hi.prio q' hl
        rw [Function.update_of_ne (by omega)]
        exact hi.backlog q' hl hm'
    · rcases hentry ix q' hq' with ⟨rfl, -⟩ | ⟨hne, hq'⟩
      · have hb : b' = false := (congrArg Prod.fst heq).symm.trans (hok.2 htest)
        rw [hb] at hbut
        simp [hbut.mq_self]
      · rw [hbut.mq_of_ne hne]
        exact hf ix q' hq'
  · -- the packet goes to the queue that has this priority
    rw [hqa, Option.isSome_some] at hbits
    subst hbits
    simp only [Bool.not_true, Bool.false_eq_true, if_false, hqa, Option.map_some,
      Option.some.injEq] at hrest
    obtain ⟨b', t', heq, hbut⟩ := Inst.enqueue_spec s q₀ m false r
    obtain ⟨rfl, rfl⟩ := Prod.mk.inj (heq.symm.trans hrest)
    have hp := (hi.array _ _ hqa).2.1
    refine ⟨hi.of_sameBut hbut ?_, fun hf _ => hf.of_sameBut hbut ?_⟩
    · rw [hp, Int.toNat_natCast, hqa]
    · have hm := hf _ _ hqa
      cases b' <;> simp [hm]

/-- The queue that `prio_dequeue` takes a packet from. -/
theorem prioDequeue_of_first {ix : ℕ} {o : Option Mbuf} {s₁ : Prio} (h0 : s.priv.bitmap ≠ 0)
    (hffs : Bits.ffs (s.priv.bitmap.setWidth 32) = ix + 1) (hqa : s.priv.qArray ix = some q)
    (hs₁ : s.dequeue q = (o, s₁)) :
    prioDequeue s = if s₁.mq q = [] then (clearBit ix s₁.priv.bitmap).map fun bitmap =>
        (o, { s₁ with priv := ⟨bitmap, Function.update s₁.priv.qArray ix none⟩ })
      else some (o, s₁) := by
  have hprio : ((Bits.ffs (s.priv.bitmap.setWidth 32) : ℤ) - 1) = ix := by
    rw [hffs]
    push_cast
    ring
  rw [prioDequeue, if_neg h0]
  simp only [hprio, if_neg (show ¬ (ix : ℤ) < 0 by omega), Int.toNat_natCast, hqa,
    Option.bind_some, hs₁]

/-- Strict priority and work conservation: the scheduler returns nothing exactly if no queue of
the instance holds a packet, and otherwise the head of a queue with packets and the smallest
priority number. -/
def Strict (s : Prio) : Prop :=
  ∃ o t, prioDequeue s = some (o, t) ∧ (o = none ↔ ∀ q ∈ s.live, s.mq q = []) ∧
    ∀ m, o = some m → ∃ q ∈ s.live, ∃ rest, s.mq q = m :: rest ∧
      (∀ q', t.mq q' = Function.update s.mq q rest q') ∧
      ∀ q' ∈ s.live, s.mq q' ≠ [] → s.par q 0 ≤ s.par q' 0

/-- **`prio_dequeue`** on a state without empty queues in the array. -/
theorem prioDequeue_strict (hi : Inv s) (hf : Filled s) : Strict s := by
  rcases hi.bitmap.ffs with ⟨h0, hnone⟩ | ⟨h0, ix, hlt, hffs, hsome, hmin⟩
  · refine ⟨none, s, by rw [prioDequeue, if_pos h0], iff_of_true rfl fun q hq => ?_, by simp⟩
    by_contra hm
    have hqa := hi.backlog q hq hm
    have hlt := (hi.array _ _ hqa).2.2
    rw [hnone _ hlt] at hqa
    simp at hqa
  · obtain ⟨q, hqa⟩ := Option.isSome_iff_exists.1 hsome
    obtain ⟨hl, hp, -⟩ := hi.array ix q hqa
    have hm := hf ix q hqa
    obtain ⟨m, rest, hmq⟩ := List.exists_cons_of_ne_nil hm
    obtain ⟨s₁, hs₁, hbut⟩ := Inst.dequeue_spec hmq
    have hfirst : ∀ q' ∈ s.live, s.mq q' ≠ [] → s.par q 0 ≤ s.par q' 0 := by
      intro q' hq' hm'
      by_contra hlt'
      have h1 := hi.backlog q' hq' hm'
      have h2 := hi.prio q' hq'
      rw [hmin _ (by omega)] at h1
      simp at h1
    obtain ⟨bitmap, hclear, -⟩ := hi.bitmap.clear hlt
    rw [Strict, prioDequeue_of_first h0 hffs hqa hs₁, hbut.mq_self, hbut.priv, hclear]
    have hne : ¬ ∀ q ∈ s.live, s.mq q = [] := fun h => hm (h q hl)
    by_cases hr : rest = []
    · refine ⟨_, _, by rw [if_pos hr]; rfl, iff_of_false (by simp) hne, ?_⟩
      rintro _ ⟨⟩
      exact ⟨q, hl, rest, hmq, hbut.mq, hfirst⟩
    · refine ⟨_, _, by rw [if_neg hr], iff_of_false (by simp) hne, ?_⟩
      rintro _ ⟨⟩
      exact ⟨q, hl, rest, hmq, hbut.mq, hfirst⟩

/-- **`prio_dequeue`** keeps the invariant. -/
theorem prioDequeue_inv {o : Option Mbuf} (hi : Inv s) (he : prioDequeue s = some (o, t)) :
    Inv t ∧ (Filled s → Filled t) := by
  rcases hi.bitmap.ffs with ⟨h0, -⟩ | ⟨h0, ix, hlt, hffs, hsome, -⟩
  · rw [prioDequeue, if_pos h0] at he
    obtain ⟨rfl, rfl⟩ := Prod.mk.inj (Option.some.inj he)
    exact ⟨hi, id⟩
  · obtain ⟨q, hqa⟩ := Option.isSome_iff_exists.1 hsome
    obtain ⟨hl, hp, -⟩ := hi.array ix q hqa
    obtain ⟨m, rest, s₁, hs₁, hbut⟩ : ∃ m rest s₁, s.dequeue q = (m, s₁) ∧ SameBut s s₁ q rest := by
      rcases hmq : s.mq q with _ | ⟨m, rest⟩
      · refine ⟨none, [], s, Inst.dequeue_nil hmq, rfl, rfl, rfl, fun _ => rfl, fun _ => rfl,
          fun _ h => h, fun q' => ?_⟩
        rw [← hmq, Function.update_eq_self]
      · obtain ⟨s₁, hs₁, hbut⟩ := Inst.dequeue_spec hmq
        exact ⟨some m, rest, s₁, hs₁, hbut⟩
    obtain ⟨bitmap, hclear, hbits⟩ := hi.bitmap.clear hlt
    rw [prioDequeue_of_first h0 hffs hqa hs₁, hbut.mq_self, hbut.priv, hclear] at he
    -- whether the queue is empty now decides if it stays in the array
    split_ifs at he with hr
    · obtain ⟨rfl, rfl⟩ := Prod.mk.inj (Option.some.inj he)
      refine hi.leave hqa rfl hbits (fun q' hne' => ?_) fun _ => ?_
      · exact ⟨Iff.of_eq (congrArg (q' ∈ ·) hbut.live), hbut.par q' 0, hbut.mq_of_ne hne'⟩
      · exact ⟨hbut.par q 0, hbut.mq_self.trans hr⟩
    · obtain ⟨rfl, rfl⟩ := Prod.mk.inj (Option.some.inj he)
      exact ⟨hi.of_sameBut hbut (by rw [hp, Int.toNat_natCast, hqa]),
        fun hf => hf.of_sameBut hbut hr⟩

/-- **A new queue** is empty and not in the array. -/
theorem qNew_inv {fs : DnFsk} (hi : Inv s) (hq : q ∉ s.live)
    (he : qNew prioDesc s q (prioDesc.newFsk fs) = some t) : Inv t ∧ (Filled s → Filled t) := by
  rw [qNew, Option.map_eq_some_iff] at he
  obtain ⟨⟨e, u⟩, hu, rfl⟩ := he
  simp only [prioDesc, prioNewQueue, Inst.mq, Function.update_self, if_true, Option.some.injEq,
    Prod.mk.injEq] at hu
  obtain ⟨-, rfl⟩ := hu
  have hself : ∀ ix, s.priv.qArray ix ≠ some q := fun ix h => hq (hi.array ix q h).1
  refine ⟨⟨fun q' hq' => ?_, hi.bitmap, fun ix q' hq' => ?_, fun q' hq' hm => ?_⟩,
    fun hf ix q' hq' => ?_⟩
  · rcases eq_or_ne q' q with rfl | hne
    · have hlo := (@ipdnBoundVar_mem (fs.fs.par 0) 0 0 (maxPrio - 1) (by decide)).1
      simpa [Inst.par, DnQueue.par, prioNewFsk] using hlo
    · have hl : q' ∈ s.live := by simpa [hne] using hq'
      simpa [Inst.par, hne] using hi.prio q' hl
  · have hne : q' ≠ q := by
      rintro rfl
      exact hself ix hq'
    obtain ⟨hl, hp, hix⟩ := hi.array ix q' hq'
    exact ⟨by simp [hl], by simpa [Inst.par, hne] using hp, hix⟩
  · have hne : q' ≠ q := by
      rintro rfl
      simp [Inst.mq] at hm
    have hl : q' ∈ s.live := by simpa [hne] using hq'
    have := hi.backlog q' hl (by simpa [Inst.mq, hne] using hm)
    simpa [Inst.par, hne] using this
  · have hne : q' ≠ q := by
      rintro rfl
      exact hself ix hq'
    simpa [Inst.mq, hne] using hf ix q' hq'

/-- **`dn_delete_queue`** always deletes the queue, which leaves the array if it is there. -/
theorem dnDeleteQueue_inv {destroy safe b : Bool} (hi : Inv s) (hq : q ∈ s.live)
    (he : dnDeleteQueue prioDesc s q destroy safe = some (b, t)) :
    b = false ∧ Inv t ∧ (Filled s → Filled t) ∧ t.live = s.live.erase q ∧
      ∀ q', q' ≠ q → t.mq q' = s.mq q' := by
  rw [dnDeleteQueue, Option.map_eq_some_iff] at he
  obtain ⟨⟨b', u⟩, hu, ht⟩ := he
  have hcast := hi.toNat_par hq
  simp only [prioDesc, prioFreeQueue] at hu
  -- the state after the callback keeps the queues, and the array without `q`
  have hmain : ∀ {u : Prio}, removeQueue u q destroy = t → u.live = s.live → u.queue = s.queue →
      t.priv = u.priv ∧ t.live = s.live.erase q ∧
      ∀ q', q' ≠ q → (q' ∈ t.live ↔ q' ∈ s.live) ∧ t.par q' 0 = s.par q' 0 ∧ t.mq q' = s.mq q' := by
    rintro u rfl hul huq
    obtain ⟨hpriv, -, hlive, hqueue⟩ := removeQueue_spec u q destroy
    rw [hul] at hlive
    rw [huq] at hqueue
    refine ⟨hpriv, hlive, fun q' hne => ⟨by simp [hlive, hne], ?_, ?_⟩⟩
    · rw [Inst.par, hqueue q' hne]
      rfl
    · rw [Inst.mq, hqueue q' hne]
      rfl
  by_cases hqa : s.priv.qArray (s.par q 0).toNat = some q
  · obtain ⟨bitmap, hclear, hbits⟩ := hi.bitmap.clear (hi.array _ _ hqa).2.2
    rw [hcast] at hclear
    simp only [hqa, if_true, hclear, Option.map_some, Option.some.injEq, Prod.mk.injEq] at hu
    obtain ⟨rfl, rfl⟩ := hu
    simp only [Bool.false_eq_true, if_false, Prod.mk.injEq] at ht
    obtain ⟨hpriv, hlive, hother⟩ := hmain ht.2 rfl rfl
    obtain ⟨hinv, hfill⟩ := hi.leave hqa hpriv (by rw [hpriv]; exact hbits) hother fun h => by
      simp [hlive] at h
    exact ⟨ht.1.symm, hinv, hfill, hlive, fun q' hne => (hother q' hne).2.2⟩
  · simp only [hqa, if_false, Option.some.injEq, Prod.mk.injEq] at hu
    obtain ⟨rfl, rfl⟩ := hu
    simp only [Bool.false_eq_true, if_false, Prod.mk.injEq] at ht
    obtain ⟨hpriv, hlive, hother⟩ := hmain ht.2 rfl rfl
    have hnot : ∀ ix, s.priv.qArray ix ≠ some q := by
      intro ix h
      obtain ⟨-, hp, -⟩ := hi.array ix q h
      rw [hp, Int.toNat_natCast] at hqa
      exact hqa h
    have hentry : ∀ ix q', t.priv.qArray ix = some q' → s.priv.qArray ix = some q' ∧ q' ≠ q := by
      intro ix q' hq'
      rw [hpriv] at hq'
      refine ⟨hq', ?_⟩
      rintro rfl
      exact hnot ix hq'
    refine ⟨ht.1.symm, ⟨fun q' hq' => ?_, by rw [hpriv]; exact hi.bitmap, fun ix q' hq' => ?_,
      fun q' hq' hm => ?_⟩, fun hf ix q' hq' => ?_, hlive, fun q' hne => (hother q' hne).2.2⟩
    · have hne : q' ≠ q := fun h => by simp [hlive, h] at hq'
      rw [(hother q' hne).2.1]
      exact hi.prio q' ((hother q' hne).1.1 hq')
    · obtain ⟨hq', hne⟩ := hentry ix q' hq'
      obtain ⟨hmem, hpar, -⟩ := hother q' hne
      obtain ⟨hl, hp, hix⟩ := hi.array ix q' hq'
      exact ⟨hmem.2 hl, hpar.trans hp, hix⟩
    · have hne : q' ≠ q := fun h => by simp [hlive, h] at hq'
      obtain ⟨hmem, hpar, hmq⟩ := hother q' hne
      rw [hpriv, hpar]
      exact hi.backlog q' (hmem.1 hq') (hmq ▸ hm)
    · obtain ⟨hq', hne⟩ := hentry ix q' hq'
      rw [(hother q' hne).2.2]
      exact hf ix q' hq'

/-! ### Runs -/

/-- An instance right after `prio_new_sched`, without queues. -/
structure IsNew (s : Prio) : Prop where
  priv : s.priv = {}
  live : s.live = ∅

theorem IsNew.inv (h : IsNew s) : Inv s ∧ Filled s := by
  have hno : ∀ q, q ∉ s.live := by simp [h.live]
  have hnone : ∀ ix, s.priv.qArray ix = none := by simp [h.priv]
  refine ⟨⟨fun q hq => absurd hq (hno q), ⟨0, by rw [h.priv]; rfl, fun ix _ => by simp [hnone]⟩,
    fun ix q hq => ?_, fun q hq => absurd hq (hno q)⟩, fun ix q hq => ?_⟩
  · simp [hnone] at hq
  · simp [hnone] at hq

/-- **Every step keeps the invariant**, and under `PrioOk` no empty queue is in the array. -/
theorem step_inv {i : SchedOp} {o : Option Mbuf} (hi : Inv s) (hp : i.Promised s)
    (he : prioDesc.step s i = some (o, t)) : Inv t ∧ (Filled s → PrioOk s i → Filled t) := by
  rcases i with ⟨q, fs⟩ | ⟨q, destroy, safe⟩ | ⟨q, m, r⟩ | _
  · obtain ⟨u, hu, hut⟩ := Option.map_eq_some_iff.1 he
    obtain ⟨rfl, rfl⟩ := Prod.mk.inj hut
    obtain ⟨hinv, hfill⟩ := qNew_inv hi hp.1 hu
    exact ⟨hinv, fun hf _ => hfill hf⟩
  · obtain ⟨⟨b, u⟩, hu, hut⟩ := Option.map_eq_some_iff.1 he
    obtain ⟨rfl, rfl⟩ := Prod.mk.inj hut
    obtain ⟨-, hinv, hfill, -⟩ := dnDeleteQueue_inv hi hp hu
    exact ⟨hinv, fun hf _ => hfill hf⟩
  · obtain ⟨⟨b, u⟩, hu, hut⟩ := Option.map_eq_some_iff.1 he
    obtain ⟨rfl, rfl⟩ := Prod.mk.inj hut
    exact prioEnqueue_inv hi hp.1 hu
  · obtain ⟨hinv, hfill⟩ := prioDequeue_inv hi he
    exact ⟨hinv, fun hf _ => hfill hf⟩

/-- **Every run keeps the invariant.** -/
theorem run_inv {l : List (SchedOp × Option Mbuf)} (hs : IsNew s)
    (hrun : Runs.Run prioDesc.step (fun s i _ => i.Promised s) s l t) : Inv t :=
  hrun.invariant (I := Inv) (fun _ i _ _ hi (hp : i.Promised _) he => (step_inv hi hp he).1)
    hs.inv.1

/-- **Strict priority.** In every state that a run reaches in which packets arrive for priorities
below 32 only and the first packet of a priority is not dropped, PRIO returns nothing exactly if no
packet is queued, and otherwise the head of the queue with the smallest priority number. -/
theorem strict_of_run {l : List (SchedOp × Option Mbuf)} (hs : IsNew s)
    (hrun : Runs.Run prioDesc.step (fun s i _ => i.Promised s ∧ PrioOk s i) s l t) : Strict t := by
  obtain ⟨hi, hf⟩ : Inv t ∧ Filled t :=
    hrun.invariant (I := fun s => Inv s ∧ Filled s) (fun _ _ _ _ hi hok he =>
      have h := step_inv hi.1 hok.1 he
      ⟨h.1, h.2 hi.2 hok.2⟩) hs.inv
  exact prioDequeue_strict hi hf

/-- An instance without queues. -/
def emptyInst : Prio where
  si := 1
  cfg := {}
  ni := {}
  qCount := 0
  priv := {}
  queue := fun _ => {}
  ext := fun _ => ()
  live := ∅

/-- A flowset of priority `p` with the loss rate `plr`. -/
def prioFlow (p plr : ℤ) : DnFsk := { fs := { plr := plr, par := fun _ => p } }

/-- A packet of 100 bytes. -/
def smallPkt : Mbuf := ⟨0, 100, by decide⟩

/-- Two priorities with a packet each are served in their order. -/
theorem strict_of_two_packets : ∃ t : Prio, t.mq 1 ≠ [] ∧ t.mq 2 ≠ [] ∧ Strict t := by
  have hexec : ((Runs.exec prioDesc.step (fun s i _ => i.Promised s ∧ PrioOk s i) emptyInst
      [.new 1 (prioFlow 0 0), .new 2 (prioFlow 1 0), .enqueue 2 smallPkt {},
        .enqueue 1 smallPkt {}]).any fun t => decide (t.mq 1 ≠ [] ∧ t.mq 2 ≠ [])) = true := by
    decide +kernel
  obtain ⟨t, ht, hmq⟩ := (Option.any_eq_true _ _).1 hexec
  obtain ⟨l, hl⟩ := Runs.Run.of_exec ht
  obtain ⟨h1, h2⟩ := of_decide_eq_true hmq
  exact ⟨t, h1, h2, strict_of_run ⟨rfl, rfl⟩ hl⟩

/-- **A dropped packet.** A packet of priority 0 is lost at random when priority 1 has a packet;
then `prio_dequeue` returns nothing. -/
theorem not_strict_of_drop :
    ¬ ∀ (s t : Prio) (l : List (SchedOp × Option Mbuf)), IsNew s →
      Runs.Run prioDesc.step (fun s i _ => i.Promised s) s l t → Strict t := by
  intro hall
  have hexec : ((Runs.exec prioDesc.step (fun s i _ => i.Promised s) emptyInst
      [.new 1 (prioFlow 0 1000), .new 2 (prioFlow 1 0), .enqueue 2 smallPkt {},
        .enqueue 1 smallPkt {}]).any fun t =>
          decide (2 ∈ t.live ∧ t.mq 2 ≠ [] ∧ (prioDequeue t).map Prod.fst = some none)) = true := by
    decide +kernel
  obtain ⟨t, ht, hmq⟩ := (Option.any_eq_true _ _).1 hexec
  obtain ⟨l, hl⟩ := Runs.Run.of_exec ht
  obtain ⟨h1, h2, h3⟩ := of_decide_eq_true hmq
  obtain ⟨o, u, ho, hnone, -⟩ := hall _ _ _ ⟨rfl, rfl⟩ hl
  rw [ho, Option.map_some, Option.some.injEq] at h3
  exact h2 (hnone.1 h3 2 h1)

end Prio

end Dummynet
