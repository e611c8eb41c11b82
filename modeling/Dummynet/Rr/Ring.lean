import Dummynet.Rr.Model
import Dummynet.Lib.Ring

/-!
# The ring of the round robin scheduler

The queues in the ring are linked by `qnext`, and the field `status` says which queues these are.
The helpers of `dn_sched_rr.c` append a queue, remove the head or another element, and advance the
head; each of them touches the credit of one queue at most.

## Main definitions

* `Ringed`: the content of the ring.
* `credit`: the credit of the queues.
* `need`: how much credit a packet still needs.

## Main results

* `rrAppend_spec`, `rrRemoveHead_spec`, `nextPointer_spec`, `removeQueueQ_spec`: the helpers.
-/

namespace Dummynet.Rr

variable {s t u : Rr} {q : QPtr} {l : List QPtr}

/-! ### The ring -/

/-- The queues in the ring are `l`, and the field `status` says which queues these are. -/
structure Ringed (s : Rr) (l : List QPtr) : Prop where
  ring : Ring.IsRing (qnext s) s.priv.head s.priv.tail l
  status : ∀ q ∈ s.live, (s.ext q).status = if q ∈ l then 1 else 0

/-- The credit of the queues. -/
def credit (s : Rr) (q : QPtr) : BitVec 32 := (s.ext q).credit

/-- The two states have the same queues, with the same packets and quanta. -/
structure Kept (s t : Rr) : Prop where
  live : t.live = s.live
  queue : t.queue = s.queue
  quantum : ∀ q, (t.ext q).quantum = (s.ext q).quantum

theorem Kept.trans (h : Kept s t) (h' : Kept t u) : Kept s u :=
  ⟨h'.live.trans h.live, h'.queue.trans h.queue, fun q => (h'.quantum q).trans (h.quantum q)⟩

theorem Kept.mq (h : Kept s t) (q : QPtr) : t.mq q = s.mq q := by
  rw [Inst.mq, h.queue]
  rfl

/-- A change of the extension that leaves the field `g` alone. -/
theorem modify_field {β : Type} (g : RrQueue → β) {f : RrQueue → RrQueue} (hg : ∀ x, g (f x) = g x)
    (s : Rr) (q q' : QPtr) : g ((modify s q f).ext q') = g (s.ext q') := by
  rcases eq_or_ne q' q with rfl | hne
  · simp [modify, hg]
  · simp [modify, hne]

@[simp] theorem status_setNext (s : Rr) (q q' : QPtr) (n : Option QPtr) :
    ((setNext s q n).ext q').status = (s.ext q').status :=
  modify_field RrQueue.status (by intro _; rfl) s q q'

@[simp] theorem status_setCredit (s : Rr) (q q' : QPtr) (x : BitVec 32) :
    ((setCredit s q x).ext q').status = (s.ext q').status :=
  modify_field RrQueue.status (by intro _; rfl) s q q'

theorem status_setStatus (s : Rr) (q q' : QPtr) (x : ℤ) :
    ((setStatus s q x).ext q').status = if q' = q then x else (s.ext q').status := by
  split_ifs with h
  · simp [setStatus, modify, h]
  · simp [setStatus, modify, h]

@[simp] theorem qnext_setNext (s : Rr) (q : QPtr) (n : Option QPtr) :
    qnext (setNext s q n) = Function.update (qnext s) q n := by
  funext q'
  rcases eq_or_ne q' q with rfl | hne
  · simp [qnext, setNext, modify]
  · simp [qnext, setNext, modify, hne]

@[simp] theorem qnext_setStatus (s : Rr) (q : QPtr) (x : ℤ) : qnext (setStatus s q x) = qnext s :=
  funext (modify_field RrQueue.qnext (by intro _; rfl) s q)

@[simp] theorem qnext_setCredit (s : Rr) (q : QPtr) (x : BitVec 32) :
    qnext (setCredit s q x) = qnext s :=
  funext (modify_field RrQueue.qnext (by intro _; rfl) s q)

@[simp] theorem credit_setNext (s : Rr) (q : QPtr) (n : Option QPtr) :
    credit (setNext s q n) = credit s :=
  funext (modify_field RrQueue.credit (by intro _; rfl) s q)

@[simp] theorem credit_setStatus (s : Rr) (q : QPtr) (x : ℤ) :
    credit (setStatus s q x) = credit s :=
  funext (modify_field RrQueue.credit (by intro _; rfl) s q)

@[simp] theorem credit_setCredit (s : Rr) (q : QPtr) (x : BitVec 32) :
    credit (setCredit s q x) = Function.update (credit s) q x := by
  funext q'
  rcases eq_or_ne q' q with rfl | hne
  · simp [credit, setCredit, modify]
  · simp [credit, setCredit, modify, hne]

@[simp] theorem credit_setEnds (s : Rr) (h t : Option QPtr) : credit (setEnds s h t) = credit s :=
  rfl

@[simp] theorem quantum_setNext (s : Rr) (q q' : QPtr) (n : Option QPtr) :
    ((setNext s q n).ext q').quantum = (s.ext q').quantum :=
  modify_field RrQueue.quantum (by intro _; rfl) s q q'

@[simp] theorem quantum_setStatus (s : Rr) (q q' : QPtr) (x : ℤ) :
    ((setStatus s q x).ext q').quantum = (s.ext q').quantum :=
  modify_field RrQueue.quantum (by intro _; rfl) s q q'

@[simp] theorem quantum_setCredit (s : Rr) (q q' : QPtr) (x : BitVec 32) :
    ((setCredit s q x).ext q').quantum = (s.ext q').quantum :=
  modify_field RrQueue.quantum (by intro _; rfl) s q q'

@[simp] theorem priv_setNext (s : Rr) (q : QPtr) (n : Option QPtr) :
    (setNext s q n).priv = s.priv := rfl

@[simp] theorem priv_setStatus (s : Rr) (q : QPtr) (x : ℤ) : (setStatus s q x).priv = s.priv := rfl

@[simp] theorem priv_setCredit (s : Rr) (q : QPtr) (x : BitVec 32) :
    (setCredit s q x).priv = s.priv := rfl

@[simp] theorem priv_setEnds (s : Rr) (h t : Option QPtr) : (setEnds s h t).priv = ⟨h, t⟩ := rfl

@[simp] theorem ext_setEnds (s : Rr) (h t : Option QPtr) : (setEnds s h t).ext = s.ext := rfl

@[simp] theorem qnext_setEnds (s : Rr) (h t : Option QPtr) : qnext (setEnds s h t) = qnext s := rfl

/-- A queue that is not in the ring becomes its last element, with its quantum as credit. -/
theorem rrAppend_spec (h : Ringed s l) (hq : q ∉ l) :
    ∃ t, rrAppend s q = some t ∧ Kept s t ∧
      credit t = Function.update (credit s) q (s.ext q).quantum ∧ Ringed t (l ++ [q]) := by
  let c := setCredit (setStatus s q 1) q ((setStatus s q 1).ext q).quantum
  have hc : qnext c = qnext s := by simp [c]
  have hcredit : credit c = Function.update (credit s) q (s.ext q).quantum := by simp [c]
  have hstatus : ∀ q' ∈ s.live, (c.ext q').status = if q' ∈ l ++ [q] then 1 else 0 := by
    intro q' hq'
    rw [status_setCredit, status_setStatus, h.status q' hq']
    by_cases he : q' = q
    · simp [he]
    · simp [he]
  rcases l with _ | ⟨a, l⟩
  · have hhead : c.priv.head = none := h.ring.head_eq
    refine ⟨setNext (setEnds c (some q) (some q)) q (some q), ?_, ⟨rfl, rfl, ?_⟩, ?_, ?_, ?_⟩
    · simp only [rrAppend, c] at hhead ⊢
      rw [hhead]
    · simp [c]
    · simpa using hcredit
    · simpa [hc] using Ring.IsRing.single (qnext s) q
    · exact fun q' hq' => by simpa using hstatus q' hq'
  · obtain ⟨b, htail, hring⟩ := h.ring.push hq
    have hhead : c.priv.head = some a := h.ring.head_eq
    have htail : c.priv.tail = some b := htail
    refine ⟨setNext (setEnds (setNext c b (some q)) (some a) (some q)) q (some a), ?_,
      ⟨rfl, rfl, ?_⟩, ?_, ?_, ?_⟩
    · simp only [rrAppend, c] at hhead htail ⊢
      rw [hhead, htail]
      rfl
    · simp [c]
    · simpa using hcredit
    · rw [show s.priv.head = some a from hhead] at hring
      simpa [hc] using hring
    · exact fun q' hq' => by simpa using hstatus q' hq'

/-- The head goes out of the ring. -/
theorem rrRemoveHead_spec (h : Ringed s (q :: l)) :
    ∃ t, rrRemoveHead s = some t ∧ Kept s t ∧ credit t = credit s ∧ Ringed t l := by
  have hhead : s.priv.head = some q := h.ring.head_eq
  have hnd := List.nodup_cons.1 h.ring.nodup
  have hstatus : ∀ q' ∈ s.live, ((setStatus s q 0).ext q').status = if q' ∈ l then 1 else 0 := by
    intro q' hq'
    rw [status_setStatus, h.status q' hq']
    by_cases he : q' = q
    · simp [he, hnd.1]
    · simp [he]
  by_cases hl : l = []
  · have heq : s.priv.head = s.priv.tail := h.ring.head_eq_tail.2 hl
    refine ⟨setEnds (setStatus s q 0) none none, ?_, ⟨rfl, rfl, ?_⟩, ?_, ?_, hstatus⟩
    · simp only [rrRemoveHead]
      rw [hhead]
      exact if_pos heq
    · simp
    · simp
    · rw [hl]
      exact Ring.IsRing.nil _
  · have hne : s.priv.head ≠ s.priv.tail := fun he => hl (h.ring.head_eq_tail.1 he)
    obtain ⟨b, htail, hring⟩ := h.ring.pop hl
    refine ⟨setNext (setEnds (setStatus s q 0) (qnext s q) (some b)) b (qnext s q), ?_,
      ⟨rfl, rfl, ?_⟩, ?_, ?_, ?_⟩
    · simp only [rrRemoveHead]
      rw [hhead]
      refine (if_neg hne).trans ?_
      rw [priv_setStatus, htail, Option.map_some, qnext_setStatus]
    · simp
    · simp
    · rw [htail] at hring
      simpa using hring
    · exact fun q' hq' => by simpa using hstatus q' hq'

/-- The head becomes the last element of the ring. -/
theorem nextPointer_spec (h : Ringed s (q :: l)) :
    ∃ t, nextPointer s = some t ∧ Kept s t ∧ t.ext = s.ext ∧ Ringed t (l ++ [q]) := by
  obtain ⟨b, htail, hring⟩ := h.ring.rotate
  refine ⟨setEnds s (qnext s q) (qnext s b), ?_, ⟨rfl, rfl, fun _ => rfl⟩, rfl, hring,
    fun q' hq' => ?_⟩
  · rw [nextPointer, show s.priv.head = some q from h.ring.head_eq, htail]
    rfl
  · rw [ext_setEnds, h.status q' hq']
    simp [or_comm]

/-- An element behind another one goes out of the ring. -/
theorem unlink_spec {a : QPtr} {l₁ l₂ : List QPtr} (h : Ringed s (l₁ ++ a :: q :: l₂)) :
    Kept s (unlink s q a) ∧ credit (unlink s q a) = credit s ∧
      Ringed (unlink s q a) (l₁ ++ a :: l₂) := by
  obtain ⟨-, hring⟩ := h.ring.splice
  have hnd := h.ring.nodup
  have hperm : (l₁ ++ a :: q :: l₂).Perm (q :: (l₁ ++ a :: l₂)) := by
    rw [List.append_cons l₁ a (q :: l₂), List.append_cons l₁ a l₂]
    exact List.perm_middle
  have hq : q ∉ l₁ ++ a :: l₂ := (List.nodup_cons.1 (hperm.nodup_iff.1 h.ring.nodup)).1
  refine ⟨⟨rfl, rfl, fun q' => ?_⟩, ?_, ⟨?_, fun q' hq' => ?_⟩⟩
  · simp [unlink]
  · simp [unlink]
  · simpa [unlink] using hring
  · have hmem := hperm.mem_iff (a := q')
    rw [unlink, status_setStatus, ext_setEnds, status_setNext, h.status q' hq']
    by_cases he : q' = q
    · rw [if_pos he, if_neg (he ▸ hq)]
    · simp only [hmem, List.mem_cons, he, if_false, false_or]

/-- The loop stops at the element before `q`. -/
theorem removeLoop_eq {a : QPtr} {l₁ l₂ : List QPtr} {p e : Option QPtr} {n : ℕ}
    (h : Ring.Seg (qnext s) p (l₁ ++ a :: q :: l₂) e) (hq : q ∉ l₁ ++ [a]) (hn : l₁.length < n) :
    removeLoop n s q p = some (unlink s q a) := by
  induction l₁ generalizing p n with
  | nil =>
    obtain ⟨n, rfl⟩ := Nat.exists_eq_succ_of_ne_zero hn.ne'
    obtain ⟨rfl, hnext, -⟩ := h
    rw [removeLoop, if_neg (not_not.2 hnext)]
  | cons b l₁ ih =>
    obtain ⟨n, rfl⟩ := Nat.exists_eq_succ_of_ne_zero (Nat.ne_zero_of_lt hn)
    obtain ⟨rfl, hseg⟩ := h
    have hnext : qnext s b ≠ some q := by
      rcases l₁ with _ | ⟨c, l₁⟩
      · rw [hseg.1]
        rintro ⟨⟩
        simp at hq
      · rw [hseg.1]
        rintro ⟨⟩
        simp at hq
    rw [removeLoop, if_pos hnext]
    exact ih hseg (fun h => hq (List.mem_cons_of_mem b h)) (by simpa using hn)

theorem Ringed.length_le (h : Ringed s l) (hl : ∀ q ∈ l, q ∈ s.live) : l.length ≤ s.live.card := by
  rw [← List.toFinset_card_of_nodup h.ring.nodup]
  exact Finset.card_le_card fun q hq => hl q (List.mem_toFinset.1 hq)

/-- **`remove_queue_q`** takes a queue out of the ring, wherever it is. -/
theorem removeQueueQ_spec (h : Ringed s l) (hl : ∀ q ∈ l, q ∈ s.live) (hq : q ∈ s.live) :
    ∃ t, removeQueueQ s q = some t ∧ Kept s t ∧ credit t = credit s ∧ Ringed t (l.erase q) := by
  have hstatus := h.status q hq
  by_cases hql : q ∈ l
  · rw [if_pos hql] at hstatus
    rw [removeQueueQ, if_neg (not_not.2 hstatus)]
    obtain ⟨l₁, l₂, rfl⟩ := List.append_of_mem hql
    have hlen := h.length_le hl
    have hnd := h.ring.nodup
    rw [List.nodup_append_comm, List.cons_append, List.nodup_cons, List.mem_append, not_or] at hnd
    rcases List.eq_nil_or_concat' l₁ with rfl | ⟨l₁, a, rfl⟩
    · rw [if_pos (show s.priv.head = some q from h.ring.head_eq)]
      obtain ⟨t, ht, hk, hc, hring⟩ := rrRemoveHead_spec h
      exact ⟨t, ht, hk, hc, by simpa using hring⟩
    · have hhead : s.priv.head ≠ some q := by
        rw [h.ring.head_eq]
        rcases l₁ with _ | ⟨b, l₁⟩ <;>
        · rintro ⟨⟩
          simp at hnd
      rw [List.append_assoc, List.singleton_append] at h
      obtain ⟨hk, hc, hring⟩ := unlink_spec h
      rw [if_neg hhead, removeLoop_eq h.ring.loop hnd.1.2 (by simp at hlen; omega)]
      refine ⟨_, rfl, hk, hc, ?_⟩
      rwa [List.erase_append_right _ hnd.1.2, List.erase_cons_head, List.append_assoc]
  · rw [if_neg hql] at hstatus
    refine ⟨s, by rw [removeQueueQ, if_pos (by omega)], ⟨rfl, rfl, fun _ => rfl⟩, rfl, ?_⟩
    rwa [List.erase_of_not_mem hql]

/-! ### Credit -/

/-- How much credit a packet still needs. -/
def need (m : Mbuf) (credit : BitVec 32) : ℕ := if tooBig m credit then m.len - credit.toNat else 0

theorem tooBig_iff (m : Mbuf) (credit : BitVec 32) : tooBig m credit = true ↔ credit.toNat < m.len := by
  have hm := m.len_lt
  rw [tooBig, BitVec.ult, decide_eq_true_eq, Mbuf.toNat_len64, BitVec.toNat_signExtend]
  have hlt := credit.isLt
  rcases hmsb : credit.msb with _ | _
  · rw [BitVec.toNat_setWidth, Nat.mod_eq_of_lt (by omega)]
    simp
  · have hge := BitVec.msb_eq_true_iff_two_mul_ge.1 hmsb
    rw [BitVec.toNat_setWidth, Nat.mod_eq_of_lt (by omega)]
    simp only [if_true]
    omega

/-- A quantum more is needed less. -/
theorem need_add_lt {m : Mbuf} {credit quantum : BitVec 32} (h : tooBig m credit)
    (hq : 0 < quantum.toNat ∧ quantum.toNat ≤ 2 ^ 27) :
    need m (credit + quantum) < need m credit := by
  have hm := m.len_lt
  have hc := (tooBig_iff m credit).1 h
  have hadd : (credit + quantum).toNat = credit.toNat + quantum.toNat := by
    rw [BitVec.toNat_add, Nat.mod_eq_of_lt (by omega)]
  rw [need, need, if_pos h]
  split_ifs with h'
  · omega
  · omega

theorem need_lt (m : Mbuf) (credit : BitVec 32) : need m credit < 2 ^ 31 := by
  have hm := m.len_lt
  rw [need]
  split_ifs <;> omega

end Dummynet.Rr
