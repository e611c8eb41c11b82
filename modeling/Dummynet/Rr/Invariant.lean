import Mathlib
import Dummynet.Rr.Ring

/-!
# The invariant of the round robin scheduler

The ring holds queues of the instance, among them all that have packets. The loop of `rr_dequeue`
takes turns: it removes a queue without packets or gives credit to a queue whose packet is too
long. Both can happen only so often before a packet is found or the ring is empty. The other
operations keep the order of the ring and the credit of the queues that were there before.

## Main definitions

* `Inv`: the ring holds queues of the instance, among them all that have packets.
* `Turn`: one round of the loop of `rr_dequeue` that takes no packet.
* `Last`: the last round of the loop.
* `Steady`: what the other operations leave alone.

## Main results

* `rrDequeue_spec`: the loop ends.
* `step_spec`: one operation.
-/

namespace Dummynet.Rr

variable {s t u : Rr} {q : QPtr} {l l' : List QPtr}

/-! ### The invariant -/

/-- The ring holds queues of the instance, and among them all that have packets. -/
structure Inv (s : Rr) (l : List QPtr) : Prop where
  ringed : Ringed s l
  live : ∀ q ∈ l, q ∈ s.live
  backlog : ∀ q ∈ s.live, s.mq q ≠ [] → q ∈ l
  quantum : ∀ q ∈ s.live, 0 < (s.ext q).quantum.toNat ∧ (s.ext q).quantum.toNat ≤ 2 ^ 27

theorem Ringed.of_eq (h : Ringed s l) (hext : t.ext = s.ext) (hpriv : t.priv = s.priv)
    (hlive : t.live = s.live) : Ringed t l := by
  refine ⟨?_, fun q hq => ?_⟩
  · rw [show qnext t = qnext s by rw [funext_iff]; intro q; rw [qnext, hext]; rfl, hpriv]
    exact h.ring
  · rw [hext]
    exact h.status q (hlive ▸ hq)

/-- The ring keeps its queues up to their order, and packets do not appear from nowhere. -/
theorem Inv.of_kept {l' : List QPtr} (hi : Inv s l) (hk : Kept s t) (hr : Ringed t l')
    (hsub : ∀ q ∈ l', q ∈ l) (hsup : ∀ q ∈ l, s.mq q ≠ [] → q ∈ l') : Inv t l' := by
  refine ⟨hr, fun q hq => ?_, fun q hq hm => ?_, fun q hq => ?_⟩
  · rw [hk.live]
    exact hi.live q (hsub q hq)
  · rw [hk.mq] at hm
    exact hsup q (hi.backlog q (hk.live ▸ hq) hm) hm
  · rw [hk.quantum]
    exact hi.quantum q (hk.live ▸ hq)

theorem kept_setCredit (s : Rr) (q : QPtr) (x : BitVec 32) : Kept s (setCredit s q x) :=
  ⟨rfl, rfl, fun q' => quantum_setCredit s q q' x⟩

theorem Inv.setCredit (hi : Inv s l) (q : QPtr) (x : BitVec 32) : Inv (setCredit s q x) l := by
  refine hi.of_kept (kept_setCredit s q x) ⟨?_, fun q' hq' => ?_⟩ (fun _ h => h) fun _ h _ => h
  · rw [qnext_setCredit]
    exact hi.ringed.ring
  · rw [status_setCredit]
    exact hi.ringed.status q' hq'

/-- A change in the packets of a queue that is in the ring. -/
theorem Inv.of_sameBut {ms : List Mbuf} (hi : Inv s l) (h : SameBut s t q ms)
    (hq : q ∈ l ∨ ms = []) : Inv t l := by
  refine ⟨hi.ringed.of_eq h.ext h.priv h.live, fun q' hq' => ?_, fun q' hq' hm => ?_,
    fun q' hq' => ?_⟩
  · rw [h.live]
    exact hi.live q' hq'
  · rcases eq_or_ne q' q with rfl | hne
    · exact hq.resolve_right (h.mq_self ▸ hm)
    · rw [h.mq_of_ne hne] at hm
      exact hi.backlog q' (h.live ▸ hq') hm
  · rw [h.ext]
    exact hi.quantum q' (h.live ▸ hq')

/-! ### The dequeue loop -/

/-- The number of rounds that the loop of `rr_dequeue` can spend on a queue. -/
def rounds (s : Rr) (q : QPtr) : ℕ :=
  1 + match s.mq q with
    | [] => 0
    | m :: _ => need m (credit s q)

theorem rounds_le (s : Rr) (q : QPtr) : rounds s q ≤ 2 ^ 31 := by
  rw [rounds]
  rcases s.mq q with _ | ⟨m, _⟩
  · simp
  · have := need_lt m (credit s q)
    simp only
    omega

theorem rounds_congr (hk : Kept s t) (hc : credit t q = credit s q) : rounds t q = rounds s q := by
  rw [rounds, rounds, hk.mq, hc]

/-- The rounds that the loop of `rr_dequeue` needs at most. -/
def work (s : Rr) (l : List QPtr) : ℕ := (l.map (rounds s)).sum

theorem work_cons (s : Rr) (q : QPtr) (l : List QPtr) : work s (q :: l) = rounds s q + work s l :=
  List.sum_cons

theorem work_congr (hk : Kept s t) (hc : ∀ q ∈ l, credit t q = credit s q) :
    work t l = work s l :=
  congrArg List.sum (List.map_congr_left fun q hq => rounds_congr hk (hc q hq))

/-- One round of the loop that takes no packet: an empty queue goes out of the ring, or a queue
whose packet is too long gets its quantum and becomes the last one. -/
inductive Turn : Rr × List QPtr → Rr × List QPtr → Prop
  | skip {s t : Rr} {q : QPtr} {l : List QPtr} : s.mq q = [] → Kept s t → credit t = credit s →
      Turn (s, q :: l) (t, l)
  | topUp {s t : Rr} {q : QPtr} {l : List QPtr} {m : Mbuf} {rest : List Mbuf} :
      s.mq q = m :: rest → tooBig m (credit s q) → Kept s t →
      credit t = Function.update (credit s) q (credit s q + (s.ext q).quantum) →
      Turn (s, q :: l) (t, l ++ [q])

/-- The last round: the ring is empty, or the credit of its head is enough for a packet. -/
inductive Last (s t : Rr) : List QPtr → Option Mbuf → Prop
  | idle : t = s → Last s t [] none
  | serve {q : QPtr} {l : List QPtr} {m : Mbuf} {rest : List Mbuf} : s.mq q = m :: rest →
      ¬ tooBig m (credit s q) →
      SameBut (setCredit s q (credit s q - m.len64.setWidth 32)) t q rest →
      Last s t (q :: l) (some m)

theorem Turn.kept {x y : Rr × List QPtr} (h : Turn x y) : Kept x.1 y.1 := by
  cases h with
  | skip _ hk _ => exact hk
  | topUp _ _ hk _ => exact hk

theorem Turn.nodup {x y : Rr × List QPtr} (h : Turn x y) (hx : x.2.Nodup) : y.2.Nodup := by
  cases h with
  | skip => exact hx.of_cons
  | topUp => exact (@List.nodup_append_comm _ [_] _).1 hx

/-- Turns change neither the queues nor their packets. -/
theorem kept_of_turns {x y : Rr × List QPtr} (h : Relation.ReflTransGen Turn x y) :
    Kept x.1 y.1 := by
  induction h with
  | refl => exact ⟨rfl, rfl, fun _ => rfl⟩
  | tail _ ht ih => exact ih.trans ht.kept

/-- The loop of `rr_dequeue` ends. -/
theorem rrLoop_spec {n : ℕ} (hi : Inv s l) (hn : work s l < n) :
    ∃ u l' o t, rrLoop n s = some (o, t) ∧ Relation.ReflTransGen Turn (s, l) (u, l') ∧ Inv u l' ∧
      Last u t l' o := by
  induction n generalizing s l with
  | zero => omega
  | succ n ih =>
    rcases l with _ | ⟨q, l⟩
    · refine ⟨s, [], none, s, ?_, .refl, hi, .idle rfl⟩
      rw [rrLoop, show s.priv.head = none from hi.ringed.ring.head_eq]
    · have hhead : s.priv.head = some q := hi.ringed.ring.head_eq
      have hnd := List.nodup_cons.1 hi.ringed.ring.nodup
      have hq := hi.live q List.mem_cons_self
      rw [work_cons] at hn
      rw [rrLoop, hhead]
      rcases hm : s.mq q with _ | ⟨m, rest⟩
      · -- an empty queue goes out of the ring
        obtain ⟨u, hu, hk, hc, hr⟩ := rrRemoveHead_spec hi.ringed
        have hiu : Inv u l := hi.of_kept hk hr (fun q' h => List.mem_cons_of_mem q h) fun q' h hm' =>
          (List.mem_cons.1 h).resolve_left fun he => hm' (he ▸ hm)
        have hwork : work u l = work s l := work_congr hk fun q' _ => congrFun hc q'
        have hpos : 0 < rounds s q := by rw [rounds]; omega
        obtain ⟨v, l', o, t, ht, hturns, hiv, hlast⟩ := ih hiu (by omega)
        exact ⟨v, l', o, t, by simp only [hm, hu, Option.bind_some, ht],
          hturns.head (.skip hm hk hc), hiv, hlast⟩
      · simp only [hm]
        split_ifs with hbig
        · -- more credit, and the next queue
          obtain ⟨u, hu, hk, hext, hr⟩ := nextPointer_spec
            (hi.setCredit q ((s.ext q).credit + (s.ext q).quantum)).ringed
          have hc : credit u = Function.update (credit s) q (credit s q + (s.ext q).quantum) := by
            rw [← credit_setCredit]
            exact funext fun q' => congrArg RrQueue.credit (congrFun hext q')
          have hku : Kept s u := (kept_setCredit s q _).trans hk
          have hiu : Inv u (l ++ [q]) := hi.of_kept hku hr
            (fun q' h => by simpa [or_comm] using h) fun q' h _ => by simpa [or_comm] using h
          have hwork : work u (l ++ [q]) < rounds s q + work s l := by
            have hl : work u l = work s l := work_congr hku fun q' hq' => by
              rw [hc, Function.update_of_ne (ne_of_mem_of_not_mem hq' hnd.1)]
            have hlt : rounds u q < rounds s q := by
              have hu' : u.mq q = m :: rest := (hku.mq q).trans hm
              rw [rounds, rounds, hu', hm, hc, Function.update_self]
              exact Nat.add_lt_add_left (need_add_lt hbig (hi.quantum q hq)) 1
            rw [work, List.map_append, List.sum_append, ← work, hl]
            simp only [List.map_cons, List.map_nil, List.sum_singleton]
            omega
          obtain ⟨v, l', o, t, ht, hturns, hiv, hlast⟩ := ih hiu (by omega)
          exact ⟨v, l', o, t, by rw [hu, Option.bind_some, ht],
            hturns.head (.topUp hm hbig hku hc), hiv, hlast⟩
        · -- the packet is taken
          obtain ⟨t, ht, hbut⟩ := Inst.dequeue_spec
            (s := setCredit s q ((s.ext q).credit - m.len64.setWidth 32)) hm
          exact ⟨s, q :: l, some m, t, congrArg some ht, .refl, hi, .serve hm hbig hbut⟩

theorem Last.inv {o : Option Mbuf} (h : Last s t l o) (hi : Inv s l) : Inv t l := by
  cases h with
  | idle h => exact h ▸ hi
  | @serve q _ _ _ _ _ hbut =>
    exact (hi.setCredit q _).of_sameBut hbut (.inl List.mem_cons_self)

/-- **`rr_dequeue`** takes turns until a packet fits or the ring is empty. -/
theorem rrDequeue_spec (hi : Inv s l) :
    ∃ u l' o t, rrDequeue s = some (o, t) ∧ Relation.ReflTransGen Turn (s, l) (u, l') ∧
      Inv u l' ∧ Last u t l' o := by
  refine rrLoop_spec hi (Nat.lt_succ_of_le ?_)
  calc work s l ≤ (l.map (rounds s)).length • 2 ^ 31 := List.sum_le_card_nsmul _ _ fun x hx => by
        obtain ⟨q, -, rfl⟩ := List.mem_map.1 hx
        exact rounds_le s q
    _ = 2 ^ 31 * l.length := by rw [List.length_map, smul_eq_mul, mul_comm]
    _ ≤ 2 ^ 31 * s.live.card := Nat.mul_le_mul_left _ (hi.ringed.length_le hi.live)

/-- What `rr_dequeue` does to the queues: nothing if no queue of the instance holds a packet, and
otherwise it takes the head of one queue. -/
def Served (s t : Rr) (o : Option Mbuf) : Prop :=
  t.live = s.live ∧
    ((o = none ∧ (∀ q ∈ s.live, s.mq q = []) ∧ ∀ q, t.mq q = s.mq q) ∨
      ∃ m, o = some m ∧ ∃ q ∈ s.live, ∃ rest, s.mq q = m :: rest ∧
        ∀ q', t.mq q' = Function.update s.mq q rest q')

theorem Last.served {o : Option Mbuf} (hi : Inv u l) (hk : Kept s u) (h : Last u t l o) :
    Served s t o := by
  have hmq : u.mq = s.mq := funext hk.mq
  cases h with
  | idle h =>
    subst h
    refine ⟨hk.live, .inl ⟨rfl, fun q hq => ?_, hk.mq⟩⟩
    by_contra hm
    rw [← hk.mq] at hm
    exact List.not_mem_nil (hi.backlog q (hk.live ▸ hq) hm)
  | @serve q _ m rest hm _ hbut =>
    refine ⟨hbut.live.trans hk.live, .inr ⟨m, rfl, q, ?_, rest, hmq ▸ hm, fun q' => ?_⟩⟩
    · exact hk.live ▸ hi.live q List.mem_cons_self
    · rw [← hmq]
      exact hbut.mq q'

/-! ### The other operations -/

/-- What the operations other than `rr_dequeue` leave alone: the quantum of a queue, its credit
unless it comes into the ring, and the order of the ring. -/
structure Steady (s t : Rr) (l l' : List QPtr) : Prop where
  quantum : ∀ q ∈ s.live, q ∈ t.live → (t.ext q).quantum = (s.ext q).quantum
  entry : ∀ q ∈ t.live,
    q ∈ s.live ∧ credit t q = credit s q ∨ q ∉ l ∧ credit t q = (t.ext q).quantum
  order : (l.filter fun q => decide (q ∈ t.live)).Sublist l'

/-- The queues, the credits and the quanta are the same. -/
theorem Steady.of_eq (hlive : t.live = s.live) (hc : credit t = credit s)
    (hq : ∀ q, (t.ext q).quantum = (s.ext q).quantum) : Steady s t l l :=
  ⟨fun q _ _ => hq q, fun q h => .inl ⟨hlive ▸ h, congrFun hc q⟩, List.filter_sublist⟩

/-- `rr_enqueue` puts a queue with its first packet into the ring, unless it is still there. -/
theorem activate_spec {ms : List Mbuf} (hi : Inv s l) (hq : q ∈ s.live) (h : SameBut s t q ms) :
    ∃ u l', (if (t.ext q).status = 1 then some (false, t)
        else (rrAppend t q).map fun s => (false, s)) = some (false, u) ∧ Inv u l' ∧ Kept t u ∧
      Steady s u l l' := by
  have hr : Ringed t l := hi.ringed.of_eq h.ext h.priv h.live
  have hstatus := hr.status q (h.live ▸ hq)
  have hcredit : credit t = credit s := funext fun q' => congrArg RrQueue.credit (congrFun h.ext q')
  split_ifs with h1
  · have hql : q ∈ l := by
      by_contra hql
      rw [h1, if_neg hql] at hstatus
      omega
    exact ⟨t, l, rfl, hi.of_sameBut h (.inl hql), ⟨rfl, rfl, fun _ => rfl⟩,
      .of_eq h.live hcredit fun q' => by rw [h.ext]⟩
  · have hql : q ∉ l := fun hql => h1 (by rw [hstatus, if_pos hql])
    obtain ⟨u, hu, hk, hc, hru⟩ := rrAppend_spec hr hql
    refine ⟨u, l ++ [q], by rw [hu]; rfl,
      ⟨hru, fun q' hq' => ?_, fun q' hq' hm => ?_, fun q' hq' => ?_⟩, hk,
      ⟨fun q' _ _ => ?_, fun q' hq' => ?_, ?_⟩⟩
    · rw [hk.live, h.live]
      rcases List.mem_append.1 hq' with hq' | hq'
      · exact hi.live q' hq'
      · rwa [List.mem_singleton.1 hq']
    · rcases eq_or_ne q' q with rfl | hne
      · simp
      · rw [hk.mq, h.mq_of_ne hne] at hm
        rw [hk.live, h.live] at hq'
        exact List.mem_append_left _ (hi.backlog q' hq' hm)
    · rw [hk.live, h.live] at hq'
      rw [hk.quantum, h.ext]
      exact hi.quantum q' hq'
    · rw [hk.quantum, h.ext]
    · rw [hc, hcredit]
      rcases eq_or_ne q' q with rfl | hne
      · exact .inr ⟨hql, by rw [Function.update_self, hk.quantum]⟩
      · exact .inl ⟨h.live ▸ hk.live ▸ hq', Function.update_of_ne hne _ _⟩
    · exact List.filter_sublist.trans (List.sublist_append_left l [q])

/-- **`rr_enqueue`** appends the packet or drops it. -/
theorem rrEnqueue_spec {m : Mbuf} {r : Draws} (hi : Inv s l) (hq : q ∈ s.live)
    (hm : ¬ s.isHead q m) : ∃ b t l', rrEnqueue s q m r = some (b, t) ∧ Inv t l' ∧
      Steady s t l l' ∧ t.live = s.live ∧ ∀ q', t.mq q' =
        Function.update s.mq q (if b then s.mq q else s.mq q ++ [m]) q' := by
  obtain ⟨b, t, ht, hbut⟩ := Inst.enqueue_spec s q m false r
  have hsteady : Steady s t l l :=
    .of_eq hbut.live (funext fun q' => congrArg RrQueue.credit (congrFun hbut.ext q')) fun q' => by
      rw [hbut.ext]
  rw [rrEnqueue]
  simp only [if_neg hm, ht]
  rcases b with _ | _
  · simp only [Bool.false_eq_true, if_false] at hbut ⊢
    by_cases hhead : t.isHead q m
    · obtain ⟨u, l', hu, hiu, hk, hsu⟩ := activate_spec hi hq hbut
      refine ⟨false, u, l', ?_, hiu, hsu, hk.live.trans hbut.live, fun q' => (hk.mq q').trans ?_⟩
      · rw [if_pos hhead]
        exact hu
      · simpa using hbut.mq q'
    · refine ⟨false, t, l, if_neg hhead, hi.of_sameBut hbut (.inl (hi.backlog q hq fun h0 => ?_)),
        hsteady, hbut.live, hbut.mq⟩
      rw [Inst.isHead, hbut.mq_self, h0] at hhead
      exact hhead rfl
  · refine ⟨true, t, l, rfl, hi.of_sameBut hbut ?_, hsteady, hbut.live, hbut.mq⟩
    by_cases h0 : s.mq q = []
    · exact .inr h0
    · exact .inl (hi.backlog q hq h0)

/-- The quantum of a flowset fits in a word. -/
theorem toNat_quantum {a b : ℤ} (ha : 1 ≤ a ∧ a ≤ 65536) (hb : 64 ≤ b ∧ b ≤ 2048) :
    0 < (BitVec.ofInt 32 (a * b)).toNat ∧ (BitVec.ofInt 32 (a * b)).toNat ≤ 2 ^ 27 := by
  have hlo : 1 * 64 ≤ a * b := mul_le_mul ha.1 hb.1 (by omega) (by omega)
  have hhi : a * b ≤ 65536 * 2048 := mul_le_mul ha.2 hb.2 (by omega) (by omega)
  rw [BitVec.toNat_ofInt]
  omega

/-- **A new queue** is empty and not in the ring. -/
theorem qNew_spec (fs : DnFsk) (hi : Inv s l) (hq : q ∉ s.live) :
    ∃ t, qNew rrDesc s q (rrDesc.newFsk fs) = some t ∧ Inv t l ∧ Steady s t l l ∧
      t.live = insert q s.live ∧ t.mq q = [] ∧ ∀ q', q' ≠ q → t.mq q' = s.mq q' := by
  let quantum := BitVec.ofInt 32 ((rrNewFsk fs).fs.par 0 * (rrNewFsk fs).fs.par 1)
  let x : RrQueue := { quantum := quantum, credit := quantum }
  obtain ⟨t, ht, hpriv, hlive, hext, hqueue⟩ : ∃ t, qNew rrDesc s q (rrDesc.newFsk fs) = some t ∧
      t.priv = s.priv ∧ t.live = insert q s.live ∧ t.ext = Function.update s.ext q x ∧
      t.queue = Function.update s.queue q { fs := rrNewFsk fs, si := some s.si } := by
    let cfg := { s.cfg with
      queueCount := s.cfg.queueCount + 1, idleQueue := s.cfg.idleQueue + 1 }
    let queue := Function.update s.queue q { fs := rrNewFsk fs, si := some s.si }
    refine ⟨⟨s.si, cfg, s.ni, s.qCount + 1, s.priv, queue, Function.update s.ext q x,
      insert q s.live⟩, ?_, rfl, rfl, rfl, rfl⟩
    simp [qNew, rrDesc, rrNewQueue, Inst.mq, cfg, queue, x, quantum, Inst.par, DnQueue.par]
  have hql : q ∉ l := fun h => hq (hi.live q h)
  have hmq : ∀ q', q' ≠ q → t.mq q' = s.mq q' := fun q' hne => by
    rw [Inst.mq, hqueue, Function.update_of_ne hne]
    rfl
  have hold : ∀ q' ∈ t.live, q' ≠ q → q' ∈ s.live := fun q' hq' hne => by
    simpa [hlive, hne] using hq'
  refine ⟨t, ht,
    ⟨⟨?_, fun q' hq' => ?_⟩, fun q' hq' => ?_, fun q' hq' hm => ?_, fun q' hq' => ?_⟩,
    ⟨fun q' hq' _ => ?_, fun q' hq' => ?_, List.filter_sublist⟩, hlive, ?_, hmq⟩
  · rw [hpriv]
    refine ⟨hi.ringed.ring.nodup, hi.ringed.ring.head_eq, hi.ringed.ring.tail_eq,
      hi.ringed.ring.loop.congr fun q' hq' => ?_⟩
    rw [qnext, hext, Function.update_of_ne (ne_of_mem_of_not_mem hq' hql)]
    rfl
  · rw [hext]
    rcases eq_or_ne q' q with rfl | hne
    · simp [x, hql]
    · rw [Function.update_of_ne hne]
      exact hi.ringed.status q' (hold q' hq' hne)
  · rw [hlive]
    exact Finset.mem_insert_of_mem (hi.live q' hq')
  · have hne : q' ≠ q := by
      rintro rfl
      simp [Inst.mq, hqueue] at hm
    rw [hmq q' hne] at hm
    exact hi.backlog q' (hold q' hq' hne) hm
  · rw [hext]
    rcases eq_or_ne q' q with rfl | hne
    · rw [Function.update_self]
      have h0 := @ipdnBoundVar_mem (fs.fs.par 0) 1 1 65536 (by decide)
      have h1 := @ipdnBoundVar_mem (fs.fs.par 1) 1500 64 2048 (by decide)
      exact toNat_quantum (by simpa [rrNewFsk] using h0) (by simpa [rrNewFsk] using h1)
    · rw [Function.update_of_ne hne]
      exact hi.quantum q' (hold q' hq' hne)
  · rw [hext, Function.update_of_ne (ne_of_mem_of_not_mem hq' hq)]
  · rw [credit, hext]
    rcases eq_or_ne q' q with rfl | hne
    · exact .inr ⟨hql, by simp [x]⟩
    · exact .inl ⟨hold q' hq' hne, by rw [Function.update_of_ne hne]; rfl⟩
  · simp [Inst.mq, hqueue]

/-- The rest of a deletion, when the queue is out of the ring. -/
theorem removeQueue_inv {destroy : Bool} (hi : Inv s l) (hk : Kept s u)
    (hc : credit u = credit s) (hr : Ringed u (l.erase q)) :
    Inv (removeQueue u q destroy) (l.erase q) ∧
      Steady s (removeQueue u q destroy) l (l.erase q) ∧
      (removeQueue u q destroy).live = s.live.erase q ∧
      ∀ q', q' ≠ q → (removeQueue u q destroy).mq q' = s.mq q' := by
  obtain ⟨hpriv, hext, hlive, hqueue⟩ := removeQueue_spec u q destroy
  have hmq : ∀ q', q' ≠ q → (removeQueue u q destroy).mq q' = s.mq q' := fun q' hne => by
    rw [Inst.mq, hqueue q' hne]
    exact hk.mq q'
  have hnd := hi.ringed.ring.nodup
  rw [hk.live] at hlive
  have hold : ∀ {q'}, q' ∈ (removeQueue u q destroy).live → q' ≠ q ∧ q' ∈ s.live := fun hq' => by
    rwa [hlive, Finset.mem_erase] at hq'
  refine ⟨⟨⟨?_, fun q' hq' => ?_⟩, fun q' hq' => ?_, fun q' hq' hm => ?_, fun q' hq' => ?_⟩,
    ⟨fun q' _ _ => ?_, fun q' hq' => .inl ⟨(hold hq').2, ?_⟩, ?_⟩, hlive, hmq⟩
  · rw [hpriv, show qnext (removeQueue u q destroy) = qnext u by
      rw [funext_iff]; intro q'; rw [qnext, hext]; rfl]
    exact hr.ring
  · rw [hext]
    exact hr.status q' (hk.live ▸ (hold hq').2)
  · rw [hnd.mem_erase_iff] at hq'
    rw [hlive]
    exact Finset.mem_erase.2 ⟨hq'.1, hi.live q' hq'.2⟩
  · obtain ⟨hne, hq'⟩ := hold hq'
    rw [hmq q' hne] at hm
    exact hnd.mem_erase_iff.2 ⟨hne, hi.backlog q' hq' hm⟩
  · rw [hext, hk.quantum]
    exact hi.quantum q' (hold hq').2
  · rw [hext, hk.quantum]
  · rw [credit, hext]
    exact congrFun hc q'
  · rw [hnd.erase_eq_filter, hlive]
    refine List.monotone_filter_right l fun q' hq' => ?_
    simpa using (Finset.mem_erase.1 (of_decide_eq_true hq')).1

/-- **`dn_delete_queue`** takes the queue out of the ring, or leaves everything as it is. -/
theorem dnDeleteQueue_spec (destroy safe : Bool) (hi : Inv s l) (hq : q ∈ s.live) :
    ∃ b t, dnDeleteQueue rrDesc s q destroy safe = some (b, t) ∧
      (b = true ∧ t = s ∨ b = false ∧ Inv t (l.erase q) ∧ Steady s t l (l.erase q) ∧
        t.live = s.live.erase q ∧ ∀ q', q' ≠ q → t.mq q' = s.mq q') := by
  have hstatus := hi.ringed.status q hq
  by_cases hql : q ∈ l
  · rw [if_pos hql] at hstatus
    rcases safe with _ | _
    · obtain ⟨u, hu, hk, hc, hr⟩ := removeQueueQ_spec hi.ringed hi.live hq
      refine ⟨false, removeQueue u q destroy, ?_, .inr ⟨rfl, removeQueue_inv hi hk hc hr⟩⟩
      simp [dnDeleteQueue, rrDesc, rrFreeQueue, hstatus, hu]
    · exact ⟨true, s, by simp [dnDeleteQueue, rrDesc, rrFreeQueue, hstatus], .inl ⟨rfl, rfl⟩⟩
  · rw [if_neg hql] at hstatus
    refine ⟨false, removeQueue s q destroy, ?_,
      .inr ⟨rfl, removeQueue_inv hi ⟨rfl, rfl, fun _ => rfl⟩ rfl ?_⟩⟩
    · rcases safe with _ | _ <;> simp [dnDeleteQueue, rrDesc, rrFreeQueue, hstatus]
    · rw [List.erase_of_not_mem hql]
      exact hi.ringed

/-! ### Runs -/

/-- An instance right after `rr_new_sched`, without queues. -/
structure IsNew (s : Rr) : Prop where
  priv : s.priv = {}
  live : s.live = ∅

theorem IsNew.inv (h : IsNew s) : Inv s [] := by
  have hno : ∀ q, q ∉ s.live := by simp [h.live]
  refine ⟨⟨?_, fun q hq => absurd hq (hno q)⟩, by simp, fun q hq => absurd hq (hno q),
    fun q hq => absurd hq (hno q)⟩
  rw [h.priv]
  exact Ring.IsRing.nil _

/-- What an operation does to the ring. -/
inductive RingStep (s t : Rr) (l l' : List QPtr) : SchedOp → Option Mbuf → Prop
  | steady {i : SchedOp} : i ≠ .dequeue → Steady s t l l' → RingStep s t l l' i none
  | dequeue {u : Rr} {o : Option Mbuf} : Relation.ReflTransGen Turn (s, l) (u, l') → Inv u l' →
      Last u t l' o → RingStep s t l l' .dequeue o

/-- **One operation** returns, keeps the invariant and the order of the packets. -/
theorem step_spec {i : SchedOp} (hi : Inv s l) (hp : i.Promised s) :
    ∃ o t l', rrDesc.step s i = some (o, t) ∧ Inv t l' ∧ RingStep s t l l' i o ∧
      QueueStep s t i o := by
  rcases i with ⟨q, fs⟩ | ⟨q, destroy, safe⟩ | ⟨q, m, r⟩ | _
  · obtain ⟨t, ht, hit, hst, hlive, hmq, hother⟩ := qNew_spec fs hi hp.1
    exact ⟨none, t, l, by rw [DnAlg.step, ht]; rfl, hit, .steady (by simp) hst,
      .pkt (.new hp.1 hlive hmq hother)⟩
  · obtain ⟨b, t, ht, ⟨-, rfl⟩ | ⟨-, hit, hst, hlive, hmq⟩⟩ :=
      dnDeleteQueue_spec destroy safe hi hp
    · exact ⟨none, t, l, by rw [DnAlg.step, ht]; rfl, hi,
        .steady (by simp) (.of_eq rfl rfl fun _ => rfl), .kept hp rfl fun _ => rfl⟩
    · exact ⟨none, t, l.erase q, by rw [DnAlg.step, ht]; rfl, hit, .steady (by simp) hst,
        .deleted hlive hmq⟩
  · obtain ⟨b, t, l', ht, hit, hst, hlive, hmq⟩ := rrEnqueue_spec (r := r) hi hp.1 hp.2
    refine ⟨none, t, l', congrArg (Option.map _) ht, hit, .steady (by simp) hst, .pkt ?_⟩
    rcases b with _ | _
    · exact .queued hp.1 hlive hmq
    · exact .dropped hlive (by simpa using hmq)
  · obtain ⟨u, l', o, t, ht, hturns, hiu, hlast⟩ := rrDequeue_spec hi
    refine ⟨o, t, l', ht, hlast.inv hiu, .dequeue hturns hiu hlast, .pkt ?_⟩
    obtain ⟨hlive, ⟨rfl, -, hmq⟩ | ⟨m, rfl, q, hq, rest, hm, hmq⟩⟩ :=
      hlast.served hiu (kept_of_turns hturns)
    · exact .idle hlive hmq
    · exact .served hq hlive hm hmq

end Dummynet.Rr
