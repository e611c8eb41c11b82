import Dummynet.Wf2q.Heaps

/-!
# The invariant of WF2Q+

Between two operations every queue is in the heap that its packets and its timestamps ask for,
`home`: eligible queues in `sch`, the other backlogged ones in `ne`, idle queues that count for
the sum of the weights in `idle`, and nothing else anywhere. While a packet is taken, queues that
have just become eligible are still in `ne`; this weaker form is `Nearly`.

All comparisons of timestamps are meant inside a window of less than half of the 64-bit words,
which moves along with the virtual time. Only the timestamps of queues with valid timestamps
matter, and `V` if there is such a queue (`Window`).

## Main definitions

* `Valid`, `Backlogged`, `home`: validity of timestamps, backlog and the place of a queue.
* `Stamps`: what holds of weights and timestamps.
* `Inv`: every queue is at home, with right stamps.
* `Window`: the timestamps in use lie in one window.

## Main results

* `idleCheck_spec`, `settle_spec`, `serve_spec`: the parts of `wf2qp_dequeue`.
-/

namespace Dummynet.Wf2qp

open Serial (rank)

/-- The timestamps of a queue are valid; `S = F + 1` marks them as invalid. -/
def Valid (s : Wf2qp) (q : QPtr) : Prop := (s.ext q).S ≠ (s.ext q).F + 1

instance (s : Wf2qp) (q : QPtr) : Decidable (Valid s q) := inferInstanceAs (Decidable (_ ≠ _))

/-- The queue belongs to the instance and holds packets. -/
def Backlogged (s : Wf2qp) (q : QPtr) : Prop := q ∈ s.live ∧ s.mq q ≠ []

instance (s : Wf2qp) (q : QPtr) : Decidable (Backlogged s q) :=
  inferInstanceAs (Decidable (_ ∧ _))

/-- The heap and the key that a queue should have. -/
def home (s : Wf2qp) (q : QPtr) : Place :=
  if q ∉ s.live then none
  else if s.mq q = [] then if Valid s q then some (.idle, (s.ext q).F) else none
  else if keyLT s.priv.V (s.ext q).S then some (.ne, (s.ext q).S)
  else some (.sch, (s.ext q).F)

/-- The weight of a queue, its inverse, and its timestamps when it is idle or backlogged. -/
structure QueueOk (s : Wf2qp) (q : QPtr) : Prop where
  weight : 1 ≤ s.par q 0 ∧ s.par q 0 ≤ 100
  invW : (s.ext q).invW = invWeight (Wf2qp.weight s q)
  idle : s.mq q = [] → (s.ext q).S = (s.ext q).F + 1 ∨ (s.ext q).S = (s.ext q).F
  busy : ∀ m ∈ (s.mq q).head?,
    (s.ext q).F = (s.ext q).S + m.len64 * (s.ext q).invW.setWidth 64

/-- What a queue contributes to the sum of the weights. -/
def share (s : Wf2qp) (q : QPtr) : BitVec 32 :=
  if q ∈ s.live ∧ Valid s q then weight s q else 0

/-- Every queue is in order, and `wsum` is the sum of the weights that count. -/
structure Stamps (s : Wf2qp) : Prop where
  queue : ∀ q ∈ s.live, QueueOk s q
  wsum : s.priv.wsum = ∑ q ∈ s.live, share s q

/-- **The invariant**: every queue is at home, and its stamps are right. -/
structure Inv (s : Wf2qp) : Prop where
  stamps : Stamps s
  located : Located s (home s)

/-- The timestamps that the comparisons read lie in the window above `c`. -/
def Window (c : BitVec 64) (s : Wf2qp) : Prop :=
  ∀ q ∈ s.live, Valid s q →
    Serial.InWindow c s.priv.V ∧ Serial.InWindow c (s.ext q).S ∧ Serial.InWindow c (s.ext q).F

instance (c : BitVec 64) (s : Wf2qp) : Decidable (Window c s) :=
  inferInstanceAs (Decidable (∀ q ∈ s.live, _ → _))

/-- Every queue is at home, or has become eligible and is still in `ne`. -/
def Nearly (s : Wf2qp) (loc : QPtr → Place) : Prop :=
  ∀ q, loc q = home s q ∨
    Backlogged s q ∧ keyLT s.priv.V (s.ext q).S = false ∧ loc q = some (.ne, (s.ext q).S)

variable {s t : Wf2qp} {c : BitVec 64} {q : QPtr}

/-! ### All of this is about the data of an instance -/

theorem home_eq (h : data t = data s) : home t = home s := (congrArg home h :)

theorem window_iff (h : data t = data s) : Window c t ↔ Window c s :=
  Iff.of_eq (congrArg (Window c) h :)

theorem Nearly.of_eq {loc : QPtr → Place} (h : data t = data s) (hs : Nearly s loc) :
    Nearly t loc :=
  (congrArg (fun u => Nearly u loc) h.symm :) ▸ hs

theorem stamps_data : Stamps (data s) ↔ Stamps s :=
  ⟨fun h => ⟨fun q hq => have hk := h.queue q hq; ⟨hk.weight, hk.invW, hk.idle, hk.busy⟩, h.wsum⟩,
    fun h => ⟨fun q hq => have hk := h.queue q hq; ⟨hk.weight, hk.invW, hk.idle, hk.busy⟩, h.wsum⟩⟩

theorem Stamps.of_eq (h : data t = data s) (hs : Stamps s) : Stamps t :=
  stamps_data.1 (h ▸ stamps_data.2 hs)

/-! ### Queues that an operation does not touch -/

/-- The queue `q` is the same in both states, statistics apart. -/
structure SameAt (s t : Wf2qp) (q : QPtr) : Prop where
  mem : q ∈ t.live ↔ q ∈ s.live
  mq : t.mq q = s.mq q
  fs : (t.queue q).fs = (s.queue q).fs
  S : (t.ext q).S = (s.ext q).S
  F : (t.ext q).F = (s.ext q).F
  invW : (t.ext q).invW = (s.ext q).invW

namespace SameAt

theorem refl (s : Wf2qp) (q : QPtr) : SameAt s s q := ⟨Iff.rfl, rfl, rfl, rfl, rfl, rfl⟩

theorem symm (h : SameAt s t q) : SameAt t s q :=
  ⟨h.mem.symm, h.mq.symm, h.fs.symm, h.S.symm, h.F.symm, h.invW.symm⟩

theorem trans {u : Wf2qp} (h : SameAt s t q) (h' : SameAt t u q) : SameAt s u q :=
  ⟨h'.mem.trans h.mem, h'.mq.trans h.mq, h'.fs.trans h.fs, h'.S.trans h.S, h'.F.trans h.F,
    h'.invW.trans h.invW⟩

theorem of_data (h : data t = data s) (q : QPtr) : SameAt s t q :=
  ⟨by rw [live_eq h], mq_eq h q, by rw [queue_eq h], S_eq h q, F_eq h q, invW_eq h q⟩

theorem par (h : SameAt s t q) (i : Fin 4) : t.par q i = s.par q i := by
  rw [Inst.par, DnQueue.par, h.fs]
  rfl

theorem weight (h : SameAt s t q) : Wf2qp.weight t q = Wf2qp.weight s q := by
  rw [Wf2qp.weight, Wf2qp.weight, h.par]

theorem valid_iff (h : SameAt s t q) : Valid t q ↔ Valid s q := by
  rw [Valid, Valid, h.S, h.F]

theorem backlogged_iff (h : SameAt s t q) : Backlogged t q ↔ Backlogged s q := by
  rw [Backlogged, Backlogged, h.mem, h.mq]

theorem home (h : SameAt s t q) (hV : t.priv.V = s.priv.V) :
    Wf2qp.home t q = Wf2qp.home s q := by
  simp only [Wf2qp.home, h.mem, h.mq, h.valid_iff, h.S, h.F, hV]

theorem queueOk (h : SameAt s t q) (hq : QueueOk s q) : QueueOk t q := by
  refine ⟨?_, ?_, ?_, ?_⟩
  · rw [h.par]
    exact hq.weight
  · rw [h.invW, h.weight]
    exact hq.invW
  · rw [h.mq, h.S, h.F]
    exact hq.idle
  · rw [h.mq, h.S, h.F, h.invW]
    exact hq.busy

theorem share (h : SameAt s t q) : Wf2qp.share t q = Wf2qp.share s q := by
  simp only [Wf2qp.share, h.mem, h.valid_iff, h.weight]

end SameAt

theorem share_of_not_mem (hq : q ∉ s.live) : share s q = 0 := if_neg fun h => hq h.1

theorem share_of_not_valid (hq : ¬ Valid s q) : share s q = 0 := if_neg fun h => hq h.2

theorem share_of_valid (hq : q ∈ s.live) (hv : Valid s q) : share s q = weight s q :=
  if_pos ⟨hq, hv⟩

theorem sum_share_of_subset {A : Finset QPtr} (h : s.live ⊆ A) :
    ∑ q ∈ s.live, share s q = ∑ q ∈ A, share s q :=
  Finset.sum_subset h fun _ _ hq => share_of_not_mem hq

/-- The sum of the weights changes by the share of the one queue that changes. -/
theorem sum_share_sub (h : ∀ q', q' ≠ q → share t q' = share s q') :
    ∑ q' ∈ t.live, share t q' - share t q = ∑ q' ∈ s.live, share s q' - share s q := by
  have hq : q ∈ insert q (s.live ∪ t.live) := Finset.mem_insert_self _ _
  rw [sum_share_of_subset (s := t) (A := insert q (s.live ∪ t.live)) fun _ _ => by simp_all,
    sum_share_of_subset (s := s) (A := insert q (s.live ∪ t.live)) fun _ _ => by simp_all,
    ← Finset.sum_erase_add _ _ hq, ← Finset.sum_erase_add _ _ hq, add_sub_cancel_right,
    add_sub_cancel_right]
  exact Finset.sum_congr rfl fun q' hq' => h q' (Finset.ne_of_mem_erase hq')

/-! ### Timestamps -/

theorem not_valid_iff : ¬ Valid s q ↔ (s.ext q).S = (s.ext q).F + 1 := not_not

/-- `F < S` for a queue with invalid timestamps. -/
theorem keyLT_succ (x : BitVec 64) : keyLT x (x + 1) = true :=
  Serial.lt_add_of_pos (by decide) (by decide)

/-- The inverse of a weight is positive and at most `ONE_FP`. -/
theorem Stamps.invW_le (h : Stamps s) (hq : q ∈ s.live) :
    0 < (s.ext q).invW.toNat ∧ (s.ext q).invW.toNat ≤ oneFP := by
  obtain ⟨hlo, hhi⟩ := (h.queue q hq).weight
  have hw : (Wf2qp.weight s q).toNat = (s.par q 0).toNat := by
    rw [Wf2qp.weight, BitVec.toNat_ofInt]
    omega
  have hdiv : oneFP / (s.par q 0).toNat ≤ oneFP := Nat.div_le_self _ _
  have hlow : 0 < oneFP / (s.par q 0).toNat :=
    Nat.div_pos (by simp only [oneFP, fracBits]; omega) (by omega)
  rw [(h.queue q hq).invW, invWeight, BitVec.toNat_ofNat, hw, Nat.mod_eq_of_lt]
  · exact ⟨hlow, hdiv⟩
  · exact hdiv.trans_lt (by decide)

/-- The time that a packet takes, `len * inv_w`, does not overflow. -/
theorem Stamps.toNat_step (h : Stamps s) (hq : q ∈ s.live) (m : Mbuf) :
    (m.len64 * (s.ext q).invW.setWidth 64).toNat = m.len * (s.ext q).invW.toNat ∧
      m.len * (s.ext q).invW.toNat < 2 ^ 59 := by
  have hinv := (h.invW_le hq).2
  have hlen := m.len_lt
  have hlt : m.len * (s.ext q).invW.toNat < 2 ^ 59 := by
    calc m.len * (s.ext q).invW.toNat ≤ m.len * oneFP := Nat.mul_le_mul_left _ hinv
      _ < 2 ^ 31 * oneFP := Nat.mul_lt_mul_of_pos_right hlen (by decide)
      _ = 2 ^ 59 := by decide
  refine ⟨?_, hlt⟩
  rw [BitVec.toNat_mul, Mbuf.toNat_len64, BitVec.toNat_setWidth,
    Nat.mod_eq_of_lt (a := (s.ext q).invW.toNat) (by simp only [oneFP, fracBits] at hinv; omega),
    Nat.mod_eq_of_lt (by omega)]

theorem Stamps.exists_head (h : Stamps s) (hq : Backlogged s q) :
    ∃ m rest, s.mq q = m :: rest ∧
      (s.ext q).F = (s.ext q).S + m.len64 * (s.ext q).invW.setWidth 64 := by
  obtain ⟨m, rest, hm⟩ := List.exists_cons_of_ne_nil hq.2
  exact ⟨m, rest, hm, (h.queue q hq.1).busy m (by simp [hm])⟩

/-- A sum with a short time is not the mark of an invalid timestamp. -/
theorem ne_add_add_one {x d : BitVec 64} (hd : d.toNat < 2 ^ 59) : x ≠ x + d + 1 := by
  intro he
  have h0 : d + 1 = 0 := by
    rw [add_assoc] at he
    exact left_eq_add.1 he
  have := congrArg BitVec.toNat h0
  rw [BitVec.toNat_add] at this
  simp only [BitVec.ofNat_eq_ofNat, BitVec.toNat_ofNat] at this
  omega

theorem Stamps.valid_of_backlogged (h : Stamps s) (hq : Backlogged s q) : Valid s q := by
  obtain ⟨m, rest, -, hF⟩ := h.exists_head hq
  obtain ⟨hstep, hlt⟩ := h.toNat_step hq.1 m
  rw [Valid, hF]
  exact ne_add_add_one (hstep ▸ hlt)

theorem Stamps.window (h : Stamps s) (hc : Window c s) (hq : Backlogged s q) :
    Serial.InWindow c s.priv.V ∧ Serial.InWindow c (s.ext q).S ∧ Serial.InWindow c (s.ext q).F :=
  hc q hq.1 (h.valid_of_backlogged hq)

/-- In a window, the finish time of a backlogged queue is its start time and the time of its
first packet. -/
theorem Stamps.rank_F (h : Stamps s) (hc : Window c s) (hq : q ∈ s.live) {m : Mbuf}
    {rest : List Mbuf} (hm : s.mq q = m :: rest) :
    rank c (s.ext q).F = rank c (s.ext q).S + m.len * (s.ext q).invW.toNat := by
  obtain ⟨hstep, hlt⟩ := h.toNat_step hq m
  have hb : Backlogged s q := ⟨hq, by simp [hm]⟩
  rw [(h.queue q hq).busy m (by simp [hm]), Serial.rank_add (h.window hc hb).2.1 (by omega), hstep]

/-! ### Places -/

theorem home_of_not_mem (hq : q ∉ s.live) : home s q = none := if_pos hq

theorem home_of_idle (hq : q ∈ s.live) (hm : s.mq q = []) :
    home s q = if Valid s q then some (.idle, (s.ext q).F) else none := by
  rw [home, if_neg (not_not.2 hq), if_pos hm]

theorem home_of_backlogged (hq : Backlogged s q) :
    home s q = if keyLT s.priv.V (s.ext q).S then some (.ne, (s.ext q).S)
      else some (.sch, (s.ext q).F) := by
  rw [home, if_neg (not_not.2 hq.1), if_neg hq.2]

/-- What it means to have a home in one of the heaps. -/
theorem home_eq_some {w : WHeap} {k : BitVec 64} : home s q = some (w, k) ↔
    (w = .sch ∧ Backlogged s q ∧ keyLT s.priv.V (s.ext q).S = false ∧ k = (s.ext q).F) ∨
    (w = .ne ∧ Backlogged s q ∧ keyLT s.priv.V (s.ext q).S = true ∧ k = (s.ext q).S) ∨
    (w = .idle ∧ q ∈ s.live ∧ s.mq q = [] ∧ Valid s q ∧ k = (s.ext q).F) := by
  unfold home Backlogged
  split_ifs <;> grind

/-- A queue in a heap belongs to the instance and has valid timestamps; its key is one of them. -/
theorem Nearly.valid {loc : QPtr → Place} (hn : Nearly s loc) (hs : Stamps s) {w : WHeap}
    {k : BitVec 64} (hq : loc q = some (w, k)) :
    q ∈ s.live ∧ Valid s q ∧ (k = (s.ext q).S ∨ k = (s.ext q).F) := by
  rcases hn q with h | ⟨hb, -, h⟩
  · rw [h, home_eq_some] at hq
    rcases hq with ⟨-, hb, -, rfl⟩ | ⟨-, hb, -, rfl⟩ | ⟨-, hl, -, hv, rfl⟩
    · exact ⟨hb.1, hs.valid_of_backlogged hb, .inr rfl⟩
    · exact ⟨hb.1, hs.valid_of_backlogged hb, .inl rfl⟩
    · exact ⟨hl, hv, .inr rfl⟩
  · obtain ⟨-, rfl⟩ : WHeap.ne = w ∧ (s.ext q).S = k := by simpa [h] using hq
    exact ⟨hb.1, hs.valid_of_backlogged hb, .inl rfl⟩

theorem Nearly.keysIn {loc : QPtr → Place} (hn : Nearly s loc) (hs : Stamps s)
    (hc : Window c s) : KeysIn c loc := by
  intro q w k hq
  obtain ⟨hl, hv, rfl | rfl⟩ := hn.valid hs hq
  · exact (hc q hl hv).2.1
  · exact (hc q hl hv).2.2

theorem nearly_home (s : Wf2qp) : Nearly s (home s) := fun _ => .inl rfl

/-- The virtual time moves up: queues may become eligible, but stay where they are. -/
theorem Nearly.setV {loc : QPtr → Place} (hn : Nearly s loc) (hs : Stamps s) (hc : Window c s)
    {V : BitVec 64} (hV : Serial.InWindow c V) (hle : rank c s.priv.V ≤ rank c V) :
    Nearly (setV s V) loc := by
  have hdown : ∀ q, Backlogged s q → keyLT s.priv.V (s.ext q).S = false →
      keyLT V (s.ext q).S = false := by
    intro q hb hlt
    obtain ⟨hVc, hSc, -⟩ := hs.window hc hb
    rw [keyLT, ← Bool.not_eq_true, Serial.lt_iff hVc hSc, not_lt] at hlt
    rw [keyLT, ← Bool.not_eq_true, Serial.lt_iff hV hSc, not_lt]
    exact hlt.trans hle
  intro q
  rcases hn q with h | ⟨hb, hlt, h⟩
  · by_cases hb : Backlogged s q
    · rw [home_of_backlogged hb] at h
      have hhome : home (Wf2qp.setV s V) q = if keyLT V (s.ext q).S then
        some (.ne, (s.ext q).S) else some (.sch, (s.ext q).F) := home_of_backlogged hb
      rcases hold : keyLT s.priv.V (s.ext q).S with _ | _
      · refine .inl ?_
        rw [hhome, h, hold, hdown q hb hold]
      · rcases hnew : keyLT V (s.ext q).S with _ | _
        · exact .inr ⟨hb, hnew, by simp [h, hold, Wf2qp.setV]⟩
        · refine .inl ?_
          rw [hhome, h, hold, hnew]
    · refine .inl (h.trans ?_)
      by_cases hl : q ∈ s.live
      · have hm : s.mq q = [] := not_not.1 fun hm => hb ⟨hl, hm⟩
        rw [home_of_idle hl hm]
        exact (home_of_idle (s := Wf2qp.setV s V) hl hm).symm
      · rw [home_of_not_mem hl]
        exact (home_of_not_mem (s := Wf2qp.setV s V) hl).symm
  · exact .inr ⟨hb, hdown q hb hlt, h⟩

/-! ### The parts of the dequeue operation -/

@[simp] theorem data_insert (s : Wf2qp) (w : WHeap) (k : BitVec 64) (q : QPtr) :
    data (insertIn s w k q) = data s := rfl

@[simp] theorem elements_insert_of_ne (s : Wf2qp) {w w' : WHeap} (k : BitVec 64) (q : QPtr)
    (h : w' ≠ w) : elements (insertIn s w k q) w' = elements s w' := by
  simp [elements, insertIn, setHeap, h]

/-- Nothing eligible is left in `ne`: every queue is at home. -/
theorem Nearly.eq_home {loc : QPtr → Place} (hn : Nearly s loc)
    (hne : ∀ q, Backlogged s q → loc q = some (.ne, (s.ext q).S) →
      keyLT s.priv.V (s.ext q).S = true) : loc = home s := by
  funext q
  rcases hn q with h | ⟨hb, hlt, h⟩
  · exact h
  · exact absurd (hne q hb h) (by simp [hlt])

/-- **The queues that have become eligible move** to `sch`, and nothing else changes. -/
theorem moveEligible_spec (n : ℕ) : ∀ {s : Wf2qp} {loc : QPtr → Place}, Located s loc →
    Nearly s loc → Stamps s → Window c s → elements s .ne ≤ n →
      ∃ t, moveEligible n s = some t ∧ data t = data s ∧ Located t (home t) := by
  induction n with
  | zero =>
    intro s loc hloc hn hs hc hle
    refine ⟨s, rfl, rfl, ?_⟩
    rw [← hn.eq_home fun q _ hq => absurd hq (hloc.elements_eq_zero (by omega) q _)]
    exact hloc
  | succ n ih =>
    intro s loc hloc hn hs hc hle
    have hk := hn.keysIn hs hc
    rw [moveEligible]
    split_ifs with hif
    · obtain ⟨hpos, hleq⟩ := hif
      -- the top of `ne` is eligible and goes to `sch`, where its home is
      obtain ⟨t, ht, hdata, hel, hloct⟩ := extract_top_spec hloc hk hpos
      have htop := hloc.top hpos
      generalize (s.priv.heap .ne).topObject = q at htop hloct ht ⊢
      have hq : Backlogged s q ∧ keyLT s.priv.V (s.ext q).S = false := by
        rcases hn q with h | ⟨hb, hlt, -⟩
        · rw [h, home_eq_some] at htop
          rcases htop with ⟨h', -⟩ | ⟨-, hb, hlt, hS⟩ | ⟨h', -⟩
          · exact absurd h' (by decide)
          · obtain ⟨hV, hS', -⟩ := hs.window hc hb
            rw [hS, keyLEQ, Serial.le_iff hS' hV] at hleq
            rw [keyLT, Serial.lt_iff hV hS'] at hlt
            omega
          · exact absurd h' (by decide)
        · exact ⟨hb, hlt⟩
      have hF : (t.ext q).F = (s.ext q).F := F_eq hdata q
      have hkt : KeysIn c (Function.update loc q none) := by
        intro q' w k hq'
        rcases eq_or_ne q' q with rfl | hne
        · simp at hq'
        · exact hk q' w k (by rwa [Function.update_of_ne hne] at hq')
      obtain ⟨hins, hdata'⟩ := insert_spec (w := .sch) (k := (t.ext q).F) hloct hkt
        (hF ▸ (hs.window hc hq.1).2.2) (Function.update_self ..)
      rw [Function.update_idem] at hins
      have hdata'' := hdata'.trans hdata
      refine (ih hins (Nearly.of_eq hdata'' fun q' => ?_) (hs.of_eq hdata'')
        ((window_iff hdata'').2 hc) ?_).imp fun u hu => ⟨?_, hu.2.1.trans hdata'', hu.2.2⟩
      · rcases eq_or_ne q' q with rfl | hne
        · refine .inl ?_
          rw [Function.update_self, home_of_backlogged hq.1, hq.2, hF]
          rfl
        · rw [Function.update_of_ne hne]
          exact hn q'
      · rw [elements_insert_of_ne _ _ _ (by decide)]
        omega
      · rw [ht]
        exact hu.1
    · refine ⟨s, rfl, rfl, ?_⟩
      rw [← hn.eq_home fun q hb hq => ?_]
      · exact hloc
      · obtain ⟨hV, hS, -⟩ := hs.window hc hb
        have hpos := hloc.elements_pos hq
        have htop := hk _ _ _ (hloc.top hpos)
        have hnot : ¬ keyLEQ (s.priv.heap .ne).topKey s.priv.V = true := fun h => hif ⟨hpos, h⟩
        rw [keyLEQ, Serial.le_iff htop hV, not_le] at hnot
        rw [keyLT, Serial.lt_iff hV hS]
        exact hnot.trans_le (hloc.top_le hk hq)

end Dummynet.Wf2qp
