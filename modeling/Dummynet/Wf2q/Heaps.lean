import Dummynet.Wf2q.Model

/-!
# The heaps of a WF2Q+ instance

The three heaps share the field in which a queue records its place. What they hold is described
by one function, `Located`: for each queue the heap it is in, if any, and its key there. Then an
insertion or an extraction changes this function at one queue, and everything else that the
scheduler reads, its data, stays.

## Main definitions

* `Located`: the heaps are well formed and hold what a function says.
* `data`: an instance without its heaps.

## Main results

* `insert_spec`, `extract_top_spec`, `extract_obj_spec`: the operations on the heaps.
-/

namespace Dummynet.Wf2qp

/-- The heap where a queue is and its key there. -/
abbrev Place := Option (WHeap × BitVec 64)

/-- The heaps are well formed, and `loc` tells the heap and the key of every queue. -/
structure Located (s : Wf2qp) (loc : QPtr → Place) : Prop where
  wf : ∀ w, (s.priv.heap w).Wf (heapPos s)
  has : ∀ w k q, (s.priv.heap w).Has ⟨k, q⟩ ↔ loc q = some (w, k)

/-- The keys of all queues in the heaps lie in the window above `c`. -/
def KeysIn (c : BitVec 64) (loc : QPtr → Place) : Prop :=
  ∀ q w k, loc q = some (w, k) → Serial.InWindow c k

/-- What the scheduler knows apart from its heaps. -/
def data (s : Wf2qp) : Wf2qp :=
  { s with
    priv := { s.priv with heap := fun _ => ⟨0, 0, 0, fun _ => ⟨0, 0⟩⟩ }
    ext := fun q => { s.ext q with heapPos := 0 } }

@[simp] theorem data_setHeap (s : Wf2qp) (w : WHeap) (h : DnHeap QPtr) (pos : QPtr → ℤ) :
    data (setHeap s w h pos) = data s := rfl

@[simp] theorem priv_setTimes (s : Wf2qp) (q : QPtr) (S F : BitVec 64) :
    (setTimes s q S F).priv = s.priv := rfl

@[simp] theorem ext_setTimes_self (s : Wf2qp) (q : QPtr) (S F : BitVec 64) :
    (setTimes s q S F).ext q = { s.ext q with S := S, F := F } := Function.update_self ..

theorem ext_setTimes_of_ne (s : Wf2qp) {q q' : QPtr} (h : q' ≠ q) (S F : BitVec 64) :
    (setTimes s q S F).ext q' = s.ext q' := Function.update_of_ne h _ _

section Fields

variable {s t : Wf2qp}

theorem queue_eq (h : data t = data s) : t.queue = s.queue :=
  (congrArg Inst.queue h :)

theorem mq_eq (h : data t = data s) (q : QPtr) : t.mq q = s.mq q :=
  (congrArg (fun u : Wf2qp => u.mq q) h :)

theorem live_eq (h : data t = data s) : t.live = s.live := (congrArg Inst.live h :)

theorem V_eq (h : data t = data s) : t.priv.V = s.priv.V := congrArg (fun u => u.priv.V) h

theorem invWsum_eq (h : data t = data s) : t.priv.invWsum = s.priv.invWsum :=
  congrArg (fun u => u.priv.invWsum) h

theorem wsum_eq (h : data t = data s) : t.priv.wsum = s.priv.wsum :=
  congrArg (fun u => u.priv.wsum) h

theorem S_eq (h : data t = data s) (q : QPtr) : (t.ext q).S = (s.ext q).S :=
  congrArg (fun u => (u.ext q).S) h

theorem F_eq (h : data t = data s) (q : QPtr) : (t.ext q).F = (s.ext q).F :=
  congrArg (fun u => (u.ext q).F) h

theorem invW_eq (h : data t = data s) (q : QPtr) : (t.ext q).invW = (s.ext q).invW :=
  congrArg (fun u => (u.ext q).invW) h

theorem weight_eq (h : data t = data s) (q : QPtr) : weight t q = weight s q :=
  (congrArg (fun u => weight u q) h :)

end Fields

variable {s : Wf2qp} {loc : QPtr → Place} {c : BitVec 64}

theorem Located.mem_iff (h : Located s loc) (w : WHeap) (q : QPtr) :
    (s.priv.heap w).Mem q ↔ ∃ k, loc q = some (w, k) :=
  exists_congr fun k => h.has w k q

/-- Only the heaps and the positions recorded by the queues in them matter. -/
theorem Located.of_heaps {t : Wf2qp} (h : Located s loc) (hh : t.priv.heap = s.priv.heap)
    (hp : ∀ q, loc q ≠ none → heapPos t q = heapPos s q) : Located t loc := by
  refine ⟨fun w => ?_, fun w k q => ?_⟩
  · have hw := h.wf w
    rw [hh]
    refine ⟨hw.ofs_pos, hw.ordered, ⟨hw.indexed.inj, fun i hi hin => ?_⟩⟩
    rw [hp, hw.indexed.index i hi hin]
    rw [(h.has w _ _).1 (DnHeap.has_place hi)]
    exact Option.some_ne_none _
  · rw [hh]
    exact h.has w k q

theorem Located.of_heap_eq {t : Wf2qp} (h : Located s loc) (hh : t.priv.heap = s.priv.heap)
    (hp : heapPos t = heapPos s) : Located t loc :=
  h.of_heaps hh fun q _ => congrFun hp q

theorem Located.setV (h : Located s loc) (V : BitVec 64) : Located (setV s V) loc :=
  h.of_heap_eq rfl rfl

theorem Located.setTimes (h : Located s loc) (q : QPtr) (S F : BitVec 64) :
    Located (setTimes s q S F) loc := by
  refine h.of_heap_eq rfl (funext fun q' => ?_)
  rcases eq_or_ne q' q with rfl | hne
  · simp [heapPos, Wf2qp.setTimes]
  · simp [heapPos, Wf2qp.setTimes, hne]

theorem Located.subWeight (h : Located s loc) (q : QPtr) : Located (subWeight s q) loc :=
  h.of_heap_eq rfl rfl

theorem Located.inWindow (h : Located s loc) (hk : KeysIn c loc) (w : WHeap) :
    (s.priv.heap w).InWindow c :=
  fun e he => hk e.object w e.key ((h.has w e.key e.object).1 he)

theorem Located.elements_eq_zero (h : Located s loc) {w : WHeap} (h0 : elements s w = 0)
    (q : QPtr) (k : BitVec 64) : loc q ≠ some (w, k) := by
  intro hq
  obtain ⟨i, hi, -⟩ := (h.has w k q).2 hq
  exact absurd hi (by rw [show (s.priv.heap w).elements = 0 from h0]; omega)

theorem Located.elements_pos (h : Located s loc) {w : WHeap} {q : QPtr} {k : BitVec 64}
    (hq : loc q = some (w, k)) : 0 < elements s w :=
  Nat.pos_of_ne_zero fun h0 => h.elements_eq_zero h0 q k hq

/-- The queue at the top of a heap. -/
theorem Located.top (h : Located s loc) {w : WHeap} (hpos : 0 < elements s w) :
    loc (s.priv.heap w).topObject = some (w, (s.priv.heap w).topKey) :=
  (h.has _ _ _).1 (DnHeap.has_top hpos)

/-- The top of a heap has a least key. -/
theorem Located.top_le (h : Located s loc) (hk : KeysIn c loc) {w : WHeap} {q : QPtr}
    {k : BitVec 64} (hq : loc q = some (w, k)) :
    Serial.rank c (s.priv.heap w).topKey ≤ Serial.rank c k :=
  (h.wf w).top_le (h.inWindow hk w) ((h.has w k q).2 hq)

theorem heapPos_setHeap (s : Wf2qp) (w : WHeap) (h : DnHeap QPtr) (pos : QPtr → ℤ) :
    heapPos (setHeap s w h pos) = pos := rfl

/-- A heap that changes among queues that no other heap holds leaves the others well formed. -/
theorem Located.setHeap_wf (h : Located s loc) {w : WHeap} {h' : DnHeap QPtr} {pos : QPtr → ℤ}
    (hwf : h'.Wf pos) (hpos : ∀ q, (∀ k, loc q ≠ some (w, k)) → (∃ w' k, loc q = some (w', k)) →
      pos q = heapPos s q) (w' : WHeap) :
    ((setHeap s w h' pos).priv.heap w').Wf (heapPos (setHeap s w h' pos)) := by
  rw [heapPos_setHeap]
  rcases eq_or_ne w' w with rfl | hne
  · simpa [setHeap] using hwf
  · have hw := h.wf w'
    simp only [setHeap, Function.update_of_ne hne]
    refine ⟨hw.ofs_pos, hw.ordered, ⟨hw.indexed.inj, fun i hi hin => ?_⟩⟩
    have hi' := (h.has w' _ _).1 (DnHeap.has_place hi)
    rw [hpos _ (fun k hk => hne ?_) ⟨w', _, hi'⟩]
    · exact hw.indexed.index i hi hin
    · have := hi'.symm.trans hk
      simp only [Option.some.injEq, Prod.mk.injEq] at this
      exact this.1

theorem Located.setHeap_has (h : Located s loc) {w : WHeap} {h' : DnHeap QPtr} {pos : QPtr → ℤ}
    {q : QPtr} {p : Place} (hw : ∀ k q', h'.Has ⟨k, q'⟩ ↔ Function.update loc q p q' = some (w, k))
    (hq : ∀ w' k, w' ≠ w → loc q ≠ some (w', k) ∧ p ≠ some (w', k)) (w' : WHeap) (k : BitVec 64)
    (q' : QPtr) :
    ((setHeap s w h' pos).priv.heap w').Has ⟨k, q'⟩ ↔
      Function.update loc q p q' = some (w', k) := by
  rcases eq_or_ne w' w with rfl | hne
  · simpa [setHeap] using hw k q'
  · simp only [setHeap, Function.update_of_ne hne, h.has]
    rcases eq_or_ne q' q with rfl | hqne
    · simp [hq w' k hne]
    · rw [Function.update_of_ne hqne]

/-- **Insertion** of a queue that is in no heap. -/
theorem insert_spec (h : Located s loc) (hk : KeysIn c loc) {w : WHeap} {k : BitVec 64} {q : QPtr}
    (hkc : Serial.InWindow c k) (hq : loc q = none) :
    Located (insertIn s w k q) (Function.update loc q (some (w, k))) ∧
      data (insertIn s w k q) = data s := by
  have hmem : ¬ (s.priv.heap w).Mem q := by
    rw [h.mem_iff]
    rintro ⟨k', hk'⟩
    exact absurd (hq.symm.trans hk') (by simp)
  obtain ⟨h', pos, heq, hwf, hhas, hpos, -⟩ :=
    heapInsert_spec (h.wf w) (h.inWindow hk w) hkc hmem
  have hins : insertIn s w k q = setHeap s w h' pos := by rw [insertIn, heq]
  rw [hins]
  refine ⟨⟨h.setHeap_wf hwf fun q' hno hin => ?_, h.setHeap_has (fun k' q' => ?_) ?_⟩, rfl⟩
  · refine hpos q' ?_ fun hm => ?_
    · rintro rfl
      obtain ⟨w', k', hk'⟩ := hin
      exact absurd (hq.symm.trans hk') (by simp)
    · obtain ⟨k', hk'⟩ := (h.mem_iff w q').1 hm
      exact hno k' hk'
  · rw [hhas, h.has]
    rcases eq_or_ne q' q with rfl | hne
    · simp [hq, eq_comm]
    · simp [hne]
  · intro w' k' hne
    simp [hq, Ne.symm hne]

private theorem extract_spec (h : Located s loc) {w : WHeap} {k : BitVec 64} {q : QPtr}
    {h' : DnHeap QPtr} {pos : QPtr → ℤ} (hq : loc q = some (w, k)) (hwf : h'.Wf pos)
    (hhas : ∀ e, h'.Has e ↔ (s.priv.heap w).Has e ∧ e ≠ ⟨k, q⟩)
    (hpos : ∀ o, ¬ (s.priv.heap w).Mem o → pos o = heapPos s o) :
    Located (setHeap s w h' pos) (Function.update loc q none) := by
  refine ⟨h.setHeap_wf hwf fun q' hno _ => hpos q' fun hm => ?_,
    h.setHeap_has (fun k' q' => ?_) fun w' k' hne => ?_⟩
  · obtain ⟨k', hk'⟩ := (h.mem_iff w q').1 hm
    exact hno k' hk'
  · rw [hhas, h.has]
    rcases eq_or_ne q' q with rfl | hne
    · simp only [hq, Option.some.injEq, Prod.mk.injEq, true_and, Function.update_self,
        reduceCtorEq, iff_false, not_and, not_not]
      rintro rfl
      rfl
    · simp [hne]
  · simp [hq, Ne.symm hne]

/-- **Extraction** of the top of a heap. -/
theorem extract_top_spec (h : Located s loc) (hk : KeysIn c loc) {w : WHeap}
    (hpos : 0 < elements s w) :
    ∃ t, extractFrom s w none = some t ∧ data t = data s ∧ elements t w + 1 = elements s w ∧
      Located t (Function.update loc (s.priv.heap w).topObject none) := by
  obtain ⟨h', pos, heq, hwf, hhas, -, hout, hel⟩ :=
    heapExtract_top (h.wf w) (h.inWindow hk w) hpos
  refine ⟨setHeap s w h' pos, by rw [extractFrom, heq]; rfl, rfl, ?_,
    extract_spec h (h.top hpos) hwf hhas hout⟩
  simpa [elements, setHeap] using hel

/-- **Extraction** of a queue from the heap where it is. -/
theorem extract_obj_spec (h : Located s loc) (hk : KeysIn c loc) {w : WHeap} {k : BitVec 64}
    {q : QPtr} (hq : loc q = some (w, k)) :
    ∃ t, extractFrom s w (some q) = some t ∧ data t = data s ∧
      Located t (Function.update loc q none) := by
  obtain ⟨h', pos, heq, hwf, hhas, -, hout, -⟩ :=
    heapExtract_obj (h.wf w) (h.inWindow hk w) ((h.has w k q).2 hq)
  exact ⟨setHeap s w h' pos, by rw [extractFrom, heq]; rfl, rfl, extract_spec h hq hwf hhas hout⟩

end Dummynet.Wf2qp
