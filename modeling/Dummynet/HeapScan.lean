import Dummynet.Heap
import Dummynet.Lib.Visits

/-!
# Scans of the event heap

`heap_scan` calls a function for the objects of a heap and removes those that the function gives up:
the last entry takes the place of a removed one and is visited next. At the end `heapify` repairs
the order and the positions.

A removed object keeps the position that it had before the scan, where `heap_extract` makes it
invalid. As long as the heap has so many entries, a later extraction of the object is not noticed,
and removes another one.

## Main definitions

* `heapScanLoop`, `heapify`, `heapScan`: the functions.
* `DnHeap.LastOnes`: the callback gives up the entries at the end of the array only.

## Main results

* `heapify_spec`: `heapify` makes a heap of any array.
* `heapScanLoop_scanning`: what the loop does.
* `heapScan_spec_iff`: the positions of the removed objects are invalid for a callback that gives
  up the last entries.
-/

namespace Dummynet

variable {Obj : Type}

/-- What a callback returns: `HEAP_SCAN_DEL` and `HEAP_SCAN_END`. -/
structure HeapScanRet where
  del : Bool
  stop : Bool
  deriving DecidableEq

/-- A callback, which may depend on the objects that it was called with before. -/
abbrev HeapScanFn (Obj : Type) := List Obj → Obj → HeapScanRet

/-- The entry at place `i` goes, and the last one takes its place. -/
def DnHeap.drop (h : DnHeap Obj) (i : ℕ) : DnHeap Obj :=
  { h with elements := h.elements - 1 }.put i (h.p (h.elements - 1))

/-- The loop of `heap_scan` from the place `i` on. The results are the heap, the objects that were
visited, and the number of those removed. Every round comes closer to the end of the array, so that
`elements` rounds are enough. -/
def heapScanLoop (fn : HeapScanFn Obj) :
    ℕ → DnHeap Obj → ℕ → List Obj → ℕ → DnHeap Obj × List Obj × ℕ
  | 0, h, _, vs, found => (h, vs, found)
  | n + 1, h, i, vs, found =>
    if i < h.elements then
      let o := (h.p i).object
      let ret := fn vs o
      let h' := if ret.del then h.drop i else h
      let i' := if ret.del then i else i + 1
      let found' := if ret.del then found + 1 else found
      if ret.stop then (h', vs ++ [o], found') else heapScanLoop fn n h' i' (vs ++ [o]) found'
    else (h, vs, found)

section Operations

variable [DecidableEq Obj]

/-- `heapify`: the entries move up one after the other. -/
def heapify (h : DnHeap Obj) (pos : Obj → ℤ) : DnHeap Obj × (Obj → ℤ) :=
  (List.range h.elements).foldl (fun s i => heapInsertNull s.1 s.2 i) (h, pos)

/-- `heap_scan`. -/
def heapScan (fn : HeapScanFn Obj) (h : DnHeap Obj) (pos : Obj → ℤ) :
    ℕ × DnHeap Obj × (Obj → ℤ) :=
  let (h, _, found) := heapScanLoop fn h.elements h 0 [] 0
  (found, if found ≠ 0 then heapify h pos else (h, pos))

end Operations

/-- The objects for which `heap_scan` calls the callback, in the order of the calls. -/
def heapVisits (fn : HeapScanFn Obj) (h : DnHeap Obj) : List Obj :=
  (heapScanLoop fn h.elements h 0 [] 0).2.1

/-- The callback has returned `HEAP_SCAN_DEL` for the object. -/
def TakenOut (fn : HeapScanFn Obj) (vs : List Obj) (o : Obj) : Prop :=
  Visits.Answered (fun d q => (fn d q).del) vs o

/-! ### `heapify` -/

section Spec

variable [DecidableEq Obj] {h : DnHeap Obj} {pos : Obj → ℤ} {c : BitVec 64} {fn : HeapScanFn Obj}

/-- The loop of `heap_insert` does not read the number of the elements. -/
theorem bubbleUp_withElements (m fuel : ℕ) : ∀ (h : DnHeap Obj) (pos : Obj → ℤ) (son : ℕ),
    bubbleUp fuel { h with elements := m } pos son =
      ({ (bubbleUp fuel h pos son).1 with elements := m }, (bubbleUp fuel h pos son).2) := by
  induction fuel with
  | zero => exact fun _ _ _ => rfl
  | succ fuel ih =>
    intro h pos son
    rw [bubbleUp, bubbleUp]
    split_ifs
    · rfl
    · rfl
    · exact ih (h.swap son (BinHeap.parent son)) _ _

/-- It does not reach the entries behind the one that moves. -/
theorem bubbleUp_behind (fuel : ℕ) : ∀ (h : DnHeap Obj) (pos : Obj → ℤ) {son j : ℕ}, son < j →
    (bubbleUp fuel h pos son).1.p j = h.p j := by
  induction fuel with
  | zero => exact fun _ _ _ _ _ => rfl
  | succ fuel ih =>
    intro h pos son j hj
    rw [bubbleUp]
    split_ifs with h0 hlt
    · rfl
    · rfl
    · have hp := BinHeap.parent_lt (Nat.pos_of_ne_zero h0)
      rw [ih _ _ (hp.trans hj)]
      exact congrArg h.p (Equiv.swap_apply_of_ne_of_ne hj.ne' (hp.trans hj).ne')

/-- The state of `heapify` before the entry at place `i` moves: the entries before it form a heap,
and nothing is lost. -/
structure Heaping (h : DnHeap Obj) (pos : Obj → ℤ) (i : ℕ) (t : DnHeap Obj) (pos' : Obj → ℤ) :
    Prop where
  wf : DnHeap.Wf { t with elements := i } pos'
  elements : t.elements = h.elements
  has : ∀ e, t.Has e ↔ h.Has e
  inj : ∀ j k, j < h.elements → k < h.elements → (t.p j).object = (t.p k).object → j = k
  other : ∀ o, ¬ h.Mem o → pos' o = pos o

/-- One entry moves. -/
theorem Heaping.step {t : DnHeap Obj} {pos' : Obj → ℤ} {i : ℕ} (ht : Heaping h pos i t pos')
    (hc : h.InWindow c) (hi : i < h.elements) :
    Heaping h pos (i + 1) (heapInsertNull t pos' i).1 (heapInsertNull t pos' i).2 := by
  have hfirst : ∀ {m e}, m ≤ h.elements → BinHeap.Content t.p m e → h.Has e := by
    rintro m e hm ⟨j, hj, rfl⟩
    exact (ht.has _).1 (DnHeap.has_place (by rw [ht.elements]; omega))
  have hwin : DnHeap.InWindow { t with elements := i } c := fun e he => hc e (hfirst hi.le he)
  have hold : BinHeap.Indexed (fun j => (t.p j).object) pos' i i := ht.wf.indexed
  have hb : Bubbling { t with elements := i + 1 } pos' c i := by
    refine ⟨⟨ht.wf.ofs_pos, Nat.lt_succ_self i, ⟨fun j k hj hk hji hki he => ?_, fun j hj hji => ?_⟩,
      fun j hj hji he => ?_⟩, fun e he => hc e (hfirst hi he), ?_⟩
    · have hj : j < i + 1 := hj
      have hk : k < i + 1 := hk
      exact hold.inj j k (by omega) (by omega) (by omega) (by omega) he
    · have hj : j < i + 1 := hj
      exact hold.index j (by omega) (by omega)
    · have hj : j < i + 1 := hj
      exact hji (ht.inj j i (by omega) hi he)
    · exact ((ordered_iff_rank hwin).1 ht.wf.ordered).upTo
  obtain ⟨hwf, hhas, hother, -⟩ := bubbleUp_spec i le_rfl hb
  rw [bubbleUp_withElements] at hwf hhas hother
  have hel : (bubbleUp i t pos' i).1.elements = t.elements :=
    congrArg (fun x => x.1.elements) (bubbleUp_withElements t.elements i t pos' i)
  have hbehind := fun j (hj : i < j) => bubbleUp_behind i t pos' hj
  unfold heapInsertNull
  generalize bubbleUp i t pos' i = r at hwf hhas hother hel hbehind ⊢
  have hsmall : ∀ j ≤ i, ∃ j' ≤ i, t.p j' = r.1.p j := fun j hj => by
    obtain ⟨j', hj', he⟩ := (hhas (r.1.p j)).1 ⟨j, Nat.lt_succ_of_le hj, rfl⟩
    exact ⟨j', Nat.le_of_lt_succ hj', he⟩
  have hcross : ∀ j k, j ≤ i → i < k → k < h.elements →
      (r.1.p j).object ≠ (r.1.p k).object := by
    intro j k hj hk hkn he
    obtain ⟨j', hj', hp⟩ := hsmall j hj
    rw [hbehind k hk, ← hp] at he
    have := ht.inj j' k (by omega) hkn he
    omega
  refine ⟨hwf, hel.trans ht.elements, fun e => ?_, fun j k hj hk he => ?_, fun o ho => ?_⟩
  · rw [← ht.has e]
    constructor
    · rintro ⟨j, hj, rfl⟩
      rw [hel] at hj
      rcases Nat.lt_or_ge i j with hij | hij
      · rw [hbehind j hij]
        exact ⟨j, hj, rfl⟩
      · obtain ⟨j', hj', hp⟩ := hsmall j hij
        exact ⟨j', by rw [ht.elements]; omega, hp⟩
    · rintro ⟨j, hj, rfl⟩
      rcases Nat.lt_or_ge i j with hij | hij
      · exact ⟨j, by rw [hel]; exact hj, hbehind j hij⟩
      · obtain ⟨j', hj', hp⟩ := (hhas (t.p j)).2 ⟨j, Nat.lt_succ_of_le hij, rfl⟩
        have hj' : j' < i + 1 := hj'
        exact ⟨j', by rw [hel, ht.elements]; omega, hp⟩
  · rcases Nat.lt_or_ge i j with hij | hij <;> rcases Nat.lt_or_ge i k with hik | hik
    · rw [hbehind j hij, hbehind k hik] at he
      exact ht.inj j k hj hk he
    · exact absurd he.symm (hcross k j hik hij hj)
    · exact absurd he (hcross j k hij hik hk)
    · exact hwf.indexed.inj j k (Nat.lt_succ_of_le hij) (Nat.lt_succ_of_le hik) (by dsimp only; omega)
        (by dsimp only; omega) he
  · rw [hother o fun ⟨k, hk⟩ => ho ⟨k, hfirst hi hk⟩]
    exact ht.other o ho

/-- **`heapify`** makes a heap of an array of different objects, with the same entries, and writes
the positions of these objects only. -/
theorem heapify_spec (hofs : 0 < h.ofs) (hc : h.InWindow c)
    (hinj : ∀ j k, j < h.elements → k < h.elements → (h.p j).object = (h.p k).object → j = k) :
    (heapify h pos).1.Wf (heapify h pos).2 ∧ (∀ e, (heapify h pos).1.Has e ↔ h.Has e) ∧
      (∀ o, ¬ h.Mem o → (heapify h pos).2 o = pos o) ∧
      (heapify h pos).1.elements = h.elements := by
  have hloop : ∀ i ≤ h.elements, Heaping h pos i
      ((List.range i).foldl (fun s i => heapInsertNull s.1 s.2 i) (h, pos)).1
      ((List.range i).foldl (fun s i => heapInsertNull s.1 s.2 i) (h, pos)).2 := by
    intro i
    induction i with
    | zero =>
      intro _
      exact ⟨⟨hofs, fun i _ hi => absurd hi (Nat.not_lt_zero i),
        ⟨fun i _ hi => absurd hi (Nat.not_lt_zero i), fun i hi => absurd hi (Nat.not_lt_zero i)⟩⟩,
        rfl, fun _ => Iff.rfl, hinj, fun _ _ => rfl⟩
    | succ i ih =>
      intro hi
      rw [List.range_succ, List.foldl_append]
      exact (ih (by omega)).step hc hi
  have hend := hloop h.elements le_rfl
  rw [← heapify] at hend
  have hself : { (heapify h pos).1 with elements := h.elements } = (heapify h pos).1 := by
    rw [← hend.elements]
  exact ⟨hself ▸ hend.wf, hend.has, hend.other, hend.elements⟩

omit [DecidableEq Obj]

/-! ### The loop -/

/-- The state of `heap_scan` on the heap `h`: the entries that were not removed are still there, and
those from the place `i` on were not visited yet. -/
structure Scanning (fn : HeapScanFn Obj) (h t : DnHeap Obj) (i : ℕ) (vs : List Obj) (found : ℕ) :
    Prop where
  ofs : t.ofs = h.ofs
  le : i ≤ t.elements
  elements : t.elements + found = h.elements
  inj : ∀ j k, j < t.elements → k < t.elements → (t.p j).object = (t.p k).object → j = k
  has : ∀ e, t.Has e ↔ h.Has e ∧ ¬ TakenOut fn vs e.object
  seen : ∀ e, h.Has e → e.object ∈ vs ∨ ∃ j, i ≤ j ∧ j < t.elements ∧ t.p j = e
  ahead : ∀ j, i ≤ j → j < t.elements → (t.p j).object ∉ vs
  nodup : vs.Nodup
  mem : ∀ o ∈ vs, h.Mem o

theorem Scanning.start (hinj : ∀ j k, j < h.elements → k < h.elements →
    (h.p j).object = (h.p k).object → j = k) : Scanning fn h h 0 [] 0 where
  ofs := rfl
  le := Nat.zero_le _
  elements := rfl
  inj := hinj
  has _ := (and_iff_left Visits.not_answered_nil).symm
  seen _ := fun ⟨j, hj, he⟩ => .inr ⟨j, Nat.zero_le j, hj, he⟩
  ahead _ _ _ := List.not_mem_nil
  nodup := .nil
  mem _ ho := absurd ho List.not_mem_nil

theorem DnHeap.drop_p {t : DnHeap Obj} {i j : ℕ} :
    (t.drop i).p j = if j = i then t.p (t.elements - 1) else t.p j :=
  Function.update_apply _ _ _ _

variable {t : DnHeap Obj} {i : ℕ} {vs : List Obj} {found : ℕ}

theorem DnHeap.drop_has (hi : i < t.elements)
    (hinj : ∀ j k, j < t.elements → k < t.elements → (t.p j).object = (t.p k).object → j = k)
    (e : DnHeapEntry Obj) : (t.drop i).Has e ↔ t.Has e ∧ e.object ≠ (t.p i).object := by
  constructor
  · rintro ⟨j, hj, rfl⟩
    have hj : j < t.elements - 1 := hj
    rw [DnHeap.drop_p]
    split_ifs with hji
    · exact ⟨DnHeap.has_place (by omega), fun he => by
        have := hinj _ _ (by omega) hi he
        omega⟩
    · exact ⟨DnHeap.has_place (by omega), fun he => hji (hinj _ _ (by omega) hi he)⟩
  · rintro ⟨⟨j, hj, rfl⟩, hne⟩
    have hji : j ≠ i := fun h => hne (by rw [h])
    by_cases hlast : j = t.elements - 1
    · exact ⟨i, (by omega : i < t.elements - 1), by rw [DnHeap.drop_p, if_pos rfl, hlast]⟩
    · exact ⟨j, (by omega : j < t.elements - 1), by rw [DnHeap.drop_p, if_neg hji]⟩

/-- One call of the callback. -/
theorem Scanning.step (hs : Scanning fn h t i vs found) (hi : i < t.elements) :
    Scanning fn h (if (fn vs (t.p i).object).del then t.drop i else t)
      (if (fn vs (t.p i).object).del then i else i + 1) (vs ++ [(t.p i).object])
      (if (fn vs (t.p i).object).del then found + 1 else found) := by
  have hnd : (vs ++ [(t.p i).object]).Nodup :=
    List.nodup_append.2 ⟨hs.nodup, List.nodup_singleton _, fun a ha b hb hab => by
      rw [List.mem_singleton] at hb
      exact hs.ahead i le_rfl hi (hb ▸ hab ▸ ha)⟩
  have hmem : ∀ o ∈ vs ++ [(t.p i).object], h.Mem o := fun o ho => by
    rcases List.mem_append.1 ho with ho | ho
    · exact hs.mem o ho
    · rw [List.mem_singleton.1 ho]
      exact ⟨_, ((hs.has _).1 (DnHeap.has_place hi)).1⟩
  have hgone : ∀ q, TakenOut fn (vs ++ [(t.p i).object]) q ↔
      TakenOut fn vs q ∨ q = (t.p i).object ∧ (fn vs (t.p i).object).del = true :=
    fun q => Visits.answered_concat
  have hfresh : ∀ {j}, i ≤ j → j < t.elements → j ≠ i →
      (t.p j).object ∉ vs ++ [(t.p i).object] := by
    intro j hij hj hji ho
    rcases List.mem_append.1 ho with ho | ho
    · exact hs.ahead j hij hj ho
    · exact hji (hs.inj j i hj hi (List.mem_singleton.1 ho))
  have hseen : ∀ e, h.Has e → e.object ∈ vs ++ [(t.p i).object] ∨
      ∃ j, i < j ∧ j < t.elements ∧ t.p j = e := by
    intro e he
    rcases hs.seen e he with hin | ⟨j, hij, hj, rfl⟩
    · exact .inl (List.mem_append_left _ hin)
    · rcases eq_or_lt_of_le hij with rfl | hij
      · exact .inl (by simp)
      · exact .inr ⟨j, hij, hj, rfl⟩
  have hel := hs.elements
  split_ifs with hdel
  · refine ⟨hs.ofs, (by omega : i ≤ t.elements - 1),
      (by omega : t.elements - 1 + (found + 1) = h.elements), fun j k hj hk he => ?_, fun e => ?_,
      fun e he => ?_, fun j hij hj => ?_, hnd, hmem⟩
    · have hj : j < t.elements - 1 := hj
      have hk : k < t.elements - 1 := hk
      rw [DnHeap.drop_p, DnHeap.drop_p] at he
      split_ifs at he with hji hki hki
      · omega
      · have := hs.inj _ _ (by omega) (by omega) he
        omega
      · have := hs.inj _ _ (by omega) (by omega) he
        omega
      · exact hs.inj _ _ (by omega) (by omega) he
    · rw [DnHeap.drop_has hi hs.inj, hs.has, hgone, and_assoc, not_or]
      simp only [hdel, and_true]
    · refine (hseen e he).imp_right ?_
      rintro ⟨j, hij, hj, rfl⟩
      by_cases hlast : j = t.elements - 1
      · exact ⟨i, le_rfl, (by omega : i < t.elements - 1),
          by rw [DnHeap.drop_p, if_pos rfl, hlast]⟩
      · exact ⟨j, hij.le, (by omega : j < t.elements - 1),
          by rw [DnHeap.drop_p, if_neg hij.ne']⟩
    · have hj : j < t.elements - 1 := hj
      rw [DnHeap.drop_p]
      split_ifs with hji
      · exact hfresh (by omega) (by omega) (by omega)
      · exact hfresh hij (by omega) hji
  · refine ⟨hs.ofs, hi, hel, hs.inj, fun e => ?_, fun e he => ?_, fun j hij hj => ?_, hnd, hmem⟩
    · rw [hs.has, hgone]
      simp only [hdel, Bool.false_eq_true, and_false, or_false]
    · exact (hseen e he).imp_right fun ⟨j, hij, hj, he⟩ => ⟨j, hij, hj, he⟩
    · exact hfresh (by omega) hj (by omega)

theorem heapScanLoop_end (n : ℕ) (hi : ¬ i < t.elements) :
    heapScanLoop fn n t i vs found = (t, vs, found) := by
  cases n with
  | zero => rfl
  | succ n => rw [heapScanLoop, if_neg hi]

theorem heapScanLoop_stop (n : ℕ) (hi : i < t.elements)
    (hstop : (fn vs (t.p i).object).stop = true) :
    heapScanLoop fn (n + 1) t i vs found =
      (if (fn vs (t.p i).object).del then t.drop i else t, vs ++ [(t.p i).object],
        if (fn vs (t.p i).object).del then found + 1 else found) := by
  rw [heapScanLoop, if_pos hi]
  dsimp only
  rw [if_pos hstop]

theorem heapScanLoop_next (n : ℕ) (hi : i < t.elements)
    (hstop : ¬ (fn vs (t.p i).object).stop = true) :
    heapScanLoop fn (n + 1) t i vs found =
      heapScanLoop fn n (if (fn vs (t.p i).object).del then t.drop i else t)
        (if (fn vs (t.p i).object).del then i else i + 1) (vs ++ [(t.p i).object])
        (if (fn vs (t.p i).object).del then found + 1 else found) := by
  rw [heapScanLoop, if_pos hi]
  dsimp only
  rw [if_neg hstop]

/-- **The loop of `heap_scan`** ends at the end of the array or where the callback says so. -/
theorem heapScanLoop_scanning (fn : HeapScanFn Obj) (n : ℕ) : ∀ {t : DnHeap Obj} {i : ℕ} {vs : List Obj} {found : ℕ},
    Scanning fn h t i vs found → t.elements ≤ i + n →
    ∃ i', Scanning fn h (heapScanLoop fn n t i vs found).1 i' (heapScanLoop fn n t i vs found).2.1
        (heapScanLoop fn n t i vs found).2.2 ∧ i ≤ i' ∧
      (i' = (heapScanLoop fn n t i vs found).1.elements ∨
        ∃ o, Visits.Answered (fun d q => (fn d q).stop) (heapScanLoop fn n t i vs found).2.1 o) := by
  induction n with
  | zero =>
    intro t i vs found hs hn
    have := hs.le
    exact ⟨i, hs, le_rfl, .inl (by change i = t.elements; omega)⟩
  | succ n ih =>
    intro t i vs found hs hn
    by_cases hi : i < t.elements
    · have hstep := hs.step hi
      have hle : i ≤ if (fn vs (t.p i).object).del then i else i + 1 := by split_ifs <;> omega
      by_cases hstop : (fn vs (t.p i).object).stop = true
      · rw [heapScanLoop_stop n hi hstop]
        exact ⟨_, hstep, hle, .inr ⟨_, vs, [], rfl, hstop⟩⟩
      · rw [heapScanLoop_next n hi hstop]
        obtain ⟨i', hs', hle', hend⟩ := ih hstep (by
          split_ifs
          · change t.elements - 1 ≤ i + n
            omega
          · omega)
        exact ⟨i', hs', hle.trans hle', hend⟩
    · rw [heapScanLoop_end _ hi]
      have := hs.le
      exact ⟨i, hs, le_rfl, .inl (by dsimp only; omega)⟩

/-! ### Callbacks that give up the last entries -/

/-- The objects at the first `k` places. -/
def DnHeap.objs (h : DnHeap Obj) (k : ℕ) : List Obj := (List.range k).map fun i => (h.p i).object

/-- The objects behind place `j`, the last one first. -/
def DnHeap.objsDown (h : DnHeap Obj) (j : ℕ) : List Obj :=
  ((List.range' (j + 1) (h.elements - (j + 1))).map fun i => (h.p i).object).reverse

theorem DnHeap.objs_succ (h : DnHeap Obj) (k : ℕ) :
    h.objs (k + 1) = h.objs k ++ [(h.p k).object] := by
  simp [DnHeap.objs, List.range_succ]

theorem DnHeap.objsDown_pred {k : ℕ} (hk : k + 1 < h.elements) :
    h.objsDown k = h.objsDown (k + 1) ++ [(h.p (k + 1)).object] := by
  obtain ⟨d, hd⟩ : ∃ d, h.elements - (k + 1) = d + 1 := ⟨h.elements - (k + 1) - 1, by omega⟩
  have hd' : h.elements - (k + 1 + 1) = d := by omega
  rw [DnHeap.objsDown, DnHeap.objsDown, hd, hd', List.range'_succ, List.map_cons,
    List.reverse_cons]

theorem DnHeap.objsDown_last {k : ℕ} (hk : k + 1 = h.elements) : h.objsDown k = [] := by
  rw [DnHeap.objsDown, hk, Nat.sub_self]
  rfl

/-- The callback says nothing for the objects at the first `m` places. -/
def DnHeap.Quiet (h : DnHeap Obj) (fn : HeapScanFn Obj) (m : ℕ) : Prop :=
  ∀ j < m, fn (h.objs j) (h.p j).object = ⟨false, false⟩

/-- What the callback says for the object at place `j`, after those up to place `m` and, beginning
with the last one, those behind place `j`. -/
def DnHeap.answer (h : DnHeap Obj) (fn : HeapScanFn Obj) (m j : ℕ) : HeapScanRet :=
  fn (h.objs (m + 1) ++ h.objsDown j) (h.p j).object

/-- The callback gives up all entries from place `m` on: it does so for the one at place `m` when it
has said nothing before, and then for all entries behind it, from the last one on; and if it ends the
scan, then for the last of them. -/
structure DnHeap.GivesUpFrom (h : DnHeap Obj) (fn : HeapScanFn Obj) (m : ℕ) : Prop where
  stop : m + 1 < h.elements → (fn (h.objs m) (h.p m).object).stop = false
  del : ∀ j, m < j → j < h.elements → (h.answer fn m j).del = true
  go : ∀ j, m + 1 < j → j < h.elements → (h.answer fn m j).stop = false

/-- **The callback gives up the last entries only**: if there is an entry that it gives up, having
said nothing before, then it gives up all entries from there on. -/
def DnHeap.LastOnes (h : DnHeap Obj) (fn : HeapScanFn Obj) : Prop :=
  ∀ m < h.elements, h.Quiet fn m → (fn (h.objs m) (h.p m).object).del = true → h.GivesUpFrom fn m

/-- The loop leaves the entries that it has passed. -/
theorem heapScanLoop_le (n : ℕ) : ∀ {t : DnHeap Obj} {i : ℕ} {vs : List Obj} {found : ℕ},
    i ≤ t.elements → i ≤ (heapScanLoop fn n t i vs found).1.elements := by
  induction n with
  | zero => exact fun h => h
  | succ n ih =>
    intro t i vs found hle
    by_cases hi : i < t.elements
    · have hstep : (if (fn vs (t.p i).object).del then i else i + 1) ≤
          (if (fn vs (t.p i).object).del then t.drop i else t).elements := by
        split_ifs
        · change i ≤ t.elements - 1
          omega
        · exact hi
      have hle' : i ≤ if (fn vs (t.p i).object).del then i else i + 1 := by split_ifs <;> omega
      by_cases hstop : (fn vs (t.p i).object).stop = true
      · rw [heapScanLoop_stop n hi hstop]
        exact hle'.trans hstep
      · rw [heapScanLoop_next n hi hstop]
        exact hle'.trans (ih hstep)
    · rw [heapScanLoop_end _ hi]
      exact hle

/-- The loop removes all entries from place `m` on if the callback gives them up, the last one
first. -/
theorem heapScanLoop_le_iff {m : ℕ} (n : ℕ) : ∀ {t : DnHeap Obj} {k found : ℕ},
    t.elements = k → m ≤ k → k < h.elements → k ≤ m + n → (m < k → t.p m = h.p k) →
    (∀ j, m < j → j < k → t.p j = h.p j) →
    ((heapScanLoop fn n t m (h.objs (m + 1) ++ h.objsDown k) found).1.elements ≤ m ↔
      ∀ j, m < j → j ≤ k →
        (h.answer fn m j).del = true ∧ (m + 1 < j → (h.answer fn m j).stop = false)) := by
  induction n with
  | zero =>
    intro t k found hk hmk _ hn _ _
    constructor
    · intro _ j hj hjk
      omega
    · intro _
      change t.elements ≤ m
      omega
  | succ n ih =>
    intro t k found hk hmk hkn hn hm hrest
    rcases eq_or_lt_of_le hmk with rfl | hlt
    · rw [heapScanLoop_end _ (by omega)]
      exact ⟨fun _ j hj hjk => by omega, fun _ => hk.le⟩
    · have hi : m < t.elements := by omega
      have hans : fn (h.objs (m + 1) ++ h.objsDown k) (t.p m).object = h.answer fn m k := by
        rw [hm hlt]
        rfl
      cases hdel : (h.answer fn m k).del with
      | false =>
        -- the entry stays
        have hgt : m + 1 ≤ (heapScanLoop fn (n + 1) t m (h.objs (m + 1) ++ h.objsDown k)
            found).1.elements := by
          cases hstop : (h.answer fn m k).stop with
          | true =>
            rw [heapScanLoop_stop n hi (hans ▸ hstop), hans, hdel]
            exact hi
          | false =>
            rw [heapScanLoop_next n hi (hans ▸ by simp [hstop]), hans, hdel]
            exact heapScanLoop_le n hi
        constructor
        · intro hle
          omega
        · intro hall
          have := (hall k hlt le_rfl).1
          rw [hdel] at this
          cases this
      | true =>
        cases hstop : (h.answer fn m k).stop with
        | true =>
          rw [heapScanLoop_stop n hi (hans ▸ hstop), hans, hdel]
          change t.elements - 1 ≤ m ↔ _
          constructor
          · intro hle j hj hjk
            obtain rfl : j = k := by omega
            exact ⟨hdel, fun hj' => by omega⟩
          · intro hall
            by_contra hlt'
            have := (hall k hlt le_rfl).2 (by omega)
            rw [hstop] at this
            cases this
        | false =>
          obtain ⟨k, rfl⟩ : ∃ l, k = l + 1 := ⟨k - 1, by omega⟩
          rw [heapScanLoop_next n hi (hans ▸ by simp [hstop]), hans, hdel, hm hlt,
            List.append_assoc, ← DnHeap.objsDown_pred hkn]
          refine Iff.trans (ih (t := t.drop m) (k := k) (congrArg (· - 1) hk) (by omega) (by omega)
            (by omega) (fun hmk' => ?_) fun j hj hjk => ?_) ⟨fun hall j hj hjk => ?_,
              fun hall j hj hjk => hall j hj (by omega)⟩
          · rw [DnHeap.drop_p, if_pos rfl, hk]
            exact hrest k hmk' (Nat.lt_succ_self k)
          · rw [DnHeap.drop_p, if_neg hj.ne']
            exact hrest j hj (by omega)
          · rcases eq_or_lt_of_le hjk with rfl | hjk
            · exact ⟨hdel, fun _ => hstop⟩
            · exact hall j hj (by omega)

/-- The loop goes on visiting. -/
theorem heapScanLoop_visits (fn : HeapScanFn Obj) (n : ℕ) :
    ∀ (t : DnHeap Obj) (i : ℕ) (vs : List Obj) (found : ℕ),
      vs <+: (heapScanLoop fn n t i vs found).2.1 := by
  induction n with
  | zero => exact fun _ _ _ _ => List.prefix_rfl
  | succ n ih =>
    intro t i vs found
    by_cases hi : i < t.elements
    · by_cases hstop : (fn vs (t.p i).object).stop = true
      · rw [heapScanLoop_stop n hi hstop]
        exact List.prefix_append _ _
      · rw [heapScanLoop_next n hi hstop]
        exact (List.prefix_append _ _).trans (ih _ _ _ _)
    · rw [heapScanLoop_end _ hi]

/-- A loop that removes nothing leaves the heap as it is. -/
theorem heapScanLoop_found (fn : HeapScanFn Obj) (n : ℕ) :
    ∀ (t : DnHeap Obj) (i : ℕ) (vs : List Obj) (found : ℕ),
      found ≤ (heapScanLoop fn n t i vs found).2.2 ∧
      ((heapScanLoop fn n t i vs found).2.2 = found →
        (heapScanLoop fn n t i vs found).1 = t) := by
  induction n with
  | zero => exact fun _ _ _ _ => ⟨le_rfl, fun _ => rfl⟩
  | succ n ih =>
    intro t i vs found
    by_cases hi : i < t.elements
    · cases hdel : (fn vs (t.p i).object).del <;> by_cases hstop : (fn vs (t.p i).object).stop = true
      · rw [heapScanLoop_stop n hi hstop, hdel]
        exact ⟨le_rfl, fun _ => rfl⟩
      · rw [heapScanLoop_next n hi hstop, hdel]
        exact ih _ _ _ _
      · rw [heapScanLoop_stop n hi hstop, hdel]
        exact ⟨Nat.le_succ found, fun h => absurd h (Nat.succ_ne_self found)⟩
      · rw [heapScanLoop_next n hi hstop, hdel]
        obtain ⟨hle, -⟩ := ih (t.drop i) i (vs ++ [(t.p i).object]) (found + 1)
        simp only [if_true]
        exact ⟨by omega, fun h => by omega⟩
    · rw [heapScanLoop_end _ hi]
      exact ⟨le_rfl, fun _ => rfl⟩

/-- As long as the callback says nothing, the loop goes through the array: to a first entry that is
given up, if there is one. -/
theorem heapScanLoop_quiet (d : ℕ) : ∀ {i : ℕ}, i + d = h.elements → h.Quiet fn i →
    ((heapScanLoop fn d h i (h.objs i) 0).1 = h ∧
      ∀ m < h.elements, h.Quiet fn m → (fn (h.objs m) (h.p m).object).del = false) ∨
    ∃ m, m < h.elements ∧ h.Quiet fn m ∧ (fn (h.objs m) (h.p m).object).del = true ∧
      heapScanLoop fn d h i (h.objs i) 0 =
        heapScanLoop fn (h.elements - m) h m (h.objs m) 0 := by
  induction d with
  | zero =>
    intro i hi hq
    refine .inl ⟨rfl, fun m hm _ => ?_⟩
    rw [hq m (by omega)]
  | succ d ih =>
    intro i hi hq
    have hlt : i < h.elements := by omega
    cases hdel : (fn (h.objs i) (h.p i).object).del with
    | true => exact .inr ⟨i, hlt, hq, hdel, by rw [show h.elements - i = d + 1 by omega]⟩
    | false =>
      by_cases hstop : (fn (h.objs i) (h.p i).object).stop = true
      · rw [heapScanLoop_stop d hlt hstop, hdel]
        refine .inl ⟨rfl, fun m hm hqm => ?_⟩
        rcases lt_trichotomy m i with hmi | rfl | hmi
        · rw [hq m hmi]
        · exact hdel
        · rw [hqm i hmi] at hstop
          cases hstop
      · rw [heapScanLoop_next d hlt hstop, hdel]
        have hq' : h.Quiet fn (i + 1) := fun j hj => by
          rcases eq_or_lt_of_le (Nat.le_of_lt_succ hj) with rfl | hj
          · generalize fn (h.objs j) (h.p j).object = r at hdel hstop
            obtain ⟨del, stop⟩ := r
            simp_all
          · exact hq j hj
        have := ih (i := i + 1) (by omega) hq'
        rw [DnHeap.objs_succ] at this
        exact this

/-- The loop that comes to a first entry that is given up removes all entries from there on exactly
if the callback gives them up. -/
theorem heapScanLoop_givesUp_iff {m : ℕ} (hm : m < h.elements)
    (hdel : (fn (h.objs m) (h.p m).object).del = true) :
    (heapScanLoop fn (h.elements - m) h m (h.objs m) 0).1.elements ≤ m ↔ h.GivesUpFrom fn m := by
  obtain ⟨d, hd⟩ : ∃ d, h.elements = m + d + 1 := ⟨h.elements - (m + 1), by omega⟩
  rw [show h.elements - m = d + 1 by omega]
  by_cases hstop : (fn (h.objs m) (h.p m).object).stop = true
  · rw [heapScanLoop_stop d hm hstop, hdel]
    change h.elements - 1 ≤ m ↔ _
    constructor
    · intro hle
      exact ⟨fun h => by omega, fun j hj hjn => by omega, fun j hj hjn => by omega⟩
    · intro hall
      by_contra hlt
      have := hall.stop (by omega)
      rw [hstop] at this
      cases this
  · rw [heapScanLoop_next d hm hstop, hdel]
    have hvs : h.objs m ++ [(h.p m).object] = h.objs (m + 1) ++ h.objsDown (m + d) := by
      rw [DnHeap.objsDown_last (by omega), List.append_nil, DnHeap.objs_succ]
    simp only [if_true]
    rw [hvs, heapScanLoop_le_iff (k := m + d) d (congrArg (· - 1) hd) (by omega) (by omega) le_rfl
      (fun _ => ?_) fun j hj hjk => ?_]
    · constructor
      · intro hall
        exact ⟨fun _ => by simpa using hstop, fun j hj hjn => (hall j hj (by omega)).1,
          fun j hj hjn => (hall j (by omega) (by omega)).2 hj⟩
      · intro hall j hj hjk
        exact ⟨hall.del j hj (by omega), fun hj' => hall.go j hj' (by omega)⟩
    · rw [DnHeap.drop_p, if_pos rfl]
      congr 1
      omega
    · rw [DnHeap.drop_p, if_neg hj.ne']

theorem DnHeap.objs_split {j m : ℕ} (hj : j < m) :
    ∃ r, h.objs m = h.objs j ++ (h.p j).object :: r := by
  induction m with
  | zero => omega
  | succ m ih =>
    rcases eq_or_lt_of_le (Nat.le_of_lt_succ hj) with rfl | hj
    · exact ⟨[], DnHeap.objs_succ h j⟩
    · obtain ⟨r, hr⟩ := ih hj
      exact ⟨r ++ [(h.p m).object], by rw [DnHeap.objs_succ, hr]; simp⟩

/-- **Which objects are removed** from a heap whose objects are at the places they name: those that
the loop gives up have places behind the end of the new heap exactly if they are the last ones. -/
theorem removed_behind_iff (fn : HeapScanFn Obj) (hw : h.Placed pos) :
    (∀ o, TakenOut fn (heapVisits fn h) o →
      pos o < 0 ∨ ((heapScanLoop fn h.elements h 0 [] 0).1.elements : ℤ) ≤ pos o) ↔
      h.LastOnes fn := by
  have hinj : ∀ j k, j < h.elements → k < h.elements → (h.p j).object = (h.p k).object → j = k :=
    fun j k hj hk => hw.indexed.inj j k hj hk (by omega) (by omega)
  obtain ⟨i', hs, -⟩ := heapScanLoop_scanning fn h.elements (Scanning.start hinj) (by omega)
  have hq0 : h.Quiet fn 0 := fun j hj => absurd hj (Nat.not_lt_zero j)
  rcases heapScanLoop_quiet h.elements (Nat.zero_add _) hq0 with ⟨hsame, hno⟩ | ⟨m, hm, hq, hdel, heq⟩
  · -- nothing is removed
    rw [show h.objs 0 = [] from rfl] at hsame
    constructor
    · intro _ m hm hqm hdel
      rw [hno m hm hqm] at hdel
      cases hdel
    · intro _ o ho
      obtain ⟨k, hk⟩ := hs.mem o ho.mem
      have := (hs.has ⟨k, o⟩).1 (hsame.symm ▸ hk)
      exact absurd ho this.2
  · rw [show h.objs 0 = [] from rfl] at heq
    have hfrom := heapScanLoop_givesUp_iff hm hdel
    rw [← heq] at hfrom
    have hlast : h.LastOnes fn ↔ h.GivesUpFrom fn m := by
      refine ⟨fun hall => hall m hm hq hdel, fun hall m' hm' hq' hdel' => ?_⟩
      rcases lt_trichotomy m' m with hlt | rfl | hlt
      · rw [hq m' hlt] at hdel'
        cases hdel'
      · exact hall
      · rw [hq' m hlt] at hdel
        cases hdel
    have hvisits : ∃ w, heapVisits fn h = h.objs m ++ (h.p m).object :: w := by
      obtain ⟨d, hd⟩ : ∃ d, h.elements - m = d + 1 := ⟨h.elements - m - 1, by omega⟩
      rw [heapVisits, heq, hd]
      by_cases hstop : (fn (h.objs m) (h.p m).object).stop = true
      · rw [heapScanLoop_stop d hm hstop]
        exact ⟨[], rfl⟩
      · rw [heapScanLoop_next d hm hstop]
        obtain ⟨w, hw⟩ := heapScanLoop_visits fn d
          (if (fn (h.objs m) (h.p m).object).del then h.drop m else h)
          (if (fn (h.objs m) (h.p m).object).del then m else m + 1)
          (h.objs m ++ [(h.p m).object])
          (if (fn (h.objs m) (h.p m).object).del then 0 + 1 else 0)
        exact ⟨w, by rw [← hw]; simp⟩
    rw [hlast, ← hfrom]
    have hplace : ∀ j < h.elements, pos (h.p j).object = j :=
      fun j hj => hw.indexed.index j hj (by omega)
    constructor
    · intro hall
      obtain ⟨w, hw⟩ := hvisits
      have hpos := hall (h.p m).object ⟨h.objs m, w, hw, hdel⟩
      rw [hplace m hm] at hpos
      omega
    · intro hle o ho
      obtain ⟨k, j, hj, hk⟩ := hs.mem o ho.mem
      obtain rfl : (h.p j).object = o := congrArg DnHeapEntry.object hk
      rw [hplace j hj]
      by_contra hlt
      have hjm : j < m := by omega
      -- the callback said nothing for the object
      obtain ⟨r, hr⟩ := DnHeap.objs_split (h := h) hjm
      obtain ⟨w, hw⟩ := hvisits
      have hnd : (heapVisits fn h).Nodup := hs.nodup
      rw [hw, hr, List.append_assoc, List.cons_append] at hnd
      rw [TakenOut, hw, hr, List.append_assoc, List.cons_append,
        Visits.answered_iff_of_nodup hnd, hq j hjm] at ho
      cases ho

/-! ### `heap_scan` -/

variable [DecidableEq Obj]

/-- What `heap_scan` should do to a heap: it visits every object at most once, and all of them if it
is not ended, it removes those that the callback gives up and returns their number, it leaves a
heap of the others, and the removed objects have positions that `heap_extract` does not accept. -/
structure ScanDone (fn : HeapScanFn Obj) (h : DnHeap Obj) (pos : Obj → ℤ) : Prop where
  nodup : (heapVisits fn h).Nodup
  mem : ∀ o ∈ heapVisits fn h, h.Mem o
  all : (¬ ∃ o, Visits.Answered (fun d q => (fn d q).stop) (heapVisits fn h) o) →
    ∀ o, h.Mem o → o ∈ heapVisits fn h
  has : ∀ e, (heapScan fn h pos).2.1.Has e ↔ h.Has e ∧ ¬ TakenOut fn (heapVisits fn h) e.object
  found : (heapScan fn h pos).2.1.elements + (heapScan fn h pos).1 = h.elements
  wf : (heapScan fn h pos).2.1.Wf (heapScan fn h pos).2.2
  invalid : ∀ o, TakenOut fn (heapVisits fn h) o → (heapScan fn h pos).2.2 o < 0 ∨
    ((heapScan fn h pos).2.1.elements : ℤ) ≤ (heapScan fn h pos).2.2 o
  detected : ∀ o, TakenOut fn (heapVisits fn h) o → (heapScan fn h pos).2.1.elements ≠ 0 →
    heapExtract (heapScan fn h pos).2.1 (heapScan fn h pos).2.2 (some o) = none

/-- **`heap_scan`** does to every well-formed heap what it should, but for the positions of the
removed objects: these are invalid exactly if the callback gives up the last entries only. -/
theorem heapScan_spec_iff (hw : h.Wf pos) (hc : h.InWindow c) :
    ScanDone fn h pos ↔ h.LastOnes fn := by
  have hinj : ∀ j k, j < h.elements → k < h.elements → (h.p j).object = (h.p k).object → j = k :=
    fun j k hj hk => hw.indexed.inj j k hj hk (by omega) (by omega)
  obtain ⟨i', hs, -, hend⟩ := heapScanLoop_scanning fn h.elements (Scanning.start hinj)
    (by omega)
  have hbehind := removed_behind_iff fn hw.placed
  have hsame := (heapScanLoop_found fn h.elements h 0 [] 0).2
  have hscan : heapScan fn h pos = ((heapScanLoop fn h.elements h 0 [] 0).2.2,
      if (heapScanLoop fn h.elements h 0 [] 0).2.2 ≠ 0 then
        heapify (heapScanLoop fn h.elements h 0 [] 0).1 pos
      else ((heapScanLoop fn h.elements h 0 [] 0).1, pos)) := rfl
  have hvisits : heapVisits fn h = (heapScanLoop fn h.elements h 0 [] 0).2.1 := rfl
  have hmem : ∀ o, TakenOut fn (heapVisits fn h) o →
      ¬ (heapScanLoop fn h.elements h 0 [] 0).1.Mem o :=
    fun o ho ⟨k, hk⟩ => ((hs.has ⟨k, o⟩).1 hk).2 ho
  rw [hvisits] at hbehind hmem
  rw [← hbehind]
  -- the heap after the loop is put in order, if anything was removed
  have hres : (heapScan fn h pos).2.1.Wf (heapScan fn h pos).2.2 ∧
      (∀ e, (heapScan fn h pos).2.1.Has e ↔ (heapScanLoop fn h.elements h 0 [] 0).1.Has e) ∧
      (∀ o, ¬ (heapScanLoop fn h.elements h 0 [] 0).1.Mem o →
        (heapScan fn h pos).2.2 o = pos o) ∧
      (heapScan fn h pos).2.1.elements = (heapScanLoop fn h.elements h 0 [] 0).1.elements := by
    rw [hscan]
    generalize heapScanLoop fn h.elements h 0 [] 0 = r at hs hsame ⊢
    dsimp only
    split_ifs with hfound
    · exact heapify_spec (by rw [hs.ofs]; exact hw.ofs_pos)
        (fun e he => hc e ((hs.has e).1 he).1) hs.inj
    · exact ⟨hsame (not_not.1 hfound) ▸ hw, fun _ => Iff.rfl, fun _ _ => rfl, rfl⟩
  obtain ⟨hwf, hhas, hpos, hel⟩ := hres
  constructor
  · intro hdone o ho
    have hinv := hdone.invalid o (by rw [hvisits]; exact ho)
    rwa [hpos o (hmem o ho), hel] at hinv
  · intro hall
    have hinv : ∀ o, TakenOut fn (heapVisits fn h) o → (heapScan fn h pos).2.2 o < 0 ∨
        ((heapScan fn h pos).2.1.elements : ℤ) ≤ (heapScan fn h pos).2.2 o := by
      intro o ho
      rw [hvisits] at ho
      rw [hpos o (hmem o ho), hel]
      exact hall o ho
    refine ⟨hs.nodup, hs.mem, fun hne o ⟨k, hk⟩ => ?_, fun e => (hhas e).trans (hs.has e), ?_, hwf,
      hinv, fun o ho hne => ?_⟩
    · rcases hs.seen _ hk with hin | ⟨j, hij, hj, -⟩
      · exact hin
      · rcases hend with hend | hend
        · omega
        · exact absurd hend hne
    · rw [hel, hscan]
      exact hs.elements
    · rw [heapExtract, if_neg hne, extractIndex, if_neg (not_le.2 hwf.ofs_pos), if_pos (hinv o ho)]
      rfl

end Spec

/-- The numbers 0 and 1 in a heap, with themselves as keys. -/
def twoNumbers : DnHeap ℕ := ⟨2, 2, 4, fun i => ⟨BitVec.ofNat 64 i, i⟩⟩

theorem twoNumbers_wf : twoNumbers.Wf (fun o => (o : ℤ)) where
  ofs_pos := by decide
  ordered i h0 hi := by
    obtain rfl : i = 1 := by
      change i < 2 at hi
      omega
    decide
  indexed := ⟨fun _ _ _ _ _ _ he => he, fun _ _ _ => rfl⟩

theorem twoNumbers_window : twoNumbers.InWindow 0 := by
  rintro e ⟨i, hi, rfl⟩
  change i < 2 at hi
  interval_cases i <;> decide

/-- The last number is given up. -/
theorem heapScan_spec_iff_last :
    ScanDone (fun _ o => ⟨o == 1, false⟩) twoNumbers (fun o => (o : ℤ)) := by
  refine (heapScan_spec_iff twoNumbers_wf twoNumbers_window).2 fun m hm _ hdel => ?_
  obtain rfl : m = 1 := eq_of_beq hdel
  have hn : twoNumbers.elements = 2 := rfl
  exact ⟨fun _ => rfl, fun j hj hjn => by omega, fun j hj hjn => by omega⟩

/-- When the first number is given up, its position is still valid, and it is that of the other
one. -/
theorem not_heapScan_spec : ¬ ∀ (fn : HeapScanFn ℕ) (h : DnHeap ℕ) (pos : ℕ → ℤ) (c : BitVec 64),
    h.Wf pos → h.InWindow c → ScanDone fn h pos := by
  intro hall
  have hinv := (hall (fun _ o => ⟨o == 0, false⟩) twoNumbers _ 0 twoNumbers_wf
    twoNumbers_window).invalid 0 ⟨[], [1], rfl, rfl⟩
  revert hinv
  decide

end Dummynet
