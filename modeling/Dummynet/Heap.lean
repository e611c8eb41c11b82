import Dummynet.Lib.BinHeap
import Dummynet.Lib.Serial

/-!
# The event heap of dummynet

The binary heap of `dn_heap.c`: entries with a 64-bit key and an object pointer, smallest key
first, where every object keeps its own place in the heap in an integer field, so that it can be
taken out of the middle.

Keys are compared with `DN_KEY_LT`, the sign of their 64-bit difference; this is an order only
while all keys fit in half of the circle of 64-bit words (`Serial.InWindow`), and the results
ask for a window that holds the keys of the heap and the inserted key.

An array is a function of the index. Its size in memory is the field `size`; the places from
`elements` on hold nothing that is ever read. The position field of the objects, at offset `ofs`
in each of them, is the function `pos` that every operation takes and gives back.

## Main definitions

* `DnHeap`, `heapResize`, `heapInit`, `heapInsert`, `heapExtract`: `struct dn_heap` and its
  operations.
* `DnHeap.Wf`: keys in heap order and every object at the place it names.
* `DnHeap.Has`: the pairs of key and object in the heap.

## Main results

* `heapInsert_spec`: an insertion adds one pair.
* `heapExtract_top`, `heapExtract_obj`: an extraction removes one pair, and never panics for an
  object of the heap.
* `DnHeap.Wf.top_le`: the entry at the top has a least key.
-/

namespace Dummynet

/-- `DN_KEY_LT(a, b)`: the 64-bit difference of the keys is negative. -/
def keyLT (a b : BitVec 64) : Bool := Serial.lt a b

/-- `DN_KEY_LEQ(a, b)`: the 64-bit difference of the keys is not positive. -/
def keyLEQ (a b : BitVec 64) : Bool := Serial.le a b

/-- `struct dn_heap_entry`. -/
structure DnHeapEntry (Obj : Type) where
  key : BitVec 64
  object : Obj

/-- `struct dn_heap`: the array `p` has room for `size` entries and holds `elements`. A position
is stored in the objects when `ofs` is positive. -/
structure DnHeap (Obj : Type) where
  size : ℕ
  elements : ℕ
  ofs : ℤ
  p : ℕ → DnHeapEntry Obj

variable {Obj : Type}

/-- The key at the top, `HEAP_TOP(h)->key`. -/
def DnHeap.topKey (h : DnHeap Obj) : BitVec 64 := (h.p 0).key

/-- The object at the top, `HEAP_TOP(h)->object`. -/
def DnHeap.topObject (h : DnHeap Obj) : Obj := (h.p 0).object

/-- `HEAP_SWAP`: exchanges the entries at two places. -/
def DnHeap.swap (h : DnHeap Obj) (i j : ℕ) : DnHeap Obj := { h with p := h.p ∘ Equiv.swap i j }

/-- Writes the entry at place `i`. -/
def DnHeap.put (h : DnHeap Obj) (i : ℕ) (e : DnHeapEntry Obj) : DnHeap Obj :=
  { h with p := Function.update h.p i e }

/-- Writes a new entry behind the last one. -/
def DnHeap.push (h : DnHeap Obj) (k : BitVec 64) (o : Obj) : DnHeap Obj :=
  { h with p := Function.update h.p h.elements ⟨k, o⟩, elements := h.elements + 1 }

/-- The next size tried by `heap_resize`: all bits below the highest one are set. -/
def heapRoundUp (n : ℕ) : ℕ :=
  let n := n ||| n >>> 1
  let n := n ||| n >>> 2
  let n := n ||| n >>> 4
  let n := n ||| n >>> 8
  n ||| n >>> 16

/-- `heap_resize`: makes room for `newSize` entries. The result is `true` when `malloc` fails,
and then the heap is as before. -/
def heapResize (mallocOk : Bool) (h : DnHeap Obj) (newSize : ℕ) : Bool × DnHeap Obj :=
  if newSize ≤ h.size then (false, h)
  else if mallocOk then (false, { h with size := heapRoundUp newSize })
  else (true, h)

/-- `heap_init`. -/
def heapInit (mallocOk : Bool) (h : DnHeap Obj) (size : ℕ) (ofs : ℤ) : Bool × DnHeap Obj :=
  match heapResize mallocOk h size with
  | (true, h) => (true, h)
  | (false, h) => (false, { h with elements := 0, ofs := ofs })

section Operations

variable [DecidableEq Obj]

/-- `SET_OFFSET`: the object at place `i` records its place. -/
def setOffset (h : DnHeap Obj) (pos : Obj → ℤ) (i : ℕ) : Obj → ℤ :=
  if 0 < h.ofs then Function.update pos (h.p i).object i else pos

/-- `RESET_OFFSET`: the object at place `i` records an invalid place. -/
def resetOffset (h : DnHeap Obj) (pos : Obj → ℤ) (i : ℕ) : Obj → ℤ :=
  if 0 < h.ofs then Function.update pos (h.p i).object (-16) else pos

/-- The loop at the end of `heap_insert`: the entry at `son` moves towards the root as long as
its father is not smaller, and its place is recorded when it stops. A father has a smaller index
than its son, so that `son` rounds are enough. -/
def bubbleUp : ℕ → DnHeap Obj → (Obj → ℤ) → ℕ → DnHeap Obj × (Obj → ℤ)
  | 0, h, pos, son => (h, setOffset h pos son)
  | fuel + 1, h, pos, son =>
    if son = 0 then (h, setOffset h pos son)
    else if keyLT (h.p (BinHeap.parent son)).key (h.p son).key then (h, setOffset h pos son)
    else
      let h := h.swap son (BinHeap.parent son)
      bubbleUp fuel h (setOffset h pos son) (BinHeap.parent son)

/-- `heap_insert` with `p == NULL`: the entry is already in place, and the key argument is the
index where to start. -/
def heapInsertNull (h : DnHeap Obj) (pos : Obj → ℤ) (son : ℕ) : DnHeap Obj × (Obj → ℤ) :=
  bubbleUp son h pos son

/-- `heap_insert` with an object: the new entry goes to the end of the array and moves up. The
first result is `true` when the array is full and cannot grow. -/
def heapInsert (mallocOk : Bool) (h : DnHeap Obj) (pos : Obj → ℤ) (key1 : BitVec 64) (o : Obj) :
    Bool × DnHeap Obj × (Obj → ℤ) :=
  match (if h.elements = h.size then heapResize mallocOk h (h.elements + 16) else (false, h)) with
  | (true, h) => (true, h, pos)
  | (false, h) => (false, bubbleUp h.elements (h.push key1 o) pos h.elements)

/-- The child that fills the hole at `father`: the right one if it is there and has the smaller
key, otherwise the left one. -/
def smallChild (h : DnHeap Obj) (max father : ℕ) : ℕ :=
  let child := BinHeap.left father
  if child ≠ max ∧ keyLT (h.p (child + 1)).key (h.p child).key then child + 1 else child

/-- The loop of `heap_extract`: the smallest child moves into the hole at `father`, until the
hole has no child. The hole moves to larger indices, so that `elements` rounds are enough. -/
def sinkHole : ℕ → DnHeap Obj → (Obj → ℤ) → ℕ → ℕ → DnHeap Obj × (Obj → ℤ) × ℕ
  | 0, h, pos, _, father => (h, pos, father)
  | fuel + 1, h, pos, max, father =>
    if BinHeap.left father ≤ max then
      let child := smallChild h max father
      let h := h.put father (h.p child)
      sinkHole fuel h (setOffset h pos father) max child
    else (h, pos, father)

/-- The place from which `heap_extract` removes: the top, or the place that the object names. The
result is `none` where the code panics, for a heap without positions or an object that is not in
the heap. -/
def extractIndex (h : DnHeap Obj) (pos : Obj → ℤ) : Option Obj → Option ℕ
  | none => some 0
  | some o =>
    if h.ofs ≤ 0 then none
    else if pos o < 0 ∨ (h.elements : ℤ) ≤ pos o then none
    else some (pos o).toNat

/-- The body of `heap_extract`: the hole at `father` moves down, the last entry fills it and
moves up. -/
def extractAt (h : DnHeap Obj) (pos : Obj → ℤ) (father : ℕ) : DnHeap Obj × (Obj → ℤ) :=
  let max := h.elements - 1
  let (h, pos, father) := sinkHole h.elements h (resetOffset h pos father) max father
  let h := { h with elements := h.elements - 1 }
  if father ≠ max then heapInsertNull (h.put father (h.p max)) pos father else (h, pos)

/-- `heap_extract`: removes the top, or the object `obj` wherever it is. The result is `none`
where the code panics. -/
def heapExtract (h : DnHeap Obj) (pos : Obj → ℤ) (obj : Option Obj) :
    Option (DnHeap Obj × (Obj → ℤ)) :=
  if h.elements = 0 then some (h, pos) else (extractIndex h pos obj).map (extractAt h pos)

end Operations

/-! ### Well-formed heaps -/

/-- The keys are in heap order, and every object in the heap is at the place it names. -/
structure DnHeap.Wf (h : DnHeap Obj) (pos : Obj → ℤ) : Prop where
  ofs_pos : 0 < h.ofs
  ordered : ∀ i, 0 < i → i < h.elements → keyLT (h.p i).key (h.p (BinHeap.parent i)).key = false
  indexed : BinHeap.Indexed (fun i => (h.p i).object) pos h.elements h.elements

/-- The pair `e` of a key and an object is in the heap. -/
def DnHeap.Has (h : DnHeap Obj) (e : DnHeapEntry Obj) : Prop := BinHeap.Content h.p h.elements e

/-- The object `o` is in the heap. -/
def DnHeap.Mem (h : DnHeap Obj) (o : Obj) : Prop := ∃ k, h.Has ⟨k, o⟩

/-- All keys of the heap lie in the window above `c`. -/
def DnHeap.InWindow (h : DnHeap Obj) (c : BitVec 64) : Prop :=
  ∀ e, h.Has e → Serial.InWindow c e.key

theorem DnHeap.has_place {h : DnHeap Obj} {i : ℕ} (hi : i < h.elements) : h.Has (h.p i) :=
  ⟨i, hi, rfl⟩

/-- Two entries of a well-formed heap with one object are the same. -/
theorem DnHeap.Wf.has_inj {h : DnHeap Obj} {pos : Obj → ℤ} (hw : h.Wf pos)
    {e e' : DnHeapEntry Obj} (he : h.Has e) (he' : h.Has e') (ho : e.object = e'.object) :
    e = e' := by
  obtain ⟨i, hi, rfl⟩ := he
  obtain ⟨j, hj, rfl⟩ := he'
  rw [hw.indexed.inj i j hi hj (by omega) (by omega) ho]

/-- Inside a window, heap order is the order of the ranks. -/
theorem ordered_iff_rank {h : DnHeap Obj} {c : BitVec 64} (hc : h.InWindow c) :
    (∀ i, 0 < i → i < h.elements → keyLT (h.p i).key (h.p (BinHeap.parent i)).key = false) ↔
      BinHeap.Ordered (fun i => Serial.rank c (h.p i).key) h.elements := by
  refine forall_congr' fun i => forall_congr' fun hi => forall_congr' fun hin => ?_
  have hp := BinHeap.parent_lt hi
  have hlt := Serial.lt_iff (hc _ (DnHeap.has_place hin))
    (hc _ (DnHeap.has_place (hp.trans hin)))
  rw [keyLT, ← Bool.not_eq_true, hlt, not_lt]

/-- The entry at the top of a heap has a least key. -/
theorem DnHeap.Wf.top_le {h : DnHeap Obj} {pos : Obj → ℤ} {c : BitVec 64} (hw : h.Wf pos)
    (hc : h.InWindow c) {e : DnHeapEntry Obj} (he : h.Has e) :
    Serial.rank c h.topKey ≤ Serial.rank c e.key := by
  obtain ⟨i, hi, rfl⟩ := he
  exact ((ordered_iff_rank hc).1 hw.ordered).root_le i hi

theorem DnHeap.has_top {h : DnHeap Obj} (hpos : 0 < h.elements) :
    h.Has ⟨h.topKey, h.topObject⟩ :=
  ⟨0, hpos, rfl⟩

/-! ### Insertion -/

section Spec

variable [DecidableEq Obj]

theorem setOffset_of_pos {h : DnHeap Obj} (hofs : 0 < h.ofs) (pos : Obj → ℤ) (i : ℕ) :
    setOffset h pos i = Function.update pos (h.p i).object (i : ℤ) := if_pos hofs

/-- Every object in the heap is at the place it names. -/
structure DnHeap.Placed (h : DnHeap Obj) (pos : Obj → ℤ) : Prop where
  ofs_pos : 0 < h.ofs
  indexed : BinHeap.Indexed (fun i => (h.p i).object) pos h.elements h.elements

omit [DecidableEq Obj] in
theorem DnHeap.Wf.placed {h : DnHeap Obj} {pos : Obj → ℤ} (hw : h.Wf pos) : h.Placed pos :=
  ⟨hw.ofs_pos, hw.indexed⟩

/-- The places of the objects while the entry at `son` moves up. -/
structure Rising (h : DnHeap Obj) (pos : Obj → ℤ) (son : ℕ) : Prop where
  ofs_pos : 0 < h.ofs
  son_lt : son < h.elements
  index : BinHeap.Indexed (fun i => (h.p i).object) pos h.elements son
  fresh : ∀ i, i < h.elements → i ≠ son → (h.p i).object ≠ (h.p son).object

theorem Rising.stop {h : DnHeap Obj} {pos : Obj → ℤ} {son : ℕ} (hr : Rising h pos son) :
    h.Placed (setOffset h pos son) where
  ofs_pos := hr.ofs_pos
  indexed := by
    rw [setOffset_of_pos hr.ofs_pos]
    exact hr.index.place hr.fresh

/-- One round of the loop: the entry changes places with its father. -/
theorem Rising.swap {h : DnHeap Obj} {pos : Obj → ℤ} {son : ℕ} (hr : Rising h pos son)
    (h0 : son ≠ 0) :
    Rising (h.swap son (BinHeap.parent son))
      (setOffset (h.swap son (BinHeap.parent son)) pos son) (BinHeap.parent son) := by
  have hp := BinHeap.parent_lt (Nat.pos_of_ne_zero h0)
  have hpn := hp.trans hr.son_lt
  refine ⟨hr.ofs_pos, hpn, ?_, ?_⟩
  · rw [setOffset_of_pos (h := h.swap son (BinHeap.parent son)) hr.ofs_pos]
    exact hr.index.swap hpn hp.ne'
  · intro i hi hip
    simp only [DnHeap.swap, Function.comp_apply, Equiv.swap_apply_right]
    by_cases his : i = son
    · rw [his, Equiv.swap_apply_left]
      exact hr.fresh _ hpn hp.ne
    · rw [Equiv.swap_apply_of_ne_of_ne his hip]
      exact hr.fresh i hi his

/-- **The loop of `heap_insert`** keeps the entries, leaves every object at the place it names and
writes only positions of objects in the heap. -/
theorem bubbleUp_placed (fuel : ℕ) : ∀ {h : DnHeap Obj} {pos : Obj → ℤ} {son : ℕ},
    Rising h pos son →
      (bubbleUp fuel h pos son).1.Placed (bubbleUp fuel h pos son).2 ∧
      (∀ e, (bubbleUp fuel h pos son).1.Has e ↔ h.Has e) ∧
      (∀ o, ¬ h.Mem o → (bubbleUp fuel h pos son).2 o = pos o) ∧
      (bubbleUp fuel h pos son).1.elements = h.elements := by
  have hframe : ∀ (h : DnHeap Obj) (pos : Obj → ℤ) (i : ℕ) (o : Obj), i < h.elements →
      ¬ h.Mem o → setOffset h pos i o = pos o := by
    intro h pos i o hi ho
    unfold setOffset
    split_ifs
    · exact Function.update_of_ne (fun he => ho ⟨(h.p i).key, i, hi, by rw [he]⟩) _ _
    · rfl
  induction fuel with
  | zero =>
    intro h pos son hr
    exact ⟨hr.stop, fun _ => Iff.rfl, fun o => hframe h pos son o hr.son_lt, rfl⟩
  | succ fuel ih =>
    intro h pos son hr
    rw [bubbleUp]
    split_ifs with h0 hlt
    · exact ⟨hr.stop, fun _ => Iff.rfl, fun o => hframe h pos son o hr.son_lt, rfl⟩
    · exact ⟨hr.stop, fun _ => Iff.rfl, fun o => hframe h pos son o hr.son_lt, rfl⟩
    · have hp := BinHeap.parent_lt (Nat.pos_of_ne_zero h0)
      have hcontent := BinHeap.content_swap (p := h.p) hr.son_lt (hp.trans hr.son_lt)
      obtain ⟨hpl, hhas, hpos, hel⟩ := ih (hr.swap h0)
      refine ⟨hpl, fun e => (hhas e).trans (hcontent e), fun o ho => ?_, hel⟩
      have ho' : ¬ (h.swap son (BinHeap.parent son)).Mem o :=
        fun ⟨k, hk⟩ => ho ⟨k, (hcontent _).1 hk⟩
      exact (hpos o ho').trans (hframe _ pos son o hr.son_lt ho')

/-- The state of the heap while the entry at `son` moves up: heap order up to `son`, and every
other object at the place it names. -/
structure Bubbling (h : DnHeap Obj) (pos : Obj → ℤ) (c : BitVec 64) (son : ℕ) : Prop
  extends Rising h pos son where
  window : h.InWindow c
  order : BinHeap.UpTo (fun i => Serial.rank c (h.p i).key) h.elements son

omit [DecidableEq Obj] in
/-- At the root, or below a father that is smaller, the heap is in order. -/
theorem Bubbling.stop {h : DnHeap Obj} {pos : Obj → ℤ} {c : BitVec 64} {son : ℕ}
    (hb : Bubbling h pos c son)
    (hstop : son = 0 ∨ keyLT (h.p (BinHeap.parent son)).key (h.p son).key = true) :
    ∀ i, 0 < i → i < h.elements → keyLT (h.p i).key (h.p (BinHeap.parent i)).key = false := by
  refine (ordered_iff_rank hb.window).2 (hb.order.ordered (hstop.imp_right fun hlt => ?_))
  rcases Nat.eq_zero_or_pos son with h0 | h0
  · rw [h0]
    exact le_rfl
  · have hp := BinHeap.parent_lt h0
    exact ((Serial.lt_iff (hb.window _ (DnHeap.has_place (hp.trans hb.son_lt)))
      (hb.window _ (DnHeap.has_place hb.son_lt))).1 hlt).le

/-- One round of the loop keeps the order. -/
theorem Bubbling.swap {h : DnHeap Obj} {pos : Obj → ℤ} {c : BitVec 64} {son : ℕ}
    (hb : Bubbling h pos c son) (h0 : son ≠ 0)
    (hnlt : keyLT (h.p (BinHeap.parent son)).key (h.p son).key = false) :
    Bubbling (h.swap son (BinHeap.parent son))
      (setOffset (h.swap son (BinHeap.parent son)) pos son) c (BinHeap.parent son) := by
  have hpos : 0 < son := Nat.pos_of_ne_zero h0
  have hpn := (BinHeap.parent_lt hpos).trans hb.son_lt
  have hcontent := BinHeap.content_swap (p := h.p) hb.son_lt hpn
  have hle : Serial.rank c (h.p son).key ≤ Serial.rank c (h.p (BinHeap.parent son)).key := by
    have hlt := Serial.lt_iff (hb.window _ (DnHeap.has_place hpn))
      (hb.window _ (DnHeap.has_place hb.son_lt))
    rw [keyLT, ← Bool.not_eq_true, hlt, not_lt] at hnlt
    exact hnlt
  exact ⟨hb.toRising.swap h0, fun e he => hb.window e ((hcontent e).1 he),
    hb.order.swap hpos hb.son_lt hle⟩

/-- **The loop of `heap_insert`** repairs the order. -/
theorem bubbleUp_ordered (fuel : ℕ) : ∀ {h : DnHeap Obj} {pos : Obj → ℤ} {c : BitVec 64} {son : ℕ},
    son ≤ fuel → Bubbling h pos c son → ∀ i, 0 < i → i < (bubbleUp fuel h pos son).1.elements →
      keyLT ((bubbleUp fuel h pos son).1.p i).key
        ((bubbleUp fuel h pos son).1.p (BinHeap.parent i)).key = false := by
  induction fuel with
  | zero =>
    intro h pos c son hson hb
    exact hb.stop (.inl (by omega))
  | succ fuel ih =>
    intro h pos c son hson hb
    rw [bubbleUp]
    split_ifs with h0 hlt
    · exact hb.stop (.inl h0)
    · exact hb.stop (.inr hlt)
    · have hp := BinHeap.parent_lt (Nat.pos_of_ne_zero h0)
      exact ih (by omega) (hb.swap h0 (by simpa using hlt))

/-- The loop of `heap_insert` leaves a well-formed heap with the same entries. -/
theorem bubbleUp_spec (fuel : ℕ) {h : DnHeap Obj} {pos : Obj → ℤ} {c : BitVec 64} {son : ℕ}
    (hson : son ≤ fuel) (hb : Bubbling h pos c son) :
    (bubbleUp fuel h pos son).1.Wf (bubbleUp fuel h pos son).2 ∧
      (∀ e, (bubbleUp fuel h pos son).1.Has e ↔ h.Has e) ∧
      (∀ o, ¬ h.Mem o → (bubbleUp fuel h pos son).2 o = pos o) ∧
      (bubbleUp fuel h pos son).1.elements = h.elements := by
  obtain ⟨hpl, hrest⟩ := bubbleUp_placed fuel hb.toRising
  exact ⟨⟨hpl.ofs_pos, bubbleUp_ordered fuel hson hb, hpl.indexed⟩, hrest⟩

omit [DecidableEq Obj] in
/-- The places of the objects when the loop of `heap_insert` starts. -/
theorem Rising.push {h : DnHeap Obj} {pos : Obj → ℤ} {k : BitVec 64} {o : Obj}
    (hw : h.Placed pos) (ho : ¬ h.Mem o) : Rising (h.push k o) pos h.elements := by
  refine ⟨hw.ofs_pos, Nat.lt_succ_self _, ?_, fun i hi hne => ?_⟩
  · have hobj : (fun i => ((h.push k o).p i).object) =
        Function.update (fun i => (h.p i).object) h.elements o :=
      Function.comp_update (fun e : DnHeapEntry Obj => e.object) h.p h.elements ⟨k, o⟩
    rw [hobj]
    exact hw.indexed.push
  · have hi : i < h.elements + 1 := hi
    have hnew : (h.push k o).p h.elements = ⟨k, o⟩ := Function.update_self ..
    have hold : (h.push k o).p i = h.p i := Function.update_of_ne hne ..
    rw [hold, hnew]
    intro he
    obtain rfl : (h.p i).object = o := he
    exact ho ⟨(h.p i).key, i, by omega, rfl⟩

omit [DecidableEq Obj] in
/-- The state in which the loop of `heap_insert` starts. -/
theorem Bubbling.push {h : DnHeap Obj} {pos : Obj → ℤ} {c k : BitVec 64} {o : Obj}
    (hw : h.Wf pos) (hc : h.InWindow c) (hk : Serial.InWindow c k) (ho : ¬ h.Mem o) :
    Bubbling (h.push k o) pos c h.elements := by
  have hold : ∀ i, i < h.elements → (h.push k o).p i = h.p i :=
    fun i hi => Function.update_of_ne hi.ne _ _
  refine ⟨.push hw.placed ho, fun e he => ?_, ?_⟩
  · rcases (BinHeap.content_succ_update _ e).1 he with rfl | he
    · exact hk
    · exact hc e he
  · have hup := ((ordered_iff_rank hc).1 hw.ordered).upTo
    refine ⟨fun i hi hin hne => ?_, fun _ i hi hin hp => ?_⟩
    · have hin : i < h.elements + 1 := hin
      have hpi := BinHeap.parent_lt hi
      rw [hold i (by omega), hold (BinHeap.parent i) (by omega)]
      exact hup.rest i hi hin hne
    · have hin : i < h.elements + 1 := hin
      have hpi := BinHeap.parent_lt hi
      omega

/-- When `malloc` succeeds only the size of the array depends on whether it had to grow. -/
theorem heapInsert_eq (h : DnHeap Obj) (pos : Obj → ℤ) (k : BitVec 64) (o : Obj) :
    ∃ size, heapInsert true h pos k o =
      (false, bubbleUp h.elements ({ h with size := size }.push k o) pos h.elements) := by
  have hroom : ∃ size, (if h.elements = h.size then heapResize true h (h.elements + 16)
      else (false, h)) = (false, { h with size := size }) := by
    unfold heapResize
    by_cases h1 : h.elements = h.size
    · by_cases h2 : h.elements + 16 ≤ h.size
      · exact ⟨h.size, by rw [if_pos h1, if_pos h2]⟩
      · exact ⟨heapRoundUp (h.elements + 16), by rw [if_pos h1, if_neg h2]; rfl⟩
    · exact ⟨h.size, by rw [if_neg h1]⟩
  obtain ⟨size, hsize⟩ := hroom
  refine ⟨size, ?_⟩
  unfold heapInsert
  rw [hsize]

/-- **Insertion.** Inside a window, `heap_insert` of an object that is not in the heap adds the
pair of the key and the object, and nothing else. -/
theorem heapInsert_spec {h : DnHeap Obj} {pos : Obj → ℤ} {c k : BitVec 64} {o : Obj}
    (hw : h.Wf pos) (hc : h.InWindow c) (hk : Serial.InWindow c k) (ho : ¬ h.Mem o) :
    ∃ h' pos', heapInsert true h pos k o = (false, h', pos') ∧ h'.Wf pos' ∧
      (∀ e, h'.Has e ↔ e = ⟨k, o⟩ ∨ h.Has e) ∧
      (∀ o', o' ≠ o → ¬ h.Mem o' → pos' o' = pos o') ∧ h'.elements = h.elements + 1 := by
  obtain ⟨size, heq⟩ := heapInsert_eq h pos k o
  have hw' : DnHeap.Wf { h with size := size } pos := ⟨hw.ofs_pos, hw.ordered, hw.indexed⟩
  obtain ⟨hwf, hhas, hpos, hel⟩ :=
    bubbleUp_spec h.elements le_rfl (Bubbling.push (h := { h with size := size }) hw' hc hk ho)
  have hcontent := fun e => BinHeap.content_succ_update (p := h.p) (n := h.elements) ⟨k, o⟩ e
  refine ⟨_, _, heq, hwf, fun e => (hhas e).trans (hcontent e), fun o' hne hmem => ?_, hel⟩
  refine hpos o' fun ⟨k', hk'⟩ => ?_
  rcases (hcontent _).1 hk' with he | he
  · exact hne (congrArg DnHeapEntry.object he)
  · exact hmem ⟨k', he⟩

/-- **Insertion without a window.** The order of the keys may be lost, but the objects stay at the
places they name. -/
theorem heapInsert_placed {h : DnHeap Obj} {pos : Obj → ℤ} {k : BitVec 64} {o : Obj}
    (hw : h.Placed pos) (ho : ¬ h.Mem o) :
    ∃ h' pos', heapInsert true h pos k o = (false, h', pos') ∧ h'.Placed pos' ∧
      (∀ e, h'.Has e ↔ e = ⟨k, o⟩ ∨ h.Has e) ∧
      (∀ o', o' ≠ o → ¬ h.Mem o' → pos' o' = pos o') ∧ h'.elements = h.elements + 1 := by
  obtain ⟨size, heq⟩ := heapInsert_eq h pos k o
  have hw' : DnHeap.Placed { h with size := size } pos := ⟨hw.ofs_pos, hw.indexed⟩
  obtain ⟨hpl, hhas, hpos, hel⟩ :=
    bubbleUp_placed h.elements (Rising.push (h := { h with size := size }) (k := k) hw' ho)
  have hcontent := fun e => BinHeap.content_succ_update (p := h.p) (n := h.elements) ⟨k, o⟩ e
  refine ⟨_, _, heq, hpl, fun e => (hhas e).trans (hcontent e), fun o' hne hmem => ?_, hel⟩
  refine hpos o' fun ⟨k', hk'⟩ => ?_
  rcases (hcontent _).1 hk' with he | he
  · exact hne (congrArg DnHeapEntry.object he)
  · exact hmem ⟨k', he⟩

/-- An insertion for which there is no memory changes nothing. -/
theorem heapInsert_false (h : DnHeap Obj) (pos : Obj → ℤ) (k : BitVec 64) (o : Obj) :
    heapInsert false h pos k o = (true, h, pos) ∨
      heapInsert false h pos k o = heapInsert true h pos k o := by
  unfold heapInsert heapResize
  by_cases hfull : h.elements = h.size
  · by_cases hroom : h.elements + 16 ≤ h.size
    · exact .inr (by simp only [if_pos hfull, if_pos hroom])
    · exact .inl (by simp [hfull])
  · exact .inr (by simp only [if_neg hfull])

/-! ### Extraction -/

/-- The places of the objects while the hole at `father` moves down. -/
structure Falling (h : DnHeap Obj) (pos : Obj → ℤ) (father : ℕ) : Prop where
  ofs_pos : 0 < h.ofs
  father_lt : father < h.elements
  index : BinHeap.Indexed (fun i => (h.p i).object) pos h.elements father

/-- The state of the heap while the hole at `father` moves down. -/
structure Sinking (h : DnHeap Obj) (pos : Obj → ℤ) (c : BitVec 64) (father : ℕ) : Prop
  extends Falling h pos father where
  window : ∀ i, i < h.elements → i ≠ father → Serial.InWindow c (h.p i).key
  order : BinHeap.Hole (fun i => Serial.rank c (h.p i).key) h.elements father

omit [DecidableEq Obj] in
theorem smallChild_eq (h : DnHeap Obj) (max father : ℕ) :
    smallChild h max father = BinHeap.left father ∨
      smallChild h max father = BinHeap.left father + 1 ∧ BinHeap.left father ≠ max := by
  simp only [smallChild]
  split_ifs with hif
  · exact .inr ⟨rfl, hif.1⟩
  · exact .inl rfl

omit [DecidableEq Obj] in
/-- The chosen child is a child in the heap with a least key. -/
theorem smallChild_spec {h : DnHeap Obj} {pos : Obj → ℤ} {c : BitVec 64} {max father : ℕ}
    (hs : Sinking h pos c father) (hmax : h.elements = max + 1)
    (hleft : BinHeap.left father ≤ max) :
    smallChild h max father < h.elements ∧ BinHeap.parent (smallChild h max father) = father ∧
      ∀ i, 0 < i → i < h.elements → BinHeap.parent i = father →
        Serial.rank c (h.p (smallChild h max father)).key ≤ Serial.rank c (h.p i).key := by
  have hf := BinHeap.lt_left father
  have hcases := smallChild_eq h max father
  refine ⟨by omega, ?_, fun i hi hin hp => ?_⟩
  · exact (BinHeap.parent_eq_iff (by omega)).2 (hcases.imp_right And.left)
  · -- both children lie in the window, so the comparison of the code compares ranks
    have hwl := hs.window (BinHeap.left father) (by omega) (by omega)
    simp only [smallChild]
    rcases (BinHeap.parent_eq_iff hi).1 hp with rfl | rfl
    · split_ifs with hif
      · have hwr := hs.window (BinHeap.left father + 1) (by omega) (by omega)
        exact ((Serial.lt_iff hwr hwl).1 hif.2).le
      · exact le_rfl
    · have hwr := hs.window (BinHeap.left father + 1) hin (by omega)
      split_ifs with hif
      · exact le_rfl
      · have hlt := Serial.lt_iff hwr hwl
        have hnot : ¬ Serial.lt (h.p (BinHeap.left father + 1)).key
            (h.p (BinHeap.left father)).key = true := fun hc' => hif ⟨by omega, hc'⟩
        exact not_lt.1 (hlt.not.1 hnot)

omit [DecidableEq Obj] in
/-- The chosen child is in the heap, below the hole. -/
theorem smallChild_lt {h : DnHeap Obj} {max father : ℕ} (hmax : h.elements = max + 1)
    (hleft : BinHeap.left father ≤ max) :
    father < smallChild h max father ∧ smallChild h max father < h.elements := by
  have hf := BinHeap.lt_left father
  rcases smallChild_eq h max father with h' | ⟨h', hne⟩ <;> omega

/-- One round of the loop: the chosen child moves into the hole. -/
theorem Falling.down {h : DnHeap Obj} {pos : Obj → ℤ} {max father : ℕ}
    (hs : Falling h pos father) (hmax : h.elements = max + 1)
    (hleft : BinHeap.left father ≤ max) :
    Falling (h.put father (h.p (smallChild h max father)))
      (setOffset (h.put father (h.p (smallChild h max father))) pos father)
      (smallChild h max father) := by
  obtain ⟨hgt, hlt⟩ := smallChild_lt hmax hleft
  have hself : (h.put father (h.p (smallChild h max father))).p father =
      h.p (smallChild h max father) := Function.update_self ..
  have hobj : (fun i => ((h.put father (h.p (smallChild h max father))).p i).object) =
      Function.update (fun i => (h.p i).object) father (h.p (smallChild h max father)).object :=
    Function.comp_update (fun e : DnHeapEntry Obj => e.object) h.p father _
  refine ⟨hs.ofs_pos, hlt, ?_⟩
  rw [setOffset_of_pos (h := h.put father (h.p (smallChild h max father))) hs.ofs_pos, hobj, hself]
  exact hs.index.down hlt hgt.ne

/-- One round of the loop keeps the order. -/
theorem Sinking.down {h : DnHeap Obj} {pos : Obj → ℤ} {c : BitVec 64} {max father : ℕ}
    (hs : Sinking h pos c father) (hmax : h.elements = max + 1)
    (hleft : BinHeap.left father ≤ max) :
    Sinking (h.put father (h.p (smallChild h max father)))
      (setOffset (h.put father (h.p (smallChild h max father))) pos father) c
      (smallChild h max father) := by
  obtain ⟨hlt, hpar, hmin⟩ := smallChild_spec hs hmax hleft
  have hgt := (smallChild_lt hmax hleft).1
  refine ⟨hs.toFalling.down hmax hleft, fun i hi hne => ?_, ?_⟩
  · by_cases hif : i = father
    · have hself : (h.put father (h.p (smallChild h max father))).p father =
          h.p (smallChild h max father) := Function.update_self ..
      rw [hif, hself]
      exact hs.window _ hlt hgt.ne'
    · have hother : (h.put father (h.p (smallChild h max father))).p i = h.p i :=
        Function.update_of_ne hif _ _
      rw [hother]
      exact hs.window i hi hif
  · have hkeys : (fun i => Serial.rank c ((h.put father (h.p (smallChild h max father))).p i).key) =
        Function.update (fun i => Serial.rank c (h.p i).key) father
          (Serial.rank c (h.p (smallChild h max father)).key) :=
      Function.comp_update (fun e : DnHeapEntry Obj => Serial.rank c e.key) h.p father _
    rw [hkeys]
    exact hs.order.down (by omega) hlt hpar hmin

/-- **The loop of `heap_extract`** moves the hole to a place without children, keeps the entries
other than the hole and writes only positions of these. -/
theorem sinkHole_placed (fuel : ℕ) : ∀ {h : DnHeap Obj} {pos : Obj → ℤ} {max father : ℕ},
    h.elements = max + 1 → h.elements ≤ fuel + father → Falling h pos father →
      ∃ h' pos' f', sinkHole fuel h pos max father = (h', pos', f') ∧ Falling h' pos' f' ∧
        max < BinHeap.left f' ∧ h'.elements = h.elements ∧
        (∀ e, BinHeap.HoleContent h'.p h.elements f' e ↔
          BinHeap.HoleContent h.p h.elements father e) ∧
        ∀ o, (∀ i, i < h.elements → i ≠ father → (h.p i).object ≠ o) → pos' o = pos o := by
  induction fuel with
  | zero =>
    intro h pos max father _ hfuel hs
    have := hs.father_lt
    omega
  | succ fuel ih =>
    intro h pos max father hmax hfuel hs
    rw [sinkHole]
    split_ifs with hleft
    · obtain ⟨hgt, hlt⟩ := smallChild_lt hmax hleft
      obtain ⟨h', pos', f', heq, hs', hleaf, hel, hcontent, hpos⟩ :=
        ih (h := h.put father (h.p (smallChild h max father))) hmax
          (by simp only [DnHeap.put]; omega) (hs.down hmax hleft)
      refine ⟨h', pos', f', heq, hs', hleaf, hel, fun e => (hcontent e).trans ?_, fun o ho => ?_⟩
      · exact BinHeap.holeContent_down hs.father_lt hlt hgt.ne e
      · have hself : (h.put father (h.p (smallChild h max father))).p father =
            h.p (smallChild h max father) := Function.update_self ..
        rw [hpos o fun i hi hne => ?_, setOffset_of_pos
          (h := h.put father (h.p (smallChild h max father))) hs.ofs_pos, hself,
          Function.update_of_ne (ho _ hlt hgt.ne').symm]
        by_cases hif : i = father
        · rw [hif, hself]
          exact ho _ hlt hgt.ne'
        · have hother : (h.put father (h.p (smallChild h max father))).p i = h.p i :=
            Function.update_of_ne hif _ _
          rw [hother]
          exact ho i hi hif
    · exact ⟨h, pos, father, rfl, hs, by omega, rfl, fun _ => Iff.rfl, fun _ _ => rfl⟩

/-- The loop of `heap_extract` keeps the order except at the hole. -/
theorem sinkHole_sinking (fuel : ℕ) : ∀ {h : DnHeap Obj} {pos : Obj → ℤ} {c : BitVec 64}
    {max father : ℕ}, h.elements = max + 1 → Sinking h pos c father →
      Sinking (sinkHole fuel h pos max father).1 (sinkHole fuel h pos max father).2.1 c
        (sinkHole fuel h pos max father).2.2 := by
  induction fuel with
  | zero => exact fun _ hs => hs
  | succ fuel ih =>
    intro h pos c max father hmax hs
    rw [sinkHole]
    split_ifs with hleft
    · exact ih (h := h.put father (h.p (smallChild h max father))) hmax (hs.down hmax hleft)
    · exact hs

omit [DecidableEq Obj] in
/-- Filling the hole with the last entry leaves one object whose place is not known. -/
theorem Falling.fill {h : DnHeap Obj} {pos : Obj → ℤ} {max father : ℕ}
    (hs : Falling h pos father) (hmax : h.elements = max + 1) (hne : father ≠ max) :
    Rising ({ h with elements := max }.put father (h.p max)) pos father := by
  have hlt : father < max := by
    have := hs.father_lt
    omega
  have hobj : (fun i => (({ h with elements := max }.put father (h.p max)).p i).object) =
      Function.update (fun i => (h.p i).object) father (h.p max).object :=
    Function.comp_update (fun e : DnHeapEntry Obj => e.object) h.p father _
  have hfill := (hmax ▸ hs.index).fill hlt
  refine ⟨hs.ofs_pos, hlt, ?_, ?_⟩
  · rw [hobj]
    exact hfill.1
  · intro i hi hif he
    refine hfill.2 i hi hif ?_
    have hself : (({ h with elements := max }.put father (h.p max)).p father) = h.p max :=
      Function.update_self ..
    rw [← hobj]
    exact he.trans (congrArg DnHeapEntry.object hself)

omit [DecidableEq Obj] in
/-- Filling the hole with the last entry leaves a heap with one entry out of order. -/
theorem Sinking.fill {h : DnHeap Obj} {pos : Obj → ℤ} {c : BitVec 64} {max father : ℕ}
    (hs : Sinking h pos c father) (hmax : h.elements = max + 1)
    (hleaf : max < BinHeap.left father) (hne : father ≠ max) :
    Bubbling ({ h with elements := max }.put father (h.p max)) pos c father := by
  have hlt : father < max := by
    have := hs.father_lt
    omega
  refine ⟨hs.toFalling.fill hmax hne, fun e he => ?_, ?_⟩
  · obtain ⟨i, hi, hif, rfl⟩ := (BinHeap.content_fill (p := h.p) hlt e).1 he
    exact hs.window i (by omega) hif
  · have hkeys : (fun i => Serial.rank c
        (({ h with elements := max }.put father (h.p max)).p i).key) =
        Function.update (fun i => Serial.rank c (h.p i).key) father
          (Serial.rank c (h.p max).key) :=
      Function.comp_update (fun e : DnHeapEntry Obj => Serial.rank c e.key) h.p father _
    rw [hkeys]
    exact (hmax ▸ hs.order).fill hleaf _

/-- After `RESET_OFFSET` the place `f` is a hole. -/
theorem Falling.start {h : DnHeap Obj} {pos : Obj → ℤ} {f : ℕ} (hw : h.Placed pos)
    (hf : f < h.elements) : Falling h (resetOffset h pos f) f := by
  have hidx := hw.indexed
  refine ⟨hw.ofs_pos, hf,
    fun i j hi hj _ _ he => hidx.inj i j hi hj (by omega) (by omega) he, fun i hi hif => ?_⟩
  rw [resetOffset, if_pos hw.ofs_pos, Function.update_of_ne, hidx.index i hi (by omega)]
  exact fun he => hif (hidx.inj i f hi hf (by omega) (by omega) he)

/-- After `RESET_OFFSET` the order holds except at the place `f`. -/
theorem Sinking.start {h : DnHeap Obj} {pos : Obj → ℤ} {c : BitVec 64} {f : ℕ}
    (hw : h.Wf pos) (hc : h.InWindow c) (hf : f < h.elements) :
    Sinking h (resetOffset h pos f) c f :=
  ⟨.start hw.placed hf, fun _ hi _ => hc _ (DnHeap.has_place hi),
    ((ordered_iff_rank hc).1 hw.ordered).hole hf⟩

omit [DecidableEq Obj] in
/-- Two entries with one object are the same. -/
theorem DnHeap.Placed.has_inj {h : DnHeap Obj} {pos : Obj → ℤ} (hw : h.Placed pos)
    {e e' : DnHeapEntry Obj} (he : h.Has e) (he' : h.Has e') (ho : e.object = e'.object) :
    e = e' := by
  obtain ⟨i, hi, rfl⟩ := he
  obtain ⟨j, hj, rfl⟩ := he'
  rw [hw.indexed.inj i j hi hj (by omega) (by omega) ho]

omit [DecidableEq Obj] in
/-- The entries other than the one at place `f`. -/
theorem DnHeap.Placed.holeContent {h : DnHeap Obj} {pos : Obj → ℤ} {f : ℕ} (hw : h.Placed pos)
    (hf : f < h.elements) (e : DnHeapEntry Obj) :
    BinHeap.HoleContent h.p h.elements f e ↔ h.Has e ∧ e ≠ h.p f := by
  constructor
  · rintro ⟨i, hi, hif, rfl⟩
    exact ⟨DnHeap.has_place hi, fun he => hif
      (hw.indexed.inj i f hi hf (by omega) (by omega) (congrArg DnHeapEntry.object he))⟩
  · rintro ⟨⟨i, hi, rfl⟩, hne⟩
    exact ⟨i, hi, fun he => hne (by rw [he]), rfl⟩

/-- The body of `heap_extract` after the loop. -/
theorem extractAt_eq {h h₁ : DnHeap Obj} {pos pos₁ : Obj → ℤ} {f f₁ max : ℕ}
    (hmax : h.elements = max + 1) (hel : h₁.elements = h.elements)
    (heq : sinkHole h.elements h (resetOffset h pos f) max f = (h₁, pos₁, f₁)) :
    extractAt h pos f = if f₁ ≠ max then
      heapInsertNull ({ h₁ with elements := max }.put f₁ (h₁.p max)) pos₁ f₁
      else ({ h₁ with elements := max }, pos₁) := by
  simp only [extractAt, hmax, Nat.add_sub_cancel] at heq hel ⊢
  rw [heq]
  simp only [hel, Nat.add_sub_cancel]

/-- **Extraction of a place.** The body of `heap_extract` removes the entry at place `f` and nothing
else, the position stored in its object becomes invalid, and the other objects stay at the places
they name. -/
theorem extractAt_placed {h : DnHeap Obj} {pos : Obj → ℤ} {f : ℕ} (hw : h.Placed pos)
    (hf : f < h.elements) :
    (extractAt h pos f).1.Placed (extractAt h pos f).2 ∧
      (∀ e, (extractAt h pos f).1.Has e ↔ h.Has e ∧ e ≠ h.p f) ∧
      (extractAt h pos f).2 (h.p f).object = -16 ∧
      (∀ o, ¬ h.Mem o → (extractAt h pos f).2 o = pos o) ∧
      (extractAt h pos f).1.elements + 1 = h.elements := by
  obtain ⟨max, hmax⟩ : ∃ max, h.elements = max + 1 := ⟨h.elements - 1, by omega⟩
  obtain ⟨h₁, pos₁, f₁, heq, hs₁, hleaf, hel, hcontent, hout⟩ :=
    sinkHole_placed h.elements hmax (by omega) (Falling.start hw hf)
  have hreset : ∀ o, o ≠ (h.p f).object → resetOffset h pos f o = pos o := fun o ho => by
    rw [resetOffset, if_pos hw.ofs_pos, Function.update_of_ne ho]
  have hgone : pos₁ (h.p f).object = -16 := by
    rw [hout _ fun i hi hif he => hif (hw.indexed.inj i f hi hf (by omega) (by omega) he),
      resetOffset, if_pos hw.ofs_pos, Function.update_self]
  have hkeep : ∀ o, ¬ h.Mem o → pos₁ o = pos o := by
    intro o ho
    have hno : ∀ i, i < h.elements → (h.p i).object ≠ o := fun i hi he =>
      ho ⟨(h.p i).key, i, hi, by rw [← he]⟩
    rw [hout o fun i hi _ => hno i hi, hreset o (hno f hf).symm]
  rw [extractAt_eq hmax hel heq]
  have hel₁ : h₁.elements = max + 1 := hel.trans hmax
  have hrest : ∀ e, BinHeap.HoleContent h₁.p (max + 1) f₁ e ↔ h.Has e ∧ e ≠ h.p f := fun e => by
    rw [← hw.holeContent hf, ← hcontent, hmax]
  by_cases hlast : f₁ = max
  · rw [if_neg (not_not.2 hlast)]
    subst hlast
    have hindex := hs₁.index
    rw [hel₁] at hindex
    exact ⟨⟨hs₁.ofs_pos, hindex.of_last⟩,
      fun e => (BinHeap.content_of_last e).trans (hrest e), hgone, hkeep, hmax.symm⟩
  · rw [if_pos hlast]
    have hb := hs₁.fill hel₁ hlast
    obtain ⟨hpl, hhas, hpos', hel'⟩ := bubbleUp_placed f₁ hb
    have hlt : f₁ < max := hb.son_lt
    have hcont : ∀ e, ({ h₁ with elements := max }.put f₁ (h₁.p max)).Has e ↔
        h.Has e ∧ e ≠ h.p f := fun e => (BinHeap.content_fill hlt e).trans (hrest e)
    have hframe : ∀ o, (∀ e, h.Has e → e ≠ h.p f → e.object ≠ o) →
        (heapInsertNull ({ h₁ with elements := max }.put f₁ (h₁.p max)) pos₁ f₁).2 o = pos₁ o :=
      fun o ho => hpos' o fun ⟨k, hk⟩ => ho _ ((hcont _).1 hk).1 ((hcont _).1 hk).2 rfl
    refine ⟨hpl, fun e => (hhas e).trans (hcont e), ?_, fun o ho => ?_, ?_⟩
    · rw [← hgone]
      exact hframe _ fun e he hne heo => hne (hw.has_inj he (DnHeap.has_place hf) heo)
    · rw [← hkeep o ho]
      exact hframe o fun e he _ heo => ho ⟨e.key, by rw [← heo]; exact he⟩
    · rw [hmax]
      exact congrArg (· + 1) hel'

/-- Inside a window, the body of `heap_extract` keeps the order. -/
theorem extractAt_ordered {h : DnHeap Obj} {pos : Obj → ℤ} {c : BitVec 64} {f : ℕ}
    (hw : h.Wf pos) (hc : h.InWindow c) (hf : f < h.elements) :
    ∀ i, 0 < i → i < (extractAt h pos f).1.elements → keyLT ((extractAt h pos f).1.p i).key
      ((extractAt h pos f).1.p (BinHeap.parent i)).key = false := by
  obtain ⟨max, hmax⟩ : ∃ max, h.elements = max + 1 := ⟨h.elements - 1, by omega⟩
  obtain ⟨h₁, pos₁, f₁, heq, -, hleaf, hel, -⟩ :=
    sinkHole_placed h.elements hmax (by omega) (Falling.start hw.placed hf)
  have hs₁ := sinkHole_sinking h.elements hmax (Sinking.start hw hc hf)
  rw [heq] at hs₁
  change Sinking h₁ pos₁ c f₁ at hs₁
  have hel₁ : h₁.elements = max + 1 := hel.trans hmax
  rw [extractAt_eq hmax hel heq]
  by_cases hlast : f₁ = max
  · rw [if_neg (not_not.2 hlast)]
    subst hlast
    have horder := hs₁.order
    rw [hel₁] at horder
    have hwin : DnHeap.InWindow { h₁ with elements := f₁ } c := by
      rintro e ⟨i, hi, rfl⟩
      have hi : i < f₁ := hi
      exact hs₁.window i (by omega) (by omega)
    exact (ordered_iff_rank hwin).2 horder.ordered
  · rw [if_pos hlast]
    exact bubbleUp_ordered f₁ le_rfl (hs₁.fill hel₁ hleaf hlast)

/-- Inside a window, the body of `heap_extract` leaves a well-formed heap without the entry. -/
theorem extractAt_spec {h : DnHeap Obj} {pos : Obj → ℤ} {c : BitVec 64} {f : ℕ}
    (hw : h.Wf pos) (hc : h.InWindow c) (hf : f < h.elements) :
    (extractAt h pos f).1.Wf (extractAt h pos f).2 ∧
      (∀ e, (extractAt h pos f).1.Has e ↔ h.Has e ∧ e ≠ h.p f) ∧
      (extractAt h pos f).2 (h.p f).object = -16 ∧
      (∀ o, ¬ h.Mem o → (extractAt h pos f).2 o = pos o) ∧
      (extractAt h pos f).1.elements + 1 = h.elements := by
  obtain ⟨hpl, hrest⟩ := extractAt_placed hw.placed hf
  exact ⟨⟨hpl.ofs_pos, extractAt_ordered hw hc hf, hpl.indexed⟩, hrest⟩

/-- **Extraction of the top.** -/
theorem heapExtract_top {h : DnHeap Obj} {pos : Obj → ℤ} {c : BitVec 64}
    (hw : h.Wf pos) (hc : h.InWindow c) (hne : 0 < h.elements) :
    ∃ h' pos', heapExtract h pos none = some (h', pos') ∧ h'.Wf pos' ∧
      (∀ e, h'.Has e ↔ h.Has e ∧ e ≠ ⟨h.topKey, h.topObject⟩) ∧ pos' h.topObject = -16 ∧
      (∀ o, ¬ h.Mem o → pos' o = pos o) ∧ h'.elements + 1 = h.elements :=
  ⟨_, _, by rw [heapExtract, if_neg hne.ne']; rfl, extractAt_spec hw hc hne⟩

/-- **Extraction from the middle.** An object that is in the heap is found at the place it
names. -/
theorem heapExtract_obj {h : DnHeap Obj} {pos : Obj → ℤ} {c k : BitVec 64} {o : Obj}
    (hw : h.Wf pos) (hc : h.InWindow c) (ho : h.Has ⟨k, o⟩) :
    ∃ h' pos', heapExtract h pos (some o) = some (h', pos') ∧ h'.Wf pos' ∧
      (∀ e, h'.Has e ↔ h.Has e ∧ e ≠ ⟨k, o⟩) ∧ pos' o = -16 ∧
      (∀ o', ¬ h.Mem o' → pos' o' = pos o') ∧ h'.elements + 1 = h.elements := by
  obtain ⟨f, hf, he⟩ := ho
  have hpos : pos o = f := by
    have := hw.indexed.index f hf hf.ne
    rwa [he] at this
  have hspec := extractAt_spec hw hc hf
  rw [he] at hspec
  refine ⟨_, _, ?_, hspec⟩
  have hofs := hw.ofs_pos
  rw [heapExtract, if_neg (by omega), extractIndex, if_neg (by omega), if_neg (by omega), hpos]
  rfl

/-- What an extraction leaves, without a window: the pairs with other objects, at the places that
these name. -/
structure DnHeap.Without (h : DnHeap Obj) (pos : Obj → ℤ) (o : Obj) (h' : DnHeap Obj)
    (pos' : Obj → ℤ) : Prop where
  placed : h'.Placed pos'
  has : ∀ e, h'.Has e ↔ h.Has e ∧ e.object ≠ o
  gone : h.Mem o → pos' o = -16
  other : ∀ o', ¬ h.Mem o' → pos' o' = pos o'

theorem extractAt_without {h : DnHeap Obj} {pos : Obj → ℤ} {f : ℕ} (hw : h.Placed pos)
    (hf : f < h.elements) :
    h.Without pos (h.p f).object (extractAt h pos f).1 (extractAt h pos f).2 := by
  obtain ⟨hpl, hhas, hgone, hother, -⟩ := extractAt_placed hw hf
  refine ⟨hpl, fun e => (hhas e).trans (and_congr_right fun he => not_congr ?_),
    fun _ => hgone, hother⟩
  exact ⟨congrArg _, hw.has_inj he (DnHeap.has_place hf)⟩

/-- **Extraction of the top without a window.** -/
theorem heapExtract_top_without {h h' : DnHeap Obj} {pos pos' : Obj → ℤ} (hw : h.Placed pos)
    (hne : 0 < h.elements) (he : heapExtract h pos none = some (h', pos')) :
    h.Without pos h.topObject h' pos' := by
  rw [heapExtract, if_neg hne.ne'] at he
  obtain rfl := (Prod.mk.inj (Option.some.inj he)).1
  obtain rfl := (Prod.mk.inj (Option.some.inj he)).2
  exact extractAt_without hw hne

/-- **Extraction from the middle without a window**, for an object that is in the heap or whose
position is not valid. -/
theorem heapExtract_obj_without {h h' : DnHeap Obj} {pos pos' : Obj → ℤ} {o : Obj}
    (hw : h.Placed pos) (ho : ¬ h.Mem o → pos o < 0)
    (he : heapExtract h pos (some o) = some (h', pos')) : h.Without pos o h' pos' := by
  unfold heapExtract at he
  split_ifs at he with hel
  · obtain ⟨rfl, rfl⟩ := Prod.mk.inj (Option.some.inj he)
    have hno : ∀ e, ¬ h.Has e := by
      rintro e ⟨i, hi, -⟩
      omega
    exact ⟨hw, fun e => ⟨fun h => absurd h (hno e), fun h => absurd h.1 (hno e)⟩,
      fun ⟨k, hk⟩ => absurd hk (hno _), fun _ _ => rfl⟩
  · obtain ⟨f, hf, heq⟩ := Option.map_eq_some_iff.1 he
    have hofs := hw.ofs_pos
    simp only [extractIndex, if_neg (not_le.2 hofs)] at hf
    split_ifs at hf with hout
    obtain rfl := Option.some.inj hf
    have hmem : h.Mem o := by
      by_contra hno
      exact hout (.inl (ho hno))
    obtain ⟨k, i, hi, hk⟩ := hmem
    have hpos := hw.indexed.index i hi (by omega)
    have hobj : (h.p i).object = o := congrArg DnHeapEntry.object hk
    simp only [hobj] at hpos
    rw [hpos, Int.toNat_natCast] at heq
    have hspec := extractAt_without hw hi
    rw [heq, hobj] at hspec
    exact hspec

end Spec

end Dummynet
