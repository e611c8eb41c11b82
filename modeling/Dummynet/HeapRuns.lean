import Dummynet.Heap
import Dummynet.Lib.Runs

/-!
# The heap as a multiset with priorities

What `heap_init`, `heap_insert` and `heap_extract` do to the pairs of a key and an object, over
whole runs and with any failures of `malloc`: they are the operations of a multiset from which an
entry with a least key or the entry of a given object is removed.

## Main definitions

* `HeapOp`, `heapStep`: the operations, and the heap with the positions as a machine.
* `Bag`, `BagStep`: the abstract machine.
* `Represents`: a heap is in order and holds the entries of a multiset.

## Main results

* `heapStep_simulates`: every operation does what the multiset does.
* `heap_refines_bag`: so does every run, and no operation panics.
-/

namespace Dummynet

/-- The operations on a heap. The flag is the result of `malloc`, if it is called. -/
inductive HeapOp (Obj : Type)
  | init (mallocOk : Bool) (size : ℕ) (ofs : ℤ)
  | insert (mallocOk : Bool) (key1 : BitVec 64) (o : Obj)
  | extract (obj : Option Obj)

variable {Obj : Type}

/-- A multiset of pairs of a key and an object, and the objects that were extracted and not
inserted again. -/
structure Bag (Obj : Type) where
  entries : Multiset (DnHeapEntry Obj)
  extracted : Set Obj

/-- What the operations do to the multiset. The result is `true` for a failure. -/
inductive BagStep : Bag Obj → HeapOp Obj → Bool → Bag Obj → Prop
  | init (A : Bag Obj) (mallocOk : Bool) (size : ℕ) (ofs : ℤ) :
      BagStep A (.init mallocOk size ofs) false ⟨0, A.extracted⟩
  | initFails (A : Bag Obj) (size : ℕ) (ofs : ℤ) : BagStep A (.init false size ofs) true A
  | insert (A : Bag Obj) (mallocOk : Bool) (k : BitVec 64) (o : Obj) :
      BagStep A (.insert mallocOk k o) false ⟨⟨k, o⟩ ::ₘ A.entries, A.extracted \ {o}⟩
  | insertFails (A : Bag Obj) (k : BitVec 64) (o : Obj) : BagStep A (.insert false k o) true A
  | empty (X : Set Obj) : BagStep ⟨0, X⟩ (.extract none) false ⟨0, X⟩
  | top (e : DnHeapEntry Obj) (B : Multiset (DnHeapEntry Obj)) (X : Set Obj) :
      (∀ e' ∈ B, keyLT e'.key e.key = false) →
      BagStep ⟨e ::ₘ B, X⟩ (.extract none) false ⟨B, insert e.object X⟩
  | obj (e : DnHeapEntry Obj) (B : Multiset (DnHeapEntry Obj)) (X : Set Obj) :
      BagStep ⟨e ::ₘ B, X⟩ (.extract (some e.object)) false ⟨B, insert e.object X⟩

/-- What the callers promise: the offset of the position is positive, an object is inserted once
and with a key in a window with the other keys, and only an object that is there is extracted. -/
def HeapOp.Allowed (B : Multiset (DnHeapEntry Obj)) : HeapOp Obj → Prop
  | .init _ _ ofs => 0 < ofs
  | .insert _ k o => (∀ e ∈ B, e.object ≠ o) ∧
      ∃ c, Serial.InWindow c k ∧ ∀ e ∈ B, Serial.InWindow c e.key
  | .extract none => True
  | .extract (some o) => ∃ e ∈ B, e.object = o

/-- The pairs of a key and an object in the heap. -/
def DnHeap.entries (h : DnHeap Obj) : Multiset (DnHeapEntry Obj) :=
  (Multiset.range h.elements).map h.p

/-- The heap `h` with the positions `pos` is well formed and holds the entries of `A`, whose keys
are in a window. The objects that were extracted have no valid position. -/
structure Represents (h : DnHeap Obj) (pos : Obj → ℤ) (A : Bag Obj) : Prop where
  wf : h.Wf pos
  entries : h.entries = A.entries
  extracted : ∀ o ∈ A.extracted, (∀ e ∈ A.entries, e.object ≠ o) ∧ pos o < 0
  window : ∃ c, ∀ e ∈ A.entries, Serial.InWindow c e.key

theorem DnHeap.mem_entries {h : DnHeap Obj} {e : DnHeapEntry Obj} : e ∈ h.entries ↔ h.Has e := by
  simp [DnHeap.entries, DnHeap.Has, BinHeap.Content]

theorem DnHeap.Wf.nodup {h : DnHeap Obj} {pos : Obj → ℤ} (hw : h.Wf pos) : h.entries.Nodup := by
  refine Multiset.Nodup.map_on (fun i hi j hj he => ?_) (Multiset.nodup_range _)
  rw [Multiset.mem_range] at hi hj
  exact hw.indexed.inj i j hi hj (by omega) (by omega) (congrArg DnHeapEntry.object he)

variable {h h' : DnHeap Obj} {pos pos' : Obj → ℤ} {A : Bag Obj}

namespace Represents

theorem mem (hr : Represents h pos A) {e : DnHeapEntry Obj} : e ∈ A.entries ↔ h.Has e := by
  rw [← hr.entries, DnHeap.mem_entries]

theorem inWindow (hr : Represents h pos A) {c : BitVec 64}
    (hc : ∀ e ∈ A.entries, Serial.InWindow c e.key) : h.InWindow c :=
  fun e he => hc e (hr.mem.2 he)

theorem notMem (hr : Represents h pos A) {o : Obj} (ho : ∀ e ∈ A.entries, e.object ≠ o) :
    ¬ h.Mem o :=
  fun ⟨_, hk⟩ => ho _ (hr.mem.2 hk) rfl

/-- The position of an object in the heap is the place where it is. -/
theorem position (hr : Represents h pos A) {i : ℕ} (hi : i < h.elements) :
    pos (h.p i).object = i :=
  hr.wf.indexed.index i hi (by omega)

/-- The multiset without an entry, after the entry was extracted. -/
theorem extract {e : DnHeapEntry Obj} {c : BitVec 64} (hr : Represents h pos A)
    (hc : ∀ e ∈ A.entries, Serial.InWindow c e.key) (he : h.Has e) (hw' : h'.Wf pos')
    (hhas : ∀ e', h'.Has e' ↔ h.Has e' ∧ e' ≠ e) (hgone : pos' e.object = -16)
    (hother : ∀ o, ¬ h.Mem o → pos' o = pos o) :
    ∃ B, A.entries = e ::ₘ B ∧ Represents h' pos' ⟨B, insert e.object A.extracted⟩ := by
  obtain ⟨B, hB⟩ := Multiset.exists_cons_of_mem (hr.mem.2 he)
  have hnodup := hr.wf.nodup
  rw [hr.entries, hB, Multiset.nodup_cons] at hnodup
  have hmem : ∀ e', e' ∈ B ↔ h'.Has e' := fun e' => by
    rw [hhas, ← hr.mem, hB, Multiset.mem_cons]
    exact ⟨fun h => ⟨.inr h, fun heq => hnodup.1 (heq ▸ h)⟩, fun h => h.1.resolve_left h.2⟩
  have hsub : ∀ e' ∈ B, e' ∈ A.entries := fun e' he' => hB ▸ Multiset.mem_cons_of_mem he'
  refine ⟨B, hB, hw', ?_, fun o ho => ?_, c, fun e' he' => hc e' (hsub e' he')⟩
  · exact (Multiset.Nodup.ext hw'.nodup hnodup.2).2 fun e' => by
      rw [DnHeap.mem_entries, hmem]
  · rcases ho with rfl | ho
    · refine ⟨fun e' he' heq => hnodup.1 ?_, by rw [hgone]; decide⟩
      rwa [← hr.wf.has_inj (hr.mem.1 (hsub e' he')) he heq]
    · obtain ⟨hout, hneg⟩ := hr.extracted o ho
      exact ⟨fun e' he' => hout e' (hsub e' he'), by rwa [hother o (hr.notMem hout)]⟩

end Represents

section Spec

variable [DecidableEq Obj]

/-- One operation on the heap and the positions. The output is `true` for a failure. -/
def heapStep (x : DnHeap Obj × (Obj → ℤ)) : HeapOp Obj → Option (Bool × DnHeap Obj × (Obj → ℤ))
  | .init mallocOk size ofs =>
    let r := heapInit mallocOk x.1 size ofs
    some (r.1, r.2, x.2)
  | .insert mallocOk k o => some (heapInsert mallocOk x.1 x.2 k o)
  | .extract obj => (heapExtract x.1 x.2 obj).map fun r => (false, r)

omit [DecidableEq Obj] in
/-- **`heap_init`.** -/
theorem init_simulates {b : Bool} {n : ℕ} {ofs : ℤ} (hr : Represents h pos A) (hofs : 0 < ofs) :
    ∃ B, BagStep A (.init b n ofs) (heapInit b h n ofs).1 B ∧
      Represents (heapInit b h n ofs).2 pos B := by
  have hroom : ∀ size, Represents ({ h with size := size, elements := 0, ofs := ofs } : DnHeap Obj)
      pos ⟨0, A.extracted⟩ := fun size =>
    ⟨⟨hofs, fun i _ hi => absurd hi (Nat.not_lt_zero i),
      ⟨fun i _ hi => absurd hi (Nat.not_lt_zero i), fun i hi => absurd hi (Nat.not_lt_zero i)⟩⟩, rfl,
      fun o ho => ⟨fun e he => absurd he (Multiset.notMem_zero e), (hr.extracted o ho).2⟩,
      0, fun e he => absurd he (Multiset.notMem_zero e)⟩
  unfold heapInit heapResize
  by_cases hsize : n ≤ h.size
  · simp only [if_pos hsize]
    exact ⟨_, .init A b n ofs, hroom h.size⟩
  · simp only [if_neg hsize]
    cases b with
    | true => exact ⟨_, .init A true n ofs, hroom _⟩
    | false => exact ⟨A, .initFails A n ofs, hr⟩

/-- **`heap_insert`.** -/
theorem insert_simulates {b : Bool} {k : BitVec 64} {o : Obj} (hr : Represents h pos A)
    (ho : ∀ e ∈ A.entries, e.object ≠ o) {c : BitVec 64} (hk : Serial.InWindow c k)
    (hc : ∀ e ∈ A.entries, Serial.InWindow c e.key) :
    ∃ B, BagStep A (.insert b k o) (heapInsert b h pos k o).1 B ∧
      Represents (heapInsert b h pos k o).2.1 (heapInsert b h pos k o).2.2 B := by
  have hno := hr.notMem ho
  obtain ⟨h', pos', heq, hw', hhas, hother, -⟩ := heapInsert_spec hr.wf (hr.inWindow hc) hk hno
  have hroom : ∀ b', heapInsert b' h pos k o = (false, h', pos') →
      ∃ B, BagStep A (.insert b' k o) (heapInsert b' h pos k o).1 B ∧
        Represents (heapInsert b' h pos k o).2.1 (heapInsert b' h pos k o).2.2 B := by
    intro b' hb'
    rw [hb']
    refine ⟨_, .insert A b' k o, hw', ?_, fun o' ho' => ?_, c, fun e he => ?_⟩
    · have hnew : (⟨k, o⟩ : DnHeapEntry Obj) ∉ A.entries := fun hin => ho _ hin rfl
      have hnodup : ((⟨k, o⟩ : DnHeapEntry Obj) ::ₘ A.entries).Nodup :=
        Multiset.nodup_cons.2 ⟨hnew, hr.entries ▸ hr.wf.nodup⟩
      refine (Multiset.Nodup.ext hw'.nodup hnodup).2 fun e => ?_
      rw [DnHeap.mem_entries, hhas, Multiset.mem_cons, hr.mem]
    · obtain ⟨hout, hneg⟩ := hr.extracted o' ho'.1
      refine ⟨fun e he heq => ?_, ?_⟩
      · rcases Multiset.mem_cons.1 he with rfl | he
        · exact ho'.2 heq.symm
        · exact hout e he heq
      · change pos' o' < 0
        rwa [hother o' ho'.2 (hr.notMem hout)]
    · rcases Multiset.mem_cons.1 he with rfl | he
      · exact hk
      · exact hc e he
  cases b with
  | true => exact hroom true heq
  | false =>
    rcases heapInsert_false h pos k o with hfail | hsame
    · rw [hfail]
      exact ⟨A, .insertFails A k o, hr⟩
    · exact hroom false (hsame.trans heq)

/-- **`heap_extract`** of the top. -/
theorem extract_top_simulates (hr : Represents h pos A) :
    ∃ r, heapExtract h pos none = some r ∧
      ∃ B, BagStep A (.extract none) false B ∧ Represents r.1 r.2 B := by
  rcases Nat.eq_zero_or_pos h.elements with h0 | h0
  · refine ⟨(h, pos), by rw [heapExtract, if_pos h0], A, ?_, hr⟩
    have hnil : A.entries = 0 := by
      rw [← hr.entries, DnHeap.entries, h0]
      rfl
    obtain ⟨B, X⟩ := A
    subst hnil
    exact .empty X
  · obtain ⟨c, hc⟩ := hr.window
    obtain ⟨h', pos', heq, hw', hhas, hgone, hother, -⟩ :=
      heapExtract_top hr.wf (hr.inWindow hc) h0
    obtain ⟨B, hB, hrep⟩ := hr.extract hc (DnHeap.has_top h0) hw' hhas hgone hother
    refine ⟨(h', pos'), heq, _, ?_, hrep⟩
    obtain ⟨E, X⟩ := A
    subst hB
    refine .top _ B X fun e' he' => ?_
    -- the least rank in the window is the least key
    have hin : e' ∈ (⟨h.topKey, h.topObject⟩ : DnHeapEntry Obj) ::ₘ B := Multiset.mem_cons_of_mem he'
    have hle := hr.wf.top_le (hr.inWindow hc) (hr.mem.1 hin)
    have hlt := Serial.lt_iff (hc e' hin) (hc _ (Multiset.mem_cons_self _ B))
    rw [keyLT, ← Bool.not_eq_true, hlt, not_lt]
    exact hle

/-- **`heap_extract`** of an object. -/
theorem extract_obj_simulates {e : DnHeapEntry Obj} (hr : Represents h pos A)
    (he : e ∈ A.entries) :
    ∃ r, heapExtract h pos (some e.object) = some r ∧
      ∃ B, BagStep A (.extract (some e.object)) false B ∧ Represents r.1 r.2 B := by
  obtain ⟨c, hc⟩ := hr.window
  obtain ⟨h', pos', heq, hw', hhas, hgone, hother, -⟩ :=
    heapExtract_obj (k := e.key) (o := e.object) hr.wf (hr.inWindow hc) (hr.mem.1 he)
  obtain ⟨B, hB, hrep⟩ := hr.extract hc (hr.mem.1 he) hw' hhas hgone hother
  refine ⟨(h', pos'), heq, _, ?_, hrep⟩
  obtain ⟨E, X⟩ := A
  subst hB
  exact .obj e B X

/-- **Every operation** that the callers may use succeeds or fails like one on the multiset, and
does to the entries what that does. -/
theorem heapStep_simulates {x : DnHeap Obj × (Obj → ℤ)} {op : HeapOp Obj}
    (hr : Represents x.1 x.2 A) (hop : op.Allowed A.entries) :
    ∃ b y B, heapStep x op = some (b, y) ∧ BagStep A op b B ∧ Represents y.1 y.2 B := by
  cases op with
  | init b n ofs =>
    obtain ⟨B, hB, hrep⟩ := init_simulates (b := b) (n := n) hr hop
    exact ⟨_, _, B, rfl, hB, hrep⟩
  | insert b k o =>
    obtain ⟨ho, c, hk, hc⟩ := hop
    obtain ⟨B, hB, hrep⟩ := insert_simulates (b := b) hr ho hk hc
    exact ⟨_, _, B, rfl, hB, hrep⟩
  | extract obj =>
    cases obj with
    | none =>
      obtain ⟨r, heq, B, hB, hrep⟩ := extract_top_simulates hr
      exact ⟨false, r, B, by rw [heapStep, heq]; rfl, hB, hrep⟩
    | some o =>
      obtain ⟨e, he, rfl⟩ := hop
      obtain ⟨r, heq, B, hB, hrep⟩ := extract_obj_simulates hr he
      exact ⟨false, r, B, by rw [heapStep, heq]; rfl, hB, hrep⟩

/-- **The heap refines the multiset.** In every run of allowed operations from an empty heap with
positions, with any failures of `malloc`, the outputs are those of a run of the multiset, whose
entries the heap holds in heap order, each object at its position; and the next operation does not
panic. -/
theorem heap_refines_bag {x y : DnHeap Obj × (Obj → ℤ)} {l : List (HeapOp Obj × Bool)}
    (hofs : 0 < x.1.ofs) (hempty : x.1.elements = 0)
    (hrun : Runs.Run heapStep (fun x op _ => op.Allowed x.1.entries) x l y) :
    ∃ A, Runs.Trace BagStep ⟨0, ∅⟩ l A ∧ Represents y.1 y.2 A ∧
      ∀ op : HeapOp Obj, op.Allowed A.entries → ∃ r, heapStep y op = some r := by
  have hstart : Represents x.1 x.2 ⟨0, ∅⟩ := by
    refine ⟨⟨hofs, fun i _ hi => ?_, ⟨fun i _ hi => ?_, fun i hi => ?_⟩⟩, ?_,
      fun o ho => absurd ho (Set.notMem_empty o), 0, fun e he => absurd he (Multiset.notMem_zero e)⟩
    any_goals omega
    rw [DnHeap.entries, hempty]
    rfl
  obtain ⟨A, htrace, hrep⟩ := hrun.simulation (R := BagStep)
    (fun x A => Represents x.1 x.2 A)
    (fun x op b y A hx hop hst => by
      obtain ⟨b', y', B, heq, hB, hrep⟩ := heapStep_simulates hx (hx.entries ▸ hop)
      obtain ⟨rfl, rfl⟩ := Prod.mk.inj (Option.some.inj (hst.symm.trans heq))
      exact ⟨B, hB, hrep⟩) hstart
  refine ⟨A, htrace, hrep, fun op hop => ?_⟩
  obtain ⟨b, z, B, heq, -, -⟩ := heapStep_simulates hrep hop
  exact ⟨_, heq⟩

end Spec

/-- A run of two insertions, the second with the smaller key, and the extraction of the object that
came first. -/
theorem heap_refines_bag_two : ∃ (y : DnHeap ℕ × (ℕ → ℤ)) (A : Bag ℕ),
    Runs.Trace BagStep ⟨0, ∅⟩
      [(.insert true 7 0, false), (.insert true 3 1, false), (.extract (some 0), false)] A ∧
      Represents y.1 y.2 A ∧ ∀ op : HeapOp ℕ, op.Allowed A.entries → ∃ r, heapStep y op = some r := by
  have hrun : ∃ y, Runs.Run heapStep (fun x op _ => op.Allowed x.1.entries)
      (((⟨0, 0, 4, fun _ => ⟨0, 0⟩⟩ : DnHeap ℕ), fun _ => 0) : DnHeap ℕ × (ℕ → ℤ))
      [(.insert true 7 0, false), (.insert true 3 1, false), (.extract (some 0), false)] y := by
    refine ⟨_, ((Runs.Run.nil _).snoc ?_ rfl |>.snoc ?_ rfl).snoc ?_ rfl⟩
    · exact ⟨by decide, 0, by decide, by decide⟩
    · exact ⟨by decide, 0, by decide, by decide⟩
    · exact ⟨_, DnHeap.mem_entries.2 ⟨1, by decide, rfl⟩, rfl⟩
  obtain ⟨y, hy⟩ := hrun
  obtain ⟨A, hA⟩ := heap_refines_bag (by decide) rfl hy
  exact ⟨y, A, hA⟩

end Dummynet
