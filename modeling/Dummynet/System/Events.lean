import Dummynet.System.Teardown
import Dummynet.System.Serve

/-!
# The event heap

Which instances and delay lines are in the event heap: those whose flag says so, at the place that
they name, and a delay line with the output time of its head.

While a service is under way an object may be out of the heap whatever its flag says; such an
object is a hole.

## Main definitions

* `Events M X s`: the event heap is consistent, apart from the holes `X`. If `M` holds, `malloc`
  does not fail.

## Main results

* `Events.write`: what is not about the event heap keeps it consistent.
* `Events.evInsert`, `Events.extractTop`, `Events.extractIf`: insertion and extraction.
* `Move.events`, `Path.events`: the changes that are not about the event heap.
* `Events.transmitEvent`, `Events.serveSched`: the functions on an instance.
-/

namespace Dummynet

variable {F : Set FskPtr} {S : Set SchkPtr} {L : Option FskPtr} {s t u v : Dn} {p : SiPtr}
  {M : Prop} {X : Set EvObj} {o : EvObj}

/-- The instance of an object of the event heap. -/
def EvObj.ptr : EvObj → SiPtr
  | .si p => p
  | .dline p => p

/-- The flag that says that an object is in the event heap: `DN_ACTIVE` of an instance, and the
subtype of a delay line. -/
def Dn.flag (s : Dn) : EvObj → Bool
  | .si p => (s.inst p).active
  | .dline p => (s.inst p).dlineSubtype

/-- The output time of the packet at the head of the delay line. -/
def SchInst.due (x : SchInst) : Option (BitVec 64) := x.dline.head?.map fun d => d.tag.outputTime

/-- An insertion has the outcome it has when there is memory, or it changes nothing. -/
theorem Dn.evInsert_or {k : BitVec 64} {b : Bool} {ev : DnHeap EvObj} {pos : EvObj → ℤ}
    (h : heapInsert true s.evheap s.oidId k o = (b, ev, pos)) :
    (s.evInsert k o).evheap = ev ∧ (s.evInsert k o).oidId = pos ∨
      (s.evInsert k o).evheap = s.evheap ∧ (s.evInsert k o).oidId = s.oidId := by
  have hval : ∀ {b : Bool} {r : Bool × DnHeap EvObj × (EvObj → ℤ)}, s.env.malloc 0 = b →
      heapInsert b s.evheap s.oidId k o = r →
      (s.evInsert k o).evheap = r.2.1 ∧ (s.evInsert k o).oidId = r.2.2 := by
    rintro b r rfl rfl
    exact ⟨rfl, rfl⟩
  cases hb : s.env.malloc 0 with
  | true => exact .inl (hval hb h)
  | false =>
    rcases heapInsert_false s.evheap s.oidId k o with hfail | hroom
    · exact .inr (hval hb hfail)
    · exact .inl (hval hb (hroom.trans h))

/-- The objects in the event heap exist, are at the places they name and have their flags. A
delay line has its flag if it is not empty, and its key is the output time of the head. If `M`
holds, `malloc` does not fail, and an object with its flag is in the heap. The objects in `X` are
not in the heap, and nothing is known of their flags. -/
structure Events (M : Prop) (X : Set EvObj) (s : Dn) : Prop where
  placed : s.evheap.Placed s.oidId
  hole : ∀ o ∈ X, ¬ s.evheap.Mem o
  listed : ∀ o, s.evheap.Mem o → o.ptr ∈ s.sis ∧ s.flag o = true
  absent : ∀ o, o.ptr ∈ s.sis → ¬ s.evheap.Mem o → s.oidId o < 0
  line : ∀ p ∈ s.sis, EvObj.dline p ∉ X → ((s.inst p).dlineSubtype = true ↔ (s.inst p).dline ≠ [])
  due : ∀ k p, s.evheap.Has ⟨k, .dline p⟩ → (s.inst p).due = some k
  full : M → ∀ o, o ∉ X → o.ptr ∈ s.sis → s.flag o = true → s.evheap.Mem o
  malloc : M → ∀ n, s.env.malloc n = true

namespace Events

/-- Only the event heap, the flags and the delay lines matter. -/
theorem congr (h : Events M X s) (hev : t.evheap = s.evheap) (hid : t.oidId = s.oidId)
    (hsis : t.sis = s.sis) (hflag : ∀ o, t.flag o = s.flag o)
    (hline : ∀ p, (t.inst p).dline = (s.inst p).dline)
    (hm : (∀ n, s.env.malloc n = true) → ∀ n, t.env.malloc n = true) : Events M X t where
  placed := by
    rw [hev, hid]
    exact h.placed
  hole o ho := by
    rw [hev]
    exact h.hole o ho
  listed o ho := by
    rw [hsis, hflag]
    exact h.listed o (hev ▸ ho)
  absent o ho hmem := by
    rw [hid]
    exact h.absent o (hsis ▸ ho) (hev ▸ hmem)
  line p hp hX := by
    have := hflag (.dline p)
    rw [show (t.inst p).dlineSubtype = (s.inst p).dlineSubtype from this, hline]
    exact h.line p (hsis ▸ hp) hX
  due k p hk := by
    rw [SchInst.due, hline]
    exact h.due k p (hev ▸ hk)
  full hM o hX ho hf := by
    rw [hev]
    exact h.full hM o hX (hsis ▸ ho) (hflag o ▸ hf)
  malloc hM := hm (h.malloc hM)

/-- An object that is not in the heap can be a hole. -/
theorem weaken (h : Events M X s) (ho : ¬ s.evheap.Mem o) : Events M (insert o X) s :=
  { h with
    hole := fun o' ho' => by
      rcases ho' with rfl | ho'
      · exact ho
      · exact h.hole o' ho'
    line := fun p hp hX => h.line p hp fun hX' => hX (.inr hX')
    full := fun hM o' hX => h.full hM o' fun hX' => hX (.inr hX') }

/-- A hole without its flag is none. -/
theorem close (h : Events M (insert o X) s) (hflag : s.flag o = false)
    (hline : ∀ p, o = .dline p → (s.inst p).dline = []) : Events M X s :=
  { h with
    hole := fun o' ho' => h.hole o' (.inr ho')
    line := fun p hp hX => by
      by_cases ho : EvObj.dline p = o
      · subst ho
        rw [show (s.inst p).dlineSubtype = false from hflag, hline p rfl]
        simp
      · exact h.line p hp fun hX' => hX (hX'.resolve_left ho)
    full := fun hM o' hX ho hf => by
      by_cases he : o' = o
      · rw [he, hflag] at hf
        exact absurd hf (by simp)
      · exact h.full hM o' (fun hX' => hX (hX'.resolve_left he)) ho hf }

theorem due_eq_none {x : SchInst} : x.due = none ↔ x.dline = [] := by
  rw [SchInst.due, Option.map_eq_none_iff, List.head?_eq_none_iff]

/-- A write to an instance: of its own flag if it is a hole, and of its delay line if that is a
hole. -/
theorem write (h : Events M X s) (hev : t.evheap = s.evheap) (hid : t.oidId = s.oidId)
    (hsis : t.sis = s.sis) (hother : ∀ p', p' ≠ p → t.inst p' = s.inst p')
    (hsi : EvObj.si p ∈ X ∨ (t.inst p).active = (s.inst p).active)
    (hdl : EvObj.dline p ∈ X ∨ (t.inst p).dlineSubtype = (s.inst p).dlineSubtype ∧
      (t.inst p).due = (s.inst p).due)
    (hm : (∀ n, s.env.malloc n = true) → ∀ n, t.env.malloc n = true) : Events M X t := by
  have hflag : ∀ o, o ∉ X → t.flag o = s.flag o := by
    intro o ho
    cases o with
    | si p' =>
      rcases eq_or_ne p' p with rfl | hne
      · exact hsi.resolve_left ho
      · rw [Dn.flag, hother p' hne, Dn.flag]
    | dline p' =>
      rcases eq_or_ne p' p with rfl | hne
      · exact (hdl.resolve_left ho).1
      · rw [Dn.flag, hother p' hne, Dn.flag]
  have hdue : ∀ p', EvObj.dline p' ∉ X → (t.inst p').due = (s.inst p').due := by
    intro p' hX
    rcases eq_or_ne p' p with rfl | hne
    · exact (hdl.resolve_left hX).2
    · rw [hother p' hne]
  have hmem : ∀ {o}, t.evheap.Mem o → s.evheap.Mem o ∧ o ∉ X := fun {o} ho => by
    rw [hev] at ho
    exact ⟨ho, fun hX => h.hole o hX ho⟩
  refine ⟨?_, fun o ho => ?_, fun o ho => ?_, fun o ho hno => ?_, fun p' hp' hX => ?_,
    fun k p' hk => ?_, fun hM o hX ho hf => ?_, fun hM => hm (h.malloc hM)⟩
  · rw [hev, hid]
    exact h.placed
  · rw [hev]
    exact h.hole o ho
  · rw [hsis, hflag o (hmem ho).2]
    exact h.listed o (hmem ho).1
  · rw [hid]
    exact h.absent o (hsis ▸ ho) (hev ▸ hno)
  · rw [show (t.inst p').dlineSubtype = (s.inst p').dlineSubtype from hflag _ hX, Ne,
      ← due_eq_none, hdue p' hX, due_eq_none]
    exact h.line p' (hsis ▸ hp') hX
  · rw [hdue p' (hmem ⟨k, hk⟩).2]
    exact h.due k p' (hev ▸ hk)
  · rw [hev]
    exact h.full hM o hX (hsis ▸ ho) (hflag o hX ▸ hf)

/-- The result of `heap_insert`: the pair is added, or there is no memory. -/
theorem evInsert_cases {k : BitVec 64} (h : Events M X s) (ho : ¬ s.evheap.Mem o) :
    ((s.evInsert k o).evheap.Placed (s.evInsert k o).oidId ∧
      (∀ e, (s.evInsert k o).evheap.Has e ↔ e = ⟨k, o⟩ ∨ s.evheap.Has e) ∧
      ∀ o', o' ≠ o → ¬ s.evheap.Mem o' → (s.evInsert k o).oidId o' = s.oidId o') ∨
    ¬ M ∧ (s.evInsert k o).evheap = s.evheap ∧ (s.evInsert k o).oidId = s.oidId := by
  obtain ⟨ev, pos, heq, hpl, hhas, hpos, -⟩ := heapInsert_placed (k := k) h.placed ho
  have hval : ∀ {b : Bool} {r : Bool × DnHeap EvObj × (EvObj → ℤ)}, s.env.malloc 0 = b →
      heapInsert b s.evheap s.oidId k o = r →
      (s.evInsert k o).evheap = r.2.1 ∧ (s.evInsert k o).oidId = r.2.2 := by
    rintro b r rfl rfl
    exact ⟨rfl, rfl⟩
  cases hb : s.env.malloc 0 with
  | true =>
    obtain ⟨hev, hid⟩ := hval hb heq
    rw [hev, hid]
    exact .inl ⟨hpl, hhas, hpos⟩
  | false =>
    rcases heapInsert_false s.evheap s.oidId k o with hfail | hroom
    · refine .inr ⟨fun hM => ?_, hval hb hfail⟩
      rw [h.malloc hM 0] at hb
      exact absurd hb (by simp)
    · obtain ⟨hev, hid⟩ := hval hb (hroom.trans heq)
      rw [hev, hid]
      exact .inl ⟨hpl, hhas, hpos⟩

/-- **Insertion** of an object that was a hole. -/
theorem evInsert {k : BitVec 64} (h : Events M (insert o X) s) (hoX : o ∉ X)
    (hptr : o.ptr ∈ s.sis) (hflag : s.flag o = true)
    (hdue : ∀ p, o = .dline p → (s.inst p).due = some k) : Events M X (s.evInsert k o) := by
  have hno := h.hole o (.inl rfl)
  have hline : ∀ p ∈ s.sis, EvObj.dline p ∉ X →
      ((s.inst p).dlineSubtype = true ↔ (s.inst p).dline ≠ []) := by
    intro p hp hX
    by_cases ho : EvObj.dline p = o
    · subst ho
      rw [show (s.inst p).dlineSubtype = true from hflag, Ne, ← due_eq_none, hdue p rfl]
      simp
    · exact h.line p hp fun hX' => hX (hX'.resolve_left ho)
  have hm : M → ∀ n, (s.evInsert k o).env.malloc n = true := fun hM n => h.malloc hM (n + 1)
  rcases evInsert_cases (k := k) h hno with ⟨hpl, hhas, hpos⟩ | ⟨hM, hev, hid⟩
  · have hmem : ∀ o', (s.evInsert k o).evheap.Mem o' ↔ o' = o ∨ s.evheap.Mem o' := by
      intro o'
      constructor
      · rintro ⟨k', hk'⟩
        rcases (hhas _).1 hk' with he | hs
        · exact .inl (congrArg DnHeapEntry.object he)
        · exact .inr ⟨k', hs⟩
      · rintro (rfl | ⟨k', hs⟩)
        · exact ⟨k, (hhas _).2 (.inl rfl)⟩
        · exact ⟨k', (hhas _).2 (.inr hs)⟩
    refine ⟨hpl, fun o' hX hin => ?_, fun o' hin => ?_, fun o' ho' hout => ?_, hline,
      fun k' p hk' => ?_, fun hM o' hX ho' hf => ?_, hm⟩
    · rcases (hmem o').1 hin with rfl | hs
      · exact hoX hX
      · exact h.hole o' (.inr hX) hs
    · rcases (hmem o').1 hin with rfl | hs
      · exact ⟨hptr, hflag⟩
      · exact h.listed o' hs
    · rw [hmem, not_or] at hout
      rw [hpos o' hout.1 hout.2]
      exact h.absent o' ho' hout.2
    · rcases (hhas _).1 hk' with he | hs
      · obtain ⟨rfl, rfl⟩ := DnHeapEntry.mk.inj he
        exact hdue p rfl
      · exact h.due k' p hs
    · by_cases he : o' = o
      · exact (hmem o').2 (.inl he)
      · exact (hmem o').2 (.inr (h.full hM o' (fun hX' => hX (hX'.resolve_left he)) ho' hf))
  · refine ⟨?_, fun o' hX => ?_, fun o' hin => ?_, fun o' ho' hout => ?_, hline,
      fun k' p hk' => ?_, fun hM' => absurd hM' hM, hm⟩
    · rw [hev, hid]
      exact h.placed
    · rw [hev]
      exact h.hole o' (.inr hX)
    · exact h.listed o' (hev ▸ hin)
    · rw [hid]
      exact h.absent o' ho' (hev ▸ hout)
    · exact h.due k' p (hev ▸ hk')

/-- What an extraction of `o` leaves. -/
theorem without {ev : DnHeap EvObj} {pos : EvObj → ℤ} (h : Events M X s)
    (hw : s.evheap.Without s.oidId o ev pos) (hev : t = { s with evheap := ev, oidId := pos }) :
    Events M (insert o X) t := by
  subst hev
  have hmem : ∀ o', ev.Mem o' ↔ s.evheap.Mem o' ∧ o' ≠ o := fun o' =>
    ⟨fun ⟨k, hk⟩ => ⟨⟨k, ((hw.has _).1 hk).1⟩, ((hw.has _).1 hk).2⟩,
      fun ⟨⟨k, hk⟩, hne⟩ => ⟨k, (hw.has _).2 ⟨hk, hne⟩⟩⟩
  refine ⟨hw.placed, fun o' hX hin => ?_, fun o' hin => h.listed o' ((hmem o').1 hin).1,
    fun o' ho' hout => ?_, fun p hp hX => h.line p hp fun hX' => hX (.inr hX'),
    fun k p hk => h.due k p ((hw.has _).1 hk).1, fun hM o' hX ho' hf => ?_, h.malloc⟩
  · rcases hX with rfl | hX
    · exact ((hmem o').1 hin).2 rfl
    · exact h.hole o' hX ((hmem o').1 hin).1
  · by_cases hs : s.evheap.Mem o'
    · have he : o' = o := by
        by_contra hne
        exact hout ((hmem o').2 ⟨hs, hne⟩)
      subst he
      change pos o' < 0
      rw [hw.gone hs]
      decide
    · change pos o' < 0
      rw [hw.other o' hs]
      exact h.absent o' ho' hs
  · have hne : o' ≠ o := fun he => hX (.inl he)
    exact (hmem o').2 ⟨h.full hM o' (fun hX' => hX (.inr hX')) ho' hf, hne⟩

/-- **Extraction** of the top. -/
theorem extractTop (h : Events M X s) (hne : 0 < s.evheap.elements)
    (he : s.evExtract none = some t) : Events M (insert s.evheap.topObject X) t := by
  obtain ⟨r, hr, rfl⟩ := Option.map_eq_some_iff.1 he
  exact h.without (heapExtract_top_without h.placed hne hr) rfl

/-- **Extraction** of an object whose flag says that it is in the heap. -/
theorem extractIf {flag : Bool} (h : Events M X s) (hptr : o.ptr ∈ s.sis) (hflag : s.flag o = flag)
    (he : s.evExtractIf flag o = some t) : Events M (insert o X) t := by
  unfold Dn.evExtractIf at he
  split_ifs at he with hf
  · obtain ⟨r, hr, rfl⟩ := Option.map_eq_some_iff.1 he
    exact h.without (heapExtract_obj_without h.placed (h.absent o hptr) hr) rfl
  · obtain rfl := Option.some.inj he
    refine h.weaken fun ho => hf ?_
    rw [← hflag]
    exact (h.listed o ho).2

/-! ### Changes of other kinds -/

/-- A change that the instances and the event heap do not see. -/
theorem of_keeps (h : Events M X s) (hk : Keeps s t) (hev : t.evheap = s.evheap)
    (hid : t.oidId = s.oidId) : Events M X t :=
  h.congr hev hid hk.sis (fun o => by cases o <;> rw [Dn.flag, Dn.flag, hk.inst])
    (fun p => by rw [hk.inst]) hk.malloc

/-- A write to an instance that keeps its flags and its delay line. -/
theorem setInst {x : SchInst} (h : Events M X s) (hact : x.active = (s.inst p).active)
    (hsub : x.dlineSubtype = (s.inst p).dlineSubtype) (hdl : x.dline = (s.inst p).dline) :
    Events M X (s.setInst p x) := by
  refine h.write (p := p) rfl rfl rfl (fun p' hne => s.setInst_inst_of_ne x hne) (.inr ?_)
    (.inr ⟨?_, ?_⟩) id
  · rw [Dn.setInst_inst, hact]
  · rw [Dn.setInst_inst, hsub]
  · rw [Dn.setInst_inst, SchInst.due, hdl, SchInst.due]

/-- What is left after a callback. -/
theorem store {x : SchInst} {r : Inst x.kind.Priv x.kind.Ext} (h : Events M X s)
    (hact : x.active = (s.inst p).active) (hsub : x.dlineSubtype = (s.inst p).dlineSubtype)
    (hdl : x.dline = (s.inst p).dline) : Events M X (s.store p x r) :=
  (h.setInst (x := { x with s := r }) hact hsub hdl).congr (t := s.store p x r) rfl rfl rfl
    (fun o => by cases o <;> rfl) (fun _ => rfl) id

/-- A callback of a scheduler. -/
theorem callback {β : Type} {b : β}
    {f : (k : SchedType) → Inst k.Priv k.Ext → Option (β × Inst k.Priv k.Ext)}
    (h : Events M X s) (hc : s.callback p f = some (b, t)) : Events M X t := by
  obtain ⟨r, -, rfl⟩ := callback_spec hc
  exact h.store rfl rfl rfl

/-- An object of an instance that does not exist is not in the heap. -/
theorem not_mem (h : Events M X s) (ho : o.ptr ∉ s.sis) : ¬ s.evheap.Mem o :=
  fun hmem => ho (h.listed o hmem).1

/-- Only the places of the objects in the heap matter. -/
theorem placed_congr {ev : DnHeap EvObj} {pos pos' : EvObj → ℤ} (h : ev.Placed pos)
    (hpos : ∀ o, ev.Mem o → pos' o = pos o) : ev.Placed pos' :=
  ⟨h.ofs_pos, h.indexed.inj, fun i hi hne =>
    (hpos _ ⟨_, DnHeap.has_place hi⟩).trans (h.indexed.index i hi hne)⟩

/-- A new instance. -/
theorem addInst {x : SchInst} (h : Events M ∅ s) (hp : p ∉ s.sis) (hx : x.Fresh p) :
    Events M ∅ (s.addInst p x) := by
  have hself : (s.addInst p x).inst p = x := s.setInst_inst p x
  have hother : ∀ p', p' ≠ p → (s.addInst p x).inst p' = s.inst p' := fun p' hne =>
    s.setInst_inst_of_ne x hne
  have hmem : ∀ {o}, s.evheap.Mem o → o.ptr ≠ p := fun ho he => h.not_mem (he ▸ hp) ho
  have hid : ∀ o : EvObj, o.ptr ≠ p → (s.addInst p x).oidId o = s.oidId o := by
    rintro (p' | p') hne
    · have hsi : EvObj.si p' ≠ .si p := fun he => hne (EvObj.si.inj he)
      simp [Dn.addInst, Dn.setInst, Function.update_of_ne hsi]
    · have hdl : EvObj.dline p' ≠ .dline p := fun he => hne (EvObj.dline.inj he)
      simp [Dn.addInst, Dn.setInst, Function.update_of_ne hdl]
  have hnew : ∀ o : EvObj, o.ptr = p → (s.addInst p x).oidId o = -1 := by
    rintro (p' | p') rfl <;> simp [Dn.addInst, EvObj.ptr]
  have hin : ∀ {p'}, p' ∈ (s.addInst p x).sis → p' ≠ p → p' ∈ s.sis := fun hp' hne =>
    (Finset.mem_insert.1 hp').resolve_left hne
  have hflag : ∀ o : EvObj, o.ptr ≠ p → (s.addInst p x).flag o = s.flag o := by
    rintro (p' | p') hne
    · exact congrArg SchInst.active (hother p' hne)
    · exact congrArg SchInst.dlineSubtype (hother p' hne)
  have hunset : ∀ o : EvObj, o.ptr = p → (s.addInst p x).flag o = false := by
    rintro (p' | p') rfl
    · exact (congrArg SchInst.active hself).trans hx.active
    · exact (congrArg SchInst.dlineSubtype hself).trans hx.dlineSubtype
  refine ⟨?_, fun o ho => absurd ho (Set.notMem_empty o), fun o ho => ?_, fun o ho hout => ?_,
    fun p' hp' _ => ?_, fun k p' hk => ?_, fun hM o _ ho hf => ?_, h.malloc⟩
  · exact placed_congr h.placed fun o ho => hid o (hmem ho)
  · exact ⟨Finset.mem_insert_of_mem (h.listed o ho).1,
      (hflag o (hmem ho)).trans (h.listed o ho).2⟩
  · by_cases he : o.ptr = p
    · rw [hnew o he]
      decide
    · rw [hid o he]
      exact h.absent o (hin ho he) hout
  · by_cases he : p' = p
    · rw [he, hself, hx.dlineSubtype, hx.dline]
      simp
    · rw [hother p' he]
      exact h.line p' (hin hp' he) (Set.notMem_empty _)
  · rw [hother p' (hmem ⟨k, hk⟩)]
    exact h.due k p' hk
  · have he : o.ptr ≠ p := fun he => by
      rw [hunset o he] at hf
      exact absurd hf (by simp)
    exact h.full hM o (Set.notMem_empty o) (hin ho he) ((hflag o he).symm.trans hf)

/-- An instance goes, with what it has in the heap. -/
theorem siDestroy (h : Events M ∅ s) (hp : p ∈ s.sis) (hd : siDestroy s p = some t) :
    Events M ∅ t := by
  obtain ⟨u, hu, hd⟩ := Option.bind_eq_some_iff.1 hd
  obtain ⟨v, hv, hd⟩ := Option.bind_eq_some_iff.1 hd
  obtain rfl := Option.some.inj hd
  have h₁ := h.extractIf (o := .dline p) hp rfl hu
  obtain ⟨ev, pos, rfl⟩ := evExtractIf_spec hu
  have h₂ : Events M (insert (.dline p) ∅) ((s.inst p).uncount { s with
      evheap := ev, oidId := pos }) :=
    h₁.congr rfl rfl rfl (fun o => by cases o <;> rfl) (fun _ => rfl) id
  have h₃ := h₂.extractIf (o := .si p) hp rfl hv
  obtain ⟨ev', pos', rfl⟩ := evExtractIf_spec hv
  have hne : ∀ {o : EvObj}, o.ptr ≠ p → o ∉ (insert (.si p) (insert (.dline p) ∅) : Set EvObj) := by
    rintro o ho (rfl | rfl | hX)
    · exact ho rfl
    · exact ho rfl
    · exact hX
  have hgone : ∀ {o : EvObj}, ev'.Mem o → o.ptr ≠ p := by
    rintro (p' | p') ho rfl
    · exact h₃.hole _ (.inl rfl) ho
    · exact h₃.hole _ (.inr (.inl rfl)) ho
  have hother : ∀ {p'}, p' ≠ p → (Function.update s.inst p (s.inst p).freed) p' = s.inst p' :=
    fun hne => Function.update_of_ne hne ..
  refine ⟨h₃.placed, fun o ho => absurd ho (Set.notMem_empty o), fun o ho => ?_,
    fun o ho hout => ?_, fun p' hp' _ => ?_, fun k p' hk => ?_, fun hM o _ ho hf => ?_, h₃.malloc⟩
  · have hptr := hgone ho
    refine ⟨Finset.mem_erase.2 ⟨hptr, (h₃.listed o ho).1⟩, ?_⟩
    have hf := (h₃.listed o ho).2
    cases o
    · exact (congrArg SchInst.active (hother hptr)).trans hf
    · exact (congrArg SchInst.dlineSubtype (hother hptr)).trans hf
  · exact h₃.absent o (Finset.mem_of_mem_erase ho) hout
  · obtain ⟨hptr, hp'⟩ := Finset.mem_erase.1 hp'
    have := h₃.line p' hp' (hne (o := .dline p') hptr)
    change ((Function.update s.inst p (s.inst p).freed) p').dlineSubtype = true ↔ _
    rw [hother hptr]
    change _ ↔ ((Function.update s.inst p (s.inst p).freed) p').dline ≠ []
    rw [hother hptr]
    exact this
  · change ((Function.update s.inst p (s.inst p).freed) p').due = some k
    rw [@hother p' (hgone ⟨k, hk⟩)]
    exact h₃.due k p' hk
  · obtain ⟨hptr, ho⟩ := Finset.mem_erase.1 ho
    refine h₃.full hM o (hne hptr) ho ?_
    cases o
    · exact (congrArg SchInst.active (hother hptr)).symm.trans hf
    · exact (congrArg SchInst.dlineSubtype (hother hptr)).symm.trans hf

/-- The heap is made new when there are no instances. -/
theorem flush {b : Bool} (h : Events M X s) (hsis : s.sis = ∅) :
    Events M ∅ { s with evheap := (heapInit b s.evheap 16 4).2 } := by
  have hnone : ∀ p : SiPtr, p ∉ s.sis := fun p => by rw [hsis]; exact Finset.notMem_empty p
  have hzero : s.evheap.elements = 0 := by
    by_contra hne
    exact hnone _ (h.listed _ ⟨_, DnHeap.has_place (Nat.pos_of_ne_zero hne)⟩).1
  obtain ⟨hel, hofs⟩ : (heapInit b s.evheap 16 4).2.elements = 0 ∧
      0 < (heapInit b s.evheap 16 4).2.ofs := by
    unfold heapInit heapResize
    split_ifs
    · exact ⟨rfl, (by decide : (0 : ℤ) < 4)⟩
    · exact ⟨rfl, (by decide : (0 : ℤ) < 4)⟩
    · exact ⟨hzero, h.placed.ofs_pos⟩
  have hno : ∀ {e}, ¬ (heapInit b s.evheap 16 4).2.Has e := fun ⟨i, hi, _⟩ => by
    rw [hel] at hi
    exact absurd hi (Nat.not_lt_zero i)
  exact ⟨⟨hofs, by rw [hel]; exact ⟨fun i j hi => absurd hi (Nat.not_lt_zero i),
      fun i hi => absurd hi (Nat.not_lt_zero i)⟩⟩, fun o ho => absurd ho (Set.notMem_empty o),
    fun o ⟨k, hk⟩ => absurd hk hno, fun o ho => absurd ho (hnone _),
    fun p hp => absurd hp (hnone p), fun k p hk => absurd hk hno,
    fun _ o _ ho => absurd ho (hnone _), h.malloc⟩

end Events

/-- The changes that are not about the event heap and the delay lines. -/
def asideMoves : Set MoveKind
  | .heap | .take | .line | .transmit => False
  | _ => True

/-- Such a change keeps the event heap consistent. -/
theorem Move.events {k : MoveKind} (hk : k ∈ asideMoves) (hm : Move k s t) (h : Events M ∅ s) :
    Events M ∅ t := by
  cases hm with
  | quiet hq => exact h.of_keeps hq.toKeeps hq.evheap hq.oidId
  | conf hq => exact h.of_keeps hq.toKeeps hq.evheap hq.oidId
  | heap => exact absurd hk id
  | note => exact h.congr rfl rfl rfl (fun o => by cases o <;> rfl) (fun _ => rfl) id
  | clock => exact h.congr rfl rfl rfl (fun o => by cases o <;> rfl) (fun _ => rfl) id
  | credit => exact h.setInst rfl rfl rfl
  | new hp hx => exact h.addInst hp hx
  | destroy hp _ _ hd => exact h.siDestroy hp hd
  | newQueue _ _ _ _ hc =>
    obtain ⟨r, -, rfl⟩ := callback_setInst_spec hc
    exact h.store rfl rfl rfl
  | delete _ _ _ _ hc => exact h.callback hc
  | purge _ _ _ hc => exact h.callback hc
  | enqueue _ _ _ _ hc => exact h.callback hc
  | idle _ _ hc => exact h.callback hc
  | take => exact absurd hk id
  | line => exact absurd hk id
  | transmit => exact absurd hk id
  | flush hsis => exact h.flush hsis

/-- A path of such changes. -/
theorem Path.events {A : Set MoveKind} (hA : A ⊆ asideMoves) (hpath : Path A s t)
    (h : Events M ∅ s) : Events M ∅ t :=
  hpath.invariant (fun hk hm => hm.events (hA hk)) h

/-! ### A service -/

/-- **`transmit_event`** on a delay line that is not in the heap puts it back if packets are left. -/
theorem Events.transmitEvent {q q' : List DlPkt} {now : BitVec 64}
    (h : Events M (insert (.dline p) X) s) (hX : EvObj.dline p ∉ X) (hp : p ∈ s.sis)
    (he : transmitEvent s q p now = (q', t)) : Events M X t := by
  unfold Dummynet.transmitEvent at he
  dsimp only at he
  generalize hrest : (s.inst p).dline.dropWhile (fun d => keyLEQ d.tag.outputTime now) = rest at he
  generalize (s.inst p).dline.takeWhile (fun d => keyLEQ d.tag.outputTime now) = out at he
  set u : Dn := { s.setInst p { s.inst p with dline := rest, dlineSubtype := !rest.isEmpty } with
    log := s.log ++ out.map (Event.released p) } with hu
  have hself : u.inst p = { s.inst p with dline := rest, dlineSubtype := !rest.isEmpty } :=
    s.setInst_inst ..
  have h₁ : Events M (insert (.dline p) X) u :=
    h.write (p := p) rfl rfl rfl (fun p' hne => s.setInst_inst_of_ne _ hne)
      (.inr (by rw [hself])) (.inl (.inl rfl)) id
  have hflag : u.flag (.dline p) = !rest.isEmpty := congrArg SchInst.dlineSubtype hself
  cases rest with
  | nil =>
    obtain ⟨-, rfl⟩ := Prod.mk.inj he
    refine h₁.close hflag fun p' hp' => ?_
    obtain rfl := EvObj.dline.inj hp'
    rw [hself]
  | cons d rest =>
    obtain ⟨-, rfl⟩ := Prod.mk.inj he
    refine h₁.evInsert hX hp hflag fun p' hp' => ?_
    obtain rfl := EvObj.dline.inj hp'
    rw [hself]
    rfl

/-- The head of a delay line does not change when packets are added or the last one of several is
delayed. -/
theorem head?_delayLast {x : BitVec 64} {l new : List DlPkt} (hl : l ≠ []) (hnew : new ≠ []) :
    (delayLast x (l ++ new)).head? = l.head? := by
  obtain ⟨d, l, rfl⟩ := List.exists_cons_of_ne_nil hl
  rw [delayLast, List.dropLast_append_of_ne_nil hnew]
  rfl

/-- **`serve_sched`** on an instance that is not in the heap puts it back if its credit is used up,
and its delay line if that was empty. -/
theorem Events.serveSched {q q' : List DlPkt} {now : BitVec 64} (hg : Graph F S L s)
    (h : Events M (insert (.si p) ∅) s) (hp : p ∈ s.sis)
    (he : serveSched s q p now = some (q', t)) : Events M ∅ t := by
  obtain ⟨-, -, -, -, new, last, u, v, hserv, -⟩ := serveSched_spec hg hp he
  obtain ⟨hserved, hmoved, hmiddle, hfinish⟩ := hserv
  set g := grantCredit s p now with hgrant
  obtain ⟨c, hgp⟩ : ∃ c, g.inst p = { s.inst p with active := false, credit := c, schedTime := now } :=
    ⟨_, s.setInst_inst ..⟩
  have hEg : Events M (insert (.si p) ∅) g :=
    h.write (p := p) rfl rfl rfl (fun p' hne => s.setInst_inst_of_ne _ hne) (.inl (.inl rfl))
      (.inr ⟨by rw [hgp], by rw [SchInst.due, hgp, SchInst.due]⟩) id
  have hpg : p ∈ g.sis := hp
  have hpu : p ∈ u.sis := hserved.sis ▸ hpg
  have hact : (u.inst p).active = false := by rw [hserved.active, hgp]
  have hdline : (u.inst p).dline = (s.inst p).dline ++ new := by rw [hserved.dline, hgp]
  -- the delay line is out of the heap if it was empty and gets packets
  obtain ⟨D, hD, hsiD, hmem, hEu⟩ : ∃ D : Set EvObj,
      (D = if (s.inst p).dline = [] ∧ new ≠ [] then insert (.dline p) ∅ else ∅) ∧
      EvObj.si p ∉ D ∧ (EvObj.dline p ∈ D ↔ (s.inst p).dline = [] ∧ new ≠ []) ∧
      Events M (insert (.si p) D) u := by
    by_cases hempty : (s.inst p).dline = [] ∧ new ≠ []
    · refine ⟨_, rfl, ?_, ?_, ?_⟩
      · rw [if_pos hempty]
        rintro (h | h)
        · exact absurd h (by simp)
        · exact h
      · rw [if_pos hempty]
        exact iff_of_true (.inl rfl) hempty
      · rw [if_pos hempty, Set.insert_comm]
        have hout : ¬ g.evheap.Mem (.dline p) := fun ho => by
          have hsub : (g.inst p).dlineSubtype = true := (hEg.listed _ ho).2
          have hX : EvObj.dline p ∉ (insert (.si p) ∅ : Set EvObj) := by
            rintro (h | h)
            · exact absurd h (by simp)
            · exact h
          have hne := (hEg.line p hpg hX).1 hsub
          rw [hgp] at hne
          exact hne hempty.1
        exact (hEg.weaken hout).write (p := p) hserved.evheap hserved.oidId hserved.sis
          hserved.other (.inl (.inr (.inl rfl))) (.inl (.inl rfl)) hserved.malloc
    · refine ⟨_, rfl, ?_, ?_, ?_⟩
      · rw [if_neg hempty]
        exact Set.notMem_empty _
      · rw [if_neg hempty]
        exact iff_of_false (Set.notMem_empty _) hempty
      · rw [if_neg hempty]
        refine hEg.write (p := p) hserved.evheap hserved.oidId hserved.sis hserved.other
          (.inl (.inl rfl)) (.inr ⟨hserved.subtype, ?_⟩) hserved.malloc
        have hgd : (g.inst p).dline = (s.inst p).dline := by rw [hgp]
        rw [SchInst.due, hdline, SchInst.due, hgd]
        by_cases hnil : (s.inst p).dline = []
        · rw [not_not.1 fun hne => hempty ⟨hnil, hne⟩, List.append_nil]
        · rw [List.head?_append_of_ne_nil _ hnil]
  have hEv : Events M D v ∧ v.sis = u.sis := by
    rcases hmiddle with ⟨-, hres⟩ | ⟨-, rfl⟩
    · obtain ⟨-, rfl⟩ := reschedule_spec hres
      refine ⟨?_, rfl⟩
      set y : SchInst := { u.inst p with
        dline := if last then delayLast (u.refill p) (u.inst p).dline else (u.inst p).dline
        active := true } with hy
      have hself : (u.setInst p y).inst p = y := u.setInst_inst p y
      have hEy : Events M (insert (.si p) D) (u.setInst p y) := by
        refine hEu.write (p := p) rfl rfl rfl (fun p' hne => u.setInst_inst_of_ne y hne)
          (.inl (.inl rfl)) ?_ id
        by_cases hempty : (s.inst p).dline = [] ∧ new ≠ []
        · exact .inl (.inr (hmem.2 hempty))
        · refine .inr ⟨by rw [hself], ?_⟩
          rw [hself, SchInst.due, SchInst.due, hy]
          dsimp only
          split_ifs with hlast
          · have hnew := hmoved hlast
            have hne : (s.inst p).dline ≠ [] := fun hnil => hempty ⟨hnil, hnew⟩
            rw [hdline, head?_delayLast hne hnew, List.head?_append_of_ne_nil _ hne]
          · rfl
      exact hEy.evInsert hsiD hpu (congrArg SchInst.active hself) fun p' hp' =>
        absurd hp' (by simp)
    · refine ⟨?_, rfl⟩
      have hE := hEu.write (t := u.setInst p { u.inst p with idleTime := now }) (p := p) rfl rfl rfl
        (fun p' hne => u.setInst_inst_of_ne _ hne) (.inl (.inl rfl))
        (.inr ⟨by rw [Dn.setInst_inst], by rw [Dn.setInst_inst]; rfl⟩) id
      refine hE.close ?_ fun p' hp' => absurd hp' (by simp)
      rw [Dn.flag, Dn.setInst_inst]
      exact hact
  obtain ⟨hEv, hsis⟩ := hEv
  split_ifs at hfinish with hempty
  · rw [hD, if_pos hempty] at hEv
    exact hEv.transmitEvent (Set.notMem_empty _) (hsis ▸ hpu) hfinish
  · obtain ⟨-, rfl⟩ := hfinish
    rw [hD, if_neg hempty] at hEv
    exact hEv

end Dummynet
