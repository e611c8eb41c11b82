import Dummynet.System.Lookup

/-!
# Objects are destroyed

The functions that destroy queues, instances, flowsets and schedulers, as paths through states
with a graph.

## Main results

* `qhtDelete_goes`, `siDestroyAll_goes`: all queues of a flowset, all instances of a scheduler.
* `fskDetach_goes`, `deleteFs_goes`, `schkDeleteCb_goes`, `deleteSchk_goes`, `dummynetFlush_goes`.
-/

namespace Dummynet

variable {F : Set FskPtr} {S : Set SchkPtr} {L : Option FskPtr} {s t u : Dn} {p : SiPtr}
  {fp : FskPtr} {sp : SchkPtr} {a : QAddr} {K : SiPtr → Prop}

/-- The changes when objects are destroyed. The queues of the instances in `K` may hold packets. -/
def dropMoves (K : SiPtr → Prop) : Set MoveKind
  | .quiet | .delete | .destroy => True
  | .purge p => K p
  | _ => False

/-- The changes of the configuration. -/
def confMoves (K : SiPtr → Prop) : Set MoveKind
  | .quiet | .delete | .destroy | .conf | .credit | .flush => True
  | .purge p => K p
  | _ => False

theorem dropMoves_subset : dropMoves K ⊆ confMoves K := by
  intro k hk
  cases k <;> first | exact hk | trivial

theorem quiet_mem_dropMoves : MoveKind.quiet ∈ dropMoves K := trivial

/-- The length that a queue has counted. -/
def Dn.lenOf (s : Dn) (a : QAddr) : BitVec 32 := ((s.inst a.si).s.queue a.q).ni.length

/-! ### Queues -/

/-- **`dn_delete_queue`**, with the removal of the queue from the table of its flowset. -/
theorem deleteQueue_goes {safe b : Bool} (hg : Graph F S L s) (ha : a ∈ (s.fsk fp).qht.list)
    (hidle : s.lenOf a = 0 ∨ safe = false ∧ K a.si) (h : deleteQueue s a safe = some (b, t)) :
    t.fsk = s.fsk ∧ (∀ a', a' ≠ a → t.lenOf a' = s.lenOf a') ∧
      if b then Goes (dropMoves K) F S L s t
      else Goes (dropMoves K) F S L s
        (t.setFsk fp { t.fsk fp with qht := (t.fsk fp).qht.remove a }) := by
  obtain ⟨hp, hq, hqfs⟩ := (hg.queues fp a).1 ha
  obtain ⟨fp', -, h⟩ := Option.bind_eq_some_iff.1 h
  obtain ⟨sp, -, h⟩ := Option.bind_eq_some_iff.1 h
  have hsound := hg.sound_load hp
  have hmulti : (s.inst a.si).kind.multiqueue = true := by
    by_contra hk
    have hlive := (hg.sound _ hp).single (by simpa using hk)
    rw [hlive] at hq
    exact absurd hq (Finset.notMem_empty _)
  have hpath : Path (dropMoves K) s t := by
    rcases hidle with hidle | ⟨rfl, hK⟩
    · exact .single (.delete hp hq hsound hidle h) trivial
    · exact .single (.purge hp hq hsound h) hK
  obtain ⟨r, hr, rfl⟩ := callback_spec h
  have hsound' := hsound.deleteQueue hmulti hq hr
  have hself : (s.store a.si (s.inst a.si) r).inst a.si = { s.inst a.si with s := r } :=
    Function.update_self ..
  have hother : ∀ p', p' ≠ a.si → (s.store a.si (s.inst a.si) r).inst p' = s.inst p' :=
    fun p' hne => Function.update_of_ne hne ..
  have hlen : (∀ q', q' ≠ a.q → (r.queue q').ni = ((s.inst a.si).s.queue q').ni) →
      ∀ a', a' ≠ a → (s.store a.si (s.inst a.si) r).lenOf a' = s.lenOf a' := by
    intro hni a' hne
    rcases eq_or_ne a'.si a.si with hsi | hsi
    · have hq' : a'.q ≠ a.q := fun he => hne (by cases a; cases a'; simp_all)
      rw [Dn.lenOf, hsi, hself, Dn.lenOf, hsi]
      exact congrArg DnFlow.length (hni a'.q hq')
    · rw [Dn.lenOf, hother a'.si hsi, Dn.lenOf]
  rcases dnDeleteQueue_shell hr with ⟨rfl, hshell⟩ | ⟨rfl, hsi, hlive, -, -, hqueue, -⟩
  · refine ⟨rfl, hlen fun q' _ => by rw [shell_queue hshell]; rfl, ?_⟩
    refine ⟨hg.callback hp h fun u hu _ => ?_, hpath⟩
    obtain rfl : u = r := by
      rw [hr] at hu
      exact ((Prod.mk.inj (Option.some.inj hu)).2).symm
    exact ⟨hsound', shell_si hshell, shell_live hshell, fun q => by rw [shell_queue hshell]⟩
  · refine ⟨rfl, hlen fun q' hne => by rw [hqueue, Function.update_of_ne hne]; rfl, ?_⟩
    refine ⟨?_, hpath.trans (path_setFsk quiet_mem_dropMoves)⟩
    refine hg.dropQueue (s := s) (x := { s.inst a.si with s := r }) le_rfl rfl rfl rfl rfl hself
      hother hp hqfs hq ⟨rfl, rfl, hsi, fun _ => hsound'⟩ hlive rfl (fun q' hq' => ?_)
      (fun a' => Objs.mem_remove) ((hg.queues_nodup fp).remove a)
    change q' ∈ r.live at hq'
    rw [hlive, Finset.mem_erase] at hq'
    change (r.queue q').fs.fs.par = _
    rw [hqueue, Function.update_of_ne hq'.1]
    exact hg.par _ hp q' hq'.2

/-- Without `DN_DEL_SAFE` the queue always goes. -/
theorem deleteQueue_unsafe {b : Bool} (h : deleteQueue s a false = some (b, t)) : b = false := by
  obtain ⟨fp', -, h⟩ := Option.bind_eq_some_iff.1 h
  obtain ⟨sp, -, h⟩ := Option.bind_eq_some_iff.1 h
  obtain ⟨r, hr, -⟩ := callback_spec h
  exact dnDeleteQueue_unsafe hr

/-- The lists of flowsets and the schedulers are as before. -/
structure SameLists (s t : Dn) : Prop where
  fsu : t.fsu = s.fsu
  schk : t.schk = s.schk
  fshash : t.fshash = s.fshash
  schedhash : t.schedhash = s.schedhash

theorem SameLists.refl (s : Dn) : SameLists s s := ⟨rfl, rfl, rfl, rfl⟩

theorem SameLists.trans (h : SameLists s t) (h' : SameLists t u) : SameLists s u :=
  ⟨h'.fsu.trans h.fsu, h'.schk.trans h.schk, h'.fshash.trans h.fshash,
    h'.schedhash.trans h.schedhash⟩

theorem deleteQueue_sameLists {safe b : Bool} (h : deleteQueue s a safe = some (b, t)) :
    SameLists s t := by
  obtain ⟨fp', -, h⟩ := Option.bind_eq_some_iff.1 h
  obtain ⟨sp, -, h⟩ := Option.bind_eq_some_iff.1 h
  obtain ⟨r, -, rfl⟩ := callback_spec h
  exact ⟨rfl, rfl, rfl, rfl⟩

/-- `q_delete_cb` on queues of the flowset. -/
theorem qDeleteAll_goes {l : List QAddr} (hg : Graph F S L s)
    (hl : ∀ a ∈ l, a ∈ (s.fsk fp).qht.list) (hnodup : l.Nodup)
    (hidle : ∀ a ∈ l, s.lenOf a = 0 ∨ K a.si) (h : qDeleteAll s fp l = some t) :
    Goes (dropMoves K) F S L s t ∧ SameLists s t ∧ (∀ fp', fp' ≠ fp → t.fsk fp' = s.fsk fp') ∧
      ∃ qht, t.fsk fp = { s.fsk fp with qht := qht } ∧
        ∀ a, a ∈ qht.list ↔ a ∈ (s.fsk fp).qht.list ∧ a ∉ l := by
  induction l generalizing s with
  | nil =>
    obtain rfl := Option.some.inj h
    exact ⟨.refl hg, .refl s, fun _ _ => rfl, (s.fsk fp).qht, rfl, fun a => by simp⟩
  | cons a as ih =>
    obtain ⟨⟨b, u⟩, hdel, h⟩ := Option.bind_eq_some_iff.1 h
    obtain rfl := deleteQueue_unsafe hdel
    obtain ⟨hfsk, hlen, hgo⟩ := deleteQueue_goes hg (hl a List.mem_cons_self)
      ((hidle a List.mem_cons_self).imp_right (⟨rfl, ·⟩)) hdel
    simp only [Bool.false_eq_true, if_false] at hgo
    have hself : (u.setFsk fp { u.fsk fp with qht := (u.fsk fp).qht.remove a }).fsk fp =
        { s.fsk fp with qht := (s.fsk fp).qht.remove a } := by
      rw [Dn.setFsk, hfsk]
      exact Function.update_self ..
    have hne : ∀ a' ∈ as, a' ≠ a := fun a' ha' he => (List.nodup_cons.1 hnodup).1 (he ▸ ha')
    obtain ⟨hgo', hsame, hother, qht, hqht, hmem⟩ := ih hgo.graph (fun a' ha' => by
      rw [hself]
      exact Objs.mem_remove.2 ⟨hl a' (List.mem_cons_of_mem a ha'), hne a' ha'⟩)
      (List.nodup_cons.1 hnodup).2 (fun a' ha' => by
        have := hidle a' (List.mem_cons_of_mem a ha')
        rwa [← hlen a' (hne a' ha')] at this) h
    rw [hself] at hqht hmem
    refine ⟨hgo.trans hgo', ?_, fun fp' hfp' => ?_, qht, hqht, fun a' => ?_⟩
    · exact (deleteQueue_sameLists hdel).trans
        ⟨hsame.fsu, hsame.schk, hsame.fshash, hsame.schedhash⟩
    · rw [hother fp' hfp', ← hfsk]
      exact Function.update_of_ne hfp' ..
    · rw [hmem, Objs.mem_remove, List.mem_cons, not_or, and_assoc]

/-- **`qht_delete`**: all queues of the flowset go. -/
theorem qhtDelete_goes (hg : Graph F S L s) (hfp : fp ∈ F)
    (hidle : ∀ a ∈ (s.fsk fp).qht.list, s.lenOf a = 0 ∨ K a.si) (h : qhtDelete s fp = some t) :
    Goes (dropMoves K) F S L s t ∧ SameLists s t ∧
      t.fsk = Function.update s.fsk fp { s.fsk fp with qht := .null } := by
  have hdel : ∀ l : List QAddr, (∀ a, a ∈ l ↔ a ∈ (s.fsk fp).qht.list) → l.Nodup →
      ((qDeleteAll s fp l).bind fun u => some (u.setFsk fp { u.fsk fp with qht := .null })) =
        some t →
      Goes (dropMoves K) F S L s t ∧ SameLists s t ∧
        t.fsk = Function.update s.fsk fp { s.fsk fp with qht := .null } := by
    intro l hl hnodup hall
    obtain ⟨u, hq, he⟩ := Option.bind_eq_some_iff.1 hall
    obtain rfl := Option.some.inj he
    obtain ⟨hgo, hsame, hother, qht, hqht, hmem⟩ :=
      qDeleteAll_goes hg (fun a ha => (hl a).1 ha) hnodup (fun a ha => hidle a ((hl a).1 ha)) hq
    have hnil : qht.list = [] := by
      refine List.eq_nil_iff_forall_not_mem.2 fun a ha => ?_
      obtain ⟨hold, hnot⟩ := (hmem a).1 ha
      exact hnot ((hl a).2 hold)
    refine ⟨⟨hgo.graph.setFsk hfp ⟨rfl, ?_, fun _ => trivial, rfl⟩,
      hgo.path.trans (path_setFsk quiet_mem_dropMoves)⟩, ⟨hsame.fsu, hsame.schk, hsame.fshash,
      hsame.schedhash⟩, funext fun fp' => ?_⟩
    · rw [hqht, hnil]
      rfl
    · rcases eq_or_ne fp' fp with rfl | hne
      · simp [Dn.setFsk, hqht]
      · simp [Dn.setFsk, hne, hother fp' hne]
  have hnodup := (hg.queues_nodup fp).list
  unfold qhtDelete at h
  dsimp only at h
  rcases hq : (s.fsk fp).qht with _ | a | ht
  · simp only [hq] at h
    exact hdel [] (fun a => by simp [hq]) List.nodup_nil h
  · simp only [hq] at h
    split_ifs at h
    · exact hdel [a] (fun a' => by simp [hq, Objs.list]) (List.nodup_singleton a) h
    · simp at h
  · simp only [hq] at h
    rw [hq] at hnodup
    split_ifs at h
    · exact hdel ht.ordered (fun a' => by simp [hq, Objs.list]) hnodup h
    · simp at h

/-! ### Flowsets -/

/-- What `fsk_detach` leaves of a flowset. -/
structure Fsk.Detached (f g : Fsk) : Prop where
  head : g.head = f.head
  fs : g.data.fs = f.data.fs
  sched : g.sched = none
  qht : g.qht = .null

/-- The part of `fsk_detach` before the flowset goes to a list or away. -/
theorem fskDetach_queues {b : Bool} (hg : Graph F S L s) (hfp : fp ∈ F)
    (hidle : ∀ a ∈ (s.fsk fp).qht.list, s.lenOf a = 0 ∨ K a.si) (h : fskDetach s fp b = some t) :
    ∃ u f, Goes (dropMoves K) F S L s u ∧ SameLists s u ∧ (u.fsk fp).qht = .null ∧
      (s.fsk fp).Detached f ∧ (u.setFsk fp f).fsk = Function.update s.fsk fp f ∧
      t = if b then { (u.setFsk fp f).setFsk fp {} with fskCount := u.fskCount - 1 }
        else { u.setFsk fp f with fsu := fp :: u.fsu } := by
  unfold fskDetach at h
  dsimp only at h
  obtain ⟨u, hu, hend⟩ := Option.bind_eq_some_iff.1 h
  set f₀ : Fsk := { s.fsk fp with data := { (s.fsk fp).data with wQLookup := fun _ => 0 } } with hf₀
  have hg₀ : Graph F S L (s.setFsk fp f₀) := hg.setFsk hfp ⟨rfl, rfl, id, rfl⟩
  have hself : (s.setFsk fp f₀).fsk fp = f₀ := Function.update_self ..
  obtain ⟨hgo, hsame, hfsk⟩ := qhtDelete_goes hg₀ hfp (fun a ha => by
    rw [hself] at ha
    exact hidle a ha) hu
  rw [hself] at hfsk
  have hfsk' : u.fsk = Function.update s.fsk fp { f₀ with qht := .null } := by
    rw [hfsk]
    exact Function.update_idem ..
  refine ⟨u, { u.fsk fp with sched := none }, ⟨hgo.graph, (path_setFsk quiet_mem_dropMoves).trans hgo.path⟩,
    ⟨hsame.fsu, hsame.schk, hsame.fshash, hsame.schedhash⟩, ?_, ?_, ?_, ?_⟩
  · rw [hfsk', Function.update_self]
  · rw [hfsk', Function.update_self]
    exact ⟨rfl, rfl, rfl, rfl⟩
  · rw [Dn.setFsk, hfsk']
    exact Function.update_idem ..
  · cases b with
    | true => exact (Option.some.inj hend).symm
    | false => exact (Option.some.inj hend).symm

/-- **`fsk_detach`** without `DN_DELETE_FS`: the flowset goes to `fsu`. -/
theorem fskDetach_goes (hg : Graph F S (some fp) s) (hfp : fp ∈ F)
    (hidle : ∀ a ∈ (s.fsk fp).qht.list, s.lenOf a = 0 ∨ K a.si)
    (h : fskDetach s fp false = some t) :
    Goes (dropMoves K) F S none s t ∧ t.schk = s.schk ∧ t.fsu = fp :: s.fsu ∧
      t.fshash = s.fshash ∧ t.schedhash = s.schedhash ∧
      ∃ f, (s.fsk fp).Detached f ∧ t.fsk = Function.update s.fsk fp f := by
  obtain ⟨u, f, hgo, hsame, hqht, hf, hfsk, rfl⟩ := fskDetach_queues hg hfp hidle h
  refine ⟨⟨?_, hgo.path.trans ?_⟩, hsame.schk, by rw [← hsame.fsu]; rfl, hsame.fshash,
    hsame.schedhash, f, hf, hfsk⟩
  · exact hgo.graph.relist hfp (by rw [hqht]; rfl) (by rw [hf.qht]; rfl) (by rw [hf.qht]; trivial)
      hf.sched
  · exact .single (.quiet ⟨⟨rfl, rfl, rfl, rfl, rfl, id⟩, rfl, rfl, rfl⟩ fun _ => rfl) trivial

/-- **`fsk_detach`** with `DN_DELETE_FS`. -/
theorem fskDetach_delete (hg : Graph F S (some fp) s) (hfp : fp ∈ F)
    (hidle : ∀ a ∈ (s.fsk fp).qht.list, s.lenOf a = 0 ∨ K a.si)
    (h : fskDetach s fp true = some t) :
    Goes (dropMoves K) (F \ {fp}) S none s t ∧ SameLists s t ∧
      t.fsk = Function.update s.fsk fp {} := by
  obtain ⟨u, f, hgo, hsame, hqht, -, hfsk, rfl⟩ := fskDetach_queues hg hfp hidle h
  refine ⟨⟨?_, hgo.path.trans ?_⟩, ⟨hsame.fsu, hsame.schk, hsame.fshash, hsame.schedhash⟩, ?_⟩
  · have hfree := hgo.graph.freeFsk (by rw [hqht]; rfl)
    rw [← u.setFsk_setFsk fp f {}] at hfree
    exact hfree.of_eq rfl rfl rfl rfl rfl le_rfl
  · exact .single (.quiet ⟨⟨rfl, rfl, rfl, rfl, rfl, id⟩, rfl, rfl, rfl⟩ fun _ => rfl) trivial
  · change Function.update (u.setFsk fp f).fsk fp {} = _
    rw [hfsk]
    exact Function.update_idem ..

/-- The flowset after all flowsets in `l` were detached. -/
structure DetachedIn (l : List FskPtr) (s t : Dn) : Prop where
  head : ∀ fp, (t.fsk fp).head = (s.fsk fp).head
  fs : ∀ fp, (t.fsk fp).data.fs = (s.fsk fp).data.fs
  sched : ∀ fp, (t.fsk fp).sched = if fp ∈ l then none else (s.fsk fp).sched
  fshash : t.fshash = s.fshash
  schedhash : t.schedhash = s.schedhash

/-- **`fsk_detach_list`** on the flowsets of a scheduler, whose instances are in `K`. -/
theorem fskDetachList_goes {l : List FskPtr} (hg : Graph F S none s)
    (hl : (s.schk sp).fskList = l) (hK : ∀ p ∈ (s.schk sp).siht.list, K p)
    (h : fskDetachList s sp l = some t) :
    Goes (dropMoves K) F S none s t ∧ DetachedIn l s t ∧
      t.schk = Function.update s.schk sp { s.schk sp with fskList := [] } := by
  induction l generalizing s with
  | nil =>
    obtain rfl := Option.some.inj h
    refine ⟨.refl hg, ⟨fun _ => rfl, fun _ => rfl, fun _ => by simp, rfl, rfl⟩, ?_⟩
    rw [← hl, Function.update_eq_self]
  | cons fp fps ih =>
    obtain ⟨u, hu, h⟩ := Option.bind_eq_some_iff.1 h
    have hmem : fp ∈ s.fskList (some sp) := by
      rw [Dn.fskList, hl]
      exact List.mem_cons_self
    have hnodup := hg.list_nodup (some sp)
    rw [Dn.fskList, hl, List.nodup_cons] at hnodup
    have hg₁ := hg.unlist (l := fps) hmem (fun fp' => by
      rw [Dn.fskList, hl, List.mem_cons]
      refine ⟨fun hm => ⟨.inr hm, fun he => hnodup.1 (he ▸ hm)⟩, fun hm => hm.1.resolve_left hm.2⟩)
      hnodup.2
    obtain ⟨hfp, -, hsched⟩ := (hg.listed _ _).1 hmem
    obtain ⟨hgo, hschk, -, hfs, hsh, f, hf, hfsk⟩ := fskDetach_goes hg₁ hfp (fun a ha => by
      obtain ⟨hp, hq, hqfs⟩ := (hg.queues fp a).1 ha
      obtain ⟨fp', hfp', hs⟩ := hg.attached _ hp _ hq
      obtain rfl := Option.some.inj (hqfs.symm.trans hfp')
      refine .inr (hK a.si ((hg.insts sp a.si).2 ⟨hp, ?_⟩))
      exact Option.some.inj (hs.symm.trans hsched)) hu
    have hself : u.schk sp = { s.schk sp with fskList := fps } := by
      rw [hschk]
      exact Function.update_self ..
    obtain ⟨hgo', hdet, hschk'⟩ := ih hgo.graph (by rw [hself]) (by rw [hself]; exact hK) h
    have hpath : Path (dropMoves K) s (s.setFskList fps (some sp)) :=
      path_setSchk quiet_mem_dropMoves rfl
    have hfsk' : u.fsk = Function.update s.fsk fp f := hfsk
    have hhead : (s.setFskList fps (some sp)).fsk fp = s.fsk fp := rfl
    rw [hhead] at hf
    refine ⟨⟨hgo'.graph, hpath.trans (hgo.path.trans hgo'.path)⟩,
      ⟨fun fp' => ?_, fun fp' => ?_, fun fp' => ?_, hdet.fshash.trans hfs,
        hdet.schedhash.trans hsh⟩, ?_⟩
    · rw [hdet.head, hfsk']
      rcases eq_or_ne fp' fp with rfl | hne
      · rw [Function.update_self, hf.head]
      · rw [Function.update_of_ne hne]
    · rw [hdet.fs, hfsk']
      rcases eq_or_ne fp' fp with rfl | hne
      · rw [Function.update_self, hf.fs]
      · rw [Function.update_of_ne hne]
    · rw [hdet.sched, hfsk']
      rcases eq_or_ne fp' fp with rfl | hne
      · simp [hf.sched]
      · simp [hne]
    · rw [hschk', hself, hschk]
      exact Function.update_idem ..

/-! ### Instances -/

theorem evExtract_spec {o : Option EvObj} (h : s.evExtract o = some t) :
    ∃ ev pos, t = { s with evheap := ev, oidId := pos } := by
  obtain ⟨r, -, rfl⟩ := Option.map_eq_some_iff.1 h
  exact ⟨_, _, rfl⟩

theorem evExtractIf_spec {flag : Bool} {o : EvObj} (h : s.evExtractIf flag o = some t) :
    ∃ ev pos, t = { s with evheap := ev, oidId := pos } := by
  unfold Dn.evExtractIf at h
  split_ifs at h
  · exact evExtract_spec h
  · obtain rfl := Option.some.inj h
    exact ⟨s.evheap, s.oidId, rfl⟩

/-- What `si_destroy` does, whatever is in the event heap. -/
theorem siDestroy_spec (h : siDestroy s p = some t) : ∃ ev pos,
    t = { (s.inst p).uncount (s.setInst p (s.inst p).freed) with
      evheap := ev, oidId := pos, sis := s.sis.erase p, siCount := s.siCount - 1 } := by
  obtain ⟨u, hu, h⟩ := Option.bind_eq_some_iff.1 h
  obtain ⟨v, hv, h⟩ := Option.bind_eq_some_iff.1 h
  obtain rfl := Option.some.inj h
  obtain ⟨ev, pos, rfl⟩ := evExtractIf_spec hu
  obtain ⟨ev', pos', rfl⟩ := evExtractIf_spec hv
  exact ⟨ev', pos', rfl⟩

/-- The other instances stay as they are. -/
theorem siDestroy_other (h : siDestroy s p = some t) :
    t.sis = s.sis.erase p ∧ ∀ p', p' ≠ p → t.inst p' = s.inst p' := by
  obtain ⟨ev, pos, rfl⟩ := siDestroy_spec h
  exact ⟨rfl, fun p' hne => Function.update_of_ne hne ..⟩

/-- **`si_destroy`** of an instance without queues, with its removal from the table of its
scheduler. -/
theorem siDestroy_goes (hg : Graph F S L s) (hp : p ∈ s.sis) (hlive : (s.inst p).s.live = ∅)
    (hsched : (s.inst p).sched = sp) (h : siDestroy s p = some t) :
    Goes (dropMoves K) F S L s
        (t.setSchk sp { t.schk sp with siht := (t.schk sp).siht.remove p }) ∧
      SameLists s t ∧ t.fsk = s.fsk ∧ t.sis = s.sis.erase p ∧
      ∀ p', p' ≠ p → t.inst p' = s.inst p' := by
  have hmove := Move.destroy hp hlive (hg.sound p hp) h
  obtain ⟨ev, pos, rfl⟩ := siDestroy_spec h
  refine ⟨⟨?_, (Path.single (A := dropMoves K) hmove trivial).trans
    (path_setSchk quiet_mem_dropMoves rfl)⟩,
    ⟨rfl, rfl, rfl, rfl⟩, rfl, rfl, fun p' hne => Function.update_of_ne hne ..⟩
  exact hg.dropInst (s := s) hp hsched hlive (fun p' => Objs.mem_remove)
    ((hg.insts_nodup sp).remove p) rfl rfl le_rfl rfl
    (fun p' hne => Function.update_of_ne hne ..) rfl

/-- **All instances** of a scheduler without flowsets go. -/
theorem siDestroyAll_goes {l : List SiPtr} (hg : Graph F S L s) (hL : (s.schk sp).fskList = [])
    (hfsk : ∀ fp ∈ F, L = some fp → (s.fsk fp).sched ≠ some sp)
    (hl : ∀ p ∈ l, p ∈ (s.schk sp).siht.list) (hnodup : l.Nodup)
    (h : siDestroyAll s sp l = some t) :
    Goes (dropMoves K) F S L s t ∧ t.fsk = s.fsk ∧ t.fsu = s.fsu ∧ t.fshash = s.fshash ∧
      t.schedhash = s.schedhash ∧ ∃ siht : Objs SiPtr,
        t.schk = Function.update s.schk sp { s.schk sp with siht := siht } ∧
        ∀ p, p ∈ siht.list ↔ p ∈ (s.schk sp).siht.list ∧ p ∉ l := by
  induction l generalizing s with
  | nil =>
    obtain rfl := Option.some.inj h
    refine ⟨.refl hg, rfl, rfl, rfl, rfl, (s.schk sp).siht, ?_, fun p => by simp⟩
    rw [Function.update_eq_self]
  | cons p ps ih =>
    obtain ⟨u, hu, h⟩ := Option.bind_eq_some_iff.1 h
    obtain ⟨hp, hsched⟩ := (hg.insts sp p).1 (hl p List.mem_cons_self)
    have hlive : (s.inst p).s.live = ∅ := by
      refine Finset.eq_empty_of_forall_notMem fun q hq => ?_
      obtain ⟨fp, -, hfs⟩ := hg.attached p hp q hq
      rw [hsched] at hfs
      have hfp : fp ∈ F := by
        by_contra hfp
        rw [hg.fsk_zero fp hfp] at hfs
        exact absurd hfs (by simp)
      have hmem : fp ∈ s.fskList (some sp) :=
        (hg.listed _ _).2 ⟨hfp, fun hL => hfsk fp hfp hL hfs, hfs⟩
      rw [Dn.fskList, hL] at hmem
      exact absurd hmem List.not_mem_nil
    obtain ⟨hgo, hsame, hfskt, hsis, hother⟩ := siDestroy_goes (K := K) hg hp hlive hsched hu
    have hself : (u.setSchk sp { u.schk sp with siht := (u.schk sp).siht.remove p }).schk sp =
        { s.schk sp with siht := (s.schk sp).siht.remove p } := by
      rw [Dn.setSchk, hsame.schk]
      exact Function.update_self ..
    have hne : ∀ p' ∈ ps, p' ≠ p := fun p' hp' he => (List.nodup_cons.1 hnodup).1 (he ▸ hp')
    obtain ⟨hgo', hfsk', hfsu', hfs', hsh', siht, hschk', hmem⟩ := ih hgo.graph (by rw [hself]; exact hL)
      (fun fp hfp hLfp => by
        change (u.fsk fp).sched ≠ some sp
        rw [hfskt]
        exact hfsk fp hfp hLfp) (fun p' hp' => by
        rw [hself]
        exact Objs.mem_remove.2 ⟨hl p' (List.mem_cons_of_mem p hp'), hne p' hp'⟩)
      (List.nodup_cons.1 hnodup).2 h
    refine ⟨hgo.trans hgo', hfsk'.trans hfskt, hfsu'.trans hsame.fsu, hfs'.trans hsame.fshash,
      hsh'.trans hsame.schedhash, siht, ?_, fun p' => ?_⟩
    · rw [hschk', hself]
      change Function.update (Function.update u.schk sp _) sp _ = _
      rw [Function.update_idem, hsame.schk]
    · rw [hmem, hself, Objs.mem_remove, List.mem_cons, not_or, and_assoc]

/-! ### Schedulers -/

/-- Where nothing is made, no instance is new, and the instances stay with their schedulers. -/
theorem Path.sis_subset (h : Path (dropMoves K) s t) :
    t.sis ⊆ s.sis ∧ ∀ p ∈ t.sis, (t.inst p).sched = (s.inst p).sched := by
  have hstore : ∀ {v : Dn} {p p' : SiPtr} {r}, ((v.store p (v.inst p) r).inst p').sched =
      (v.inst p').sched := by
    intro v p p' r
    rcases eq_or_ne p' p with rfl | hne
    · rw [v.store_inst]
    · exact congrArg SchInst.sched (Function.update_of_ne hne ..)
  refine h.invariant (I := fun t => t.sis ⊆ s.sis ∧ ∀ p ∈ t.sis, (t.inst p).sched =
    (s.inst p).sched) (fun {k u v} hk hm hu => ?_) ⟨subset_rfl, fun _ _ => rfl⟩
  cases hm with
  | quiet hq => rwa [hq.sis, hq.inst]
  | delete _ _ _ _ hcall =>
    obtain ⟨r, -, rfl⟩ := callback_spec hcall
    exact ⟨hu.1, fun p hp => hstore.trans (hu.2 p hp)⟩
  | purge _ _ _ hcall =>
    obtain ⟨r, -, rfl⟩ := callback_spec hcall
    exact ⟨hu.1, fun p hp => hstore.trans (hu.2 p hp)⟩
  | destroy _ _ _ hd =>
    obtain ⟨ev, pos, rfl⟩ := siDestroy_spec hd
    refine ⟨(Finset.erase_subset _ _).trans hu.1, fun p' hp' => ?_⟩
    obtain ⟨hne, hmem⟩ := Finset.mem_erase.1 hp'
    exact (congrArg SchInst.sched (Function.update_of_ne hne ..)).trans (hu.2 p' hmem)
  | _ => exact absurd hk id

/-- **`schk_delete_cb`**: with a scheduler go its instances, and its flowsets go to `fsu`. -/
theorem schkDeleteCb_goes (hg : Graph F S none s) (hK : ∀ p ∈ (s.schk sp).siht.list, K p)
    (h : schkDeleteCb s sp = some t) :
    Goes (confMoves K) F (S \ {sp}) none s t ∧ DetachedIn (s.schk sp).fskList s t ∧
      t.schk = Function.update s.schk sp {} ∧ (s.schk sp).fp ≠ none ∧
      ∀ p ∈ t.sis, p ∉ (s.schk sp).siht.list := by
  obtain ⟨u, hu, h⟩ := Option.bind_eq_some_iff.1 h
  obtain ⟨v, hv, h⟩ := Option.bind_eq_some_iff.1 h
  obtain ⟨kind, hkind, h⟩ := Option.bind_eq_some_iff.1 h
  obtain rfl := Option.some.inj h
  obtain ⟨hgo, hdet, hschk⟩ := fskDetachList_goes hg rfl hK hu
  have hself : u.schk sp = { s.schk sp with fskList := [] } := by
    rw [hschk]
    exact Function.update_self ..
  have hnodup := (hgo.graph.insts_nodup sp).list
  obtain ⟨hgo', hfsk, hfsu, hfs, hsh, siht, hschk', hmem⟩ := siDestroyAll_goes (K := K) hgo.graph
    (by rw [hself]) (fun _ _ h => absurd h (by simp)) (fun _ hp => hp) hnodup hv
  have hself' : v.schk sp = { s.schk sp with fskList := [], siht := siht } := by
    rw [hschk', hself]
    exact Function.update_self ..
  have hsiht : siht.list = [] := by
    refine List.eq_nil_iff_forall_not_mem.2 fun p hp => ?_
    obtain ⟨hold, hnot⟩ := (hmem p).1 hp
    exact hnot hold
  have hlist : (v.schk sp).fskList = [] := by rw [hself']
  have hgraph := hgo'.graph.freeSchk hlist (by rw [hself', hsiht])
  have hpath := hgo.path.trans hgo'.path
  have hconf : Path (confMoves K) v { v.setSchk sp {} with schkCount := v.schkCount - 1 } :=
    .single (.conf ⟨⟨rfl, rfl, rfl, rfl, rfl, id⟩, rfl, rfl, rfl⟩) trivial
  refine ⟨⟨hgraph.of_eq rfl rfl rfl rfl rfl le_rfl, (hpath.mono dropMoves_subset).trans hconf⟩,
    ⟨fun fp => ?_, fun fp => ?_, fun fp => ?_, hfs.trans hdet.fshash, hsh.trans hdet.schedhash⟩,
    ?_, ?_, fun p hp hin => ?_⟩
  · rw [← hdet.head, ← hfsk]
    rfl
  · rw [← hdet.fs, ← hfsk]
    rfl
  · rw [← hdet.sched, ← hfsk]
    rfl
  · change Function.update v.schk sp {} = _
    rw [hschk', hschk, Function.update_idem, Function.update_idem]
  · rw [hself'] at hkind
    exact Option.ne_none_iff_exists'.2 ⟨kind, hkind⟩
  · obtain ⟨hsub, hsched⟩ := hpath.sis_subset
    have hmine := ((hg.insts sp p).1 hin).2
    have hthere := (hgo'.graph.insts sp p).2 ⟨hp, (hsched p hp).trans hmine⟩
    rw [hself', hsiht] at hthere
    exact absurd hthere List.not_mem_nil

/-! ### Flowsets by their number -/

/-- The references from schedulers are as before, but for the lists of flowsets. -/
structure SameScheds (s t : Dn) : Prop where
  sch : ∀ sp, (t.schk sp).sch = (s.schk sp).sch
  fp : ∀ sp, (t.schk sp).fp = (s.schk sp).fp
  link : ∀ sp, (t.schk sp).link = (s.schk sp).link
  fs : ∀ sp, (t.schk sp).fs = (s.schk sp).fs
  siht : ∀ sp, (t.schk sp).siht = (s.schk sp).siht
  schedhash : t.schedhash = s.schedhash

theorem SameScheds.refl (s : Dn) : SameScheds s s :=
  ⟨fun _ => rfl, fun _ => rfl, fun _ => rfl, fun _ => rfl, fun _ => rfl, rfl⟩

theorem SameScheds.trans (h : SameScheds s t) (h' : SameScheds t u) : SameScheds s u :=
  ⟨fun sp => (h'.sch sp).trans (h.sch sp), fun sp => (h'.fp sp).trans (h.fp sp),
    fun sp => (h'.link sp).trans (h.link sp), fun sp => (h'.fs sp).trans (h.fs sp),
    fun sp => (h'.siht sp).trans (h.siht sp), h'.schedhash.trans h.schedhash⟩

/-- Schedulers that are the same. -/
theorem SameScheds.of_eq (hschk : t.schk = s.schk) (hsh : t.schedhash = s.schedhash) :
    SameScheds s t := by
  refine ⟨?_, ?_, ?_, ?_, ?_, hsh⟩ <;> exact fun sp => by rw [hschk]

/-- The removal of a flowset from its list. -/
theorem fskUnlist_goes (hg : Graph F S none s) (h : fskUnlist s fp = some t) :
    Goes (dropMoves K) F S (some fp) s t ∧ fp ∈ F ∧ t.fsk = s.fsk ∧ SameScheds s t ∧
      t.inst = s.inst ∧ t.fshash = s.fshash := by
  unfold fskUnlist at h
  simp only at h
  split_ifs at h with hmem
  obtain rfl := Option.some.inj h
  have hgraph := hg.unlist hmem (fun fp' => (hg.list_nodup _).mem_erase_iff.trans and_comm)
    ((hg.list_nodup _).erase fp)
  have hfp := ((hg.listed _ _).1 hmem).1
  rcases hsched : (s.fsk fp).sched with _ | sp
  · rw [hsched] at hgraph
    exact ⟨⟨hgraph, .single (.quiet ⟨⟨rfl, rfl, rfl, rfl, rfl, id⟩, rfl, rfl, rfl⟩ fun _ => rfl)
      quiet_mem_dropMoves⟩, hfp, rfl, .of_eq rfl rfl, rfl, rfl⟩
  · rw [hsched] at hgraph
    refine ⟨⟨hgraph, path_setSchk quiet_mem_dropMoves rfl⟩, hfp, rfl, ?_, rfl, rfl⟩
    refine ⟨fun sp' => ?_, fun sp' => ?_, fun sp' => ?_, fun sp' => ?_, fun sp' => ?_, rfl⟩ <;>
    · rcases eq_or_ne sp' sp with rfl | hne
      · simp [Dn.setFskList, Dn.setSchk]
      · simp [Dn.setFskList, Dn.setSchk, hne]

/-- The table of a hash may change. -/
theorem goes_setFshash (ht : Option (DnHt FskPtr)) (hg : Graph F S L s) :
    Goes (dropMoves K) F S L s { s with fshash := ht } :=
  ⟨hg.of_eq rfl rfl rfl rfl rfl le_rfl, .single (.quiet
    ⟨⟨rfl, rfl, rfl, rfl, rfl, id⟩, rfl, rfl, rfl⟩ fun _ => rfl) quiet_mem_dropMoves⟩

/-- The table of a hash may change. -/
theorem goes_setSchedhash (ht : Option (DnHt SchkPtr)) (hg : Graph F S L s) :
    Goes (dropMoves K) F S L s { s with schedhash := ht } :=
  ⟨hg.of_eq rfl rfl rfl rfl rfl le_rfl, .single (.quiet
    ⟨⟨rfl, rfl, rfl, rfl, rfl, id⟩, rfl, rfl, rfl⟩ fun _ => rfl) quiet_mem_dropMoves⟩

/-- **`delete_fs`**. -/
theorem deleteFs_goes {i : BitVec 32} {err : ℕ} (hg : Graph F S none s)
    (hidle : ∀ fp, s.findFs i = some fp →
      ∀ a ∈ (s.fsk fp).qht.list, s.lenOf a = 0 ∨ K a.si)
    (h : deleteFs s i = some (err, t)) :
    ∃ F' ⊆ F, Goes (dropMoves K) F' S none s t ∧ SameScheds s t ∧
      t.fshash = dnHtDrop s.fshash (s.findFs i) ∧
      (s.findFs i = none ∧ t.fsk = s.fsk ∨
        ∃ fp ∈ F, s.findFs i = some fp ∧ t.fsk = Function.update s.fsk fp {}) := by
  unfold deleteFs at h
  dsimp only at h
  rcases hfind : s.findFs i with _ | fp
  · simp only [hfind] at h
    obtain ⟨rfl, rfl⟩ := Prod.mk.inj (Option.some.inj h)
    exact ⟨F, subset_rfl, goes_setFshash _ hg, .of_eq rfl rfl, rfl, .inl ⟨rfl, rfl⟩⟩
  · simp only [hfind] at h
    obtain ⟨u, hu, h⟩ := Option.bind_eq_some_iff.1 h
    obtain ⟨v, hv, h⟩ := Option.bind_eq_some_iff.1 h
    obtain ⟨-, rfl⟩ := Prod.mk.inj (Option.some.inj h)
    have hgo := goes_setFshash (K := K) (dnHtDrop s.fshash (some fp)) hg
    obtain ⟨hgo₁, hfp, hfsk, hsame, hinst, hfs⟩ := fskUnlist_goes (K := K) hgo.graph hu
    obtain ⟨hgo₂, hsame₂, hfsk₂⟩ := fskDetach_delete hgo₁.graph hfp (fun a ha => by
      rw [hfsk] at ha
      rw [Dn.lenOf, hinst]
      exact hidle fp hfind a ha) hv
    refine ⟨F \ {fp}, Set.sdiff_subset, ⟨hgo₂.graph, hgo.path.trans (hgo₁.path.trans hgo₂.path)⟩,
      ?_, ?_, .inr ⟨fp, hfp, rfl, ?_⟩⟩
    · have hs : SameScheds s u := ⟨hsame.sch, hsame.fp, hsame.link, hsame.fs, hsame.siht,
        hsame.schedhash⟩
      exact hs.trans (.of_eq hsame₂.schk hsame₂.schedhash)
    · rw [hsame₂.fshash, hfs]
    · rw [hfsk₂, hfsk]

/-! ### Flowsets without packets -/

/-- A flowset of which no queue holds packets. -/
def Dn.Idle (s : Dn) (fp : FskPtr) : Prop := ∀ a ∈ (s.fsk fp).qht.list, s.lenOf a = 0

/-- The queues of an attached flowset belong to instances of its scheduler. -/
theorem Graph.mem_siht (hg : Graph F S L s) (ha : a ∈ (s.fsk fp).qht.list)
    (hsched : (s.fsk fp).sched = some sp) : a.si ∈ (s.schk sp).siht.list := by
  obtain ⟨hp, hq, hqfs⟩ := (hg.queues fp a).1 ha
  obtain ⟨fp', hfp', hs⟩ := hg.attached _ hp _ hq
  obtain rfl := Option.some.inj (hqfs.symm.trans hfp')
  exact (hg.insts sp a.si).2 ⟨hp, Option.some.inj (hs.symm.trans hsched)⟩

/-- What `dn_delete_queue` leaves is as before, and the queue may be gone. -/
theorem deleteQueue_keeps {q : QPtr} {safe b : Bool}
    (h : s.callback p (fun k t => dnDeleteQueue k.desc t q true safe) = some (b, t)) :
    t.sis = s.sis ∧ (∀ p', p' ≠ p → t.inst p' = s.inst p') ∧ (t.inst p).qfs = (s.inst p).qfs ∧
      (t.inst p).s.live ⊆ (s.inst p).s.live ∧ ∀ q' ∈ (t.inst p).s.live,
        ((t.inst p).s.queue q').ni = ((s.inst p).s.queue q').ni := by
  obtain ⟨r, hr, rfl⟩ := callback_spec h
  have hself : (s.store p (s.inst p) r).inst p = { s.inst p with s := r } := Function.update_self ..
  rw [hself]
  refine ⟨rfl, fun p' hne => Function.update_of_ne hne .., rfl, ?_⟩
  rcases dnDeleteQueue_shell hr with ⟨-, hshell⟩ | ⟨-, -, hlive, -, -, hqueue, -⟩
  · refine ⟨(shell_live hshell).subset, fun q' _ => ?_⟩
    rw [shell_queue hshell]
    rfl
  · refine ⟨fun q' hq' => ?_, fun q' hq' => ?_⟩
    · change q' ∈ r.live at hq'
      rw [hlive] at hq'
      exact Finset.mem_of_mem_erase hq'
    · change q' ∈ r.live at hq'
      rw [hlive] at hq'
      change (r.queue q').ni = _
      rw [hqueue, Function.update_of_ne (Finset.ne_of_mem_erase hq')]
      rfl

/-- A flowset without packets stays without packets when objects are configured. -/
theorem Path.idle (h : Path (confMoves K) s t) (hg : Graph F S L s) {F' : Set FskPtr}
    {S' : Set SchkPtr} {L' : Option FskPtr} (hg' : Graph F' S' L' t) (hs : s.Idle fp) :
    t.Idle fp := by
  suffices ht : ∀ p ∈ t.sis, ∀ q ∈ (t.inst p).s.live, (t.inst p).qfs q = some fp →
      ((t.inst p).s.queue q).ni.length = 0 by
    intro a ha
    obtain ⟨hp, hq, hqfs⟩ := (hg'.queues fp a).1 ha
    exact ht a.si hp a.q hq hqfs
  refine h.invariant (I := fun t => ∀ p ∈ t.sis, ∀ q ∈ (t.inst p).s.live,
    (t.inst p).qfs q = some fp → ((t.inst p).s.queue q).ni.length = 0)
    (fun {k u v} hk hm hu => ?_) fun p hp q hq hqfs => hs ⟨p, q⟩ ((hg.queues fp _).2 ⟨hp, hq, hqfs⟩)
  have hdel : ∀ {p₀ : SiPtr} {q₀ : QPtr} {safe b : Bool},
      u.callback p₀ (fun k t => dnDeleteQueue k.desc t q₀ true safe) = some (b, v) →
      ∀ p ∈ v.sis, ∀ q ∈ (v.inst p).s.live, (v.inst p).qfs q = some fp →
        ((v.inst p).s.queue q).ni.length = 0 := by
    intro p₀ q₀ safe b hcall p hp q hq hqfs
    obtain ⟨hsis, hother, hfs, hlive, hni⟩ := deleteQueue_keeps hcall
    rw [hsis] at hp
    rcases eq_or_ne p p₀ with rfl | hne
    · rw [hni q hq]
      rw [hfs] at hqfs
      exact hu p hp q (hlive hq) hqfs
    · rw [hother p hne] at hq hqfs ⊢
      exact hu p hp q hq hqfs
  cases hm with
  | quiet hq => rwa [hq.sis, hq.inst]
  | conf hq => rwa [hq.sis, hq.inst]
  | flush => exact hu
  | @credit _ p₀ c st it =>
    intro p hp q hq hqfs
    have hinst : ∀ y : SchInst, ((u.setInst p₀ y).inst p = y ∧ p = p₀) ∨
        (u.setInst p₀ y).inst p = u.inst p := fun y => by
      rcases eq_or_ne p p₀ with rfl | hne
      · exact .inl ⟨Function.update_self .., rfl⟩
      · exact .inr (Function.update_of_ne hne ..)
    rcases hinst { u.inst p₀ with credit := c, schedTime := st, idleTime := it } with
      ⟨heq, rfl⟩ | heq
    all_goals
      rw [heq] at hq hqfs ⊢
      exact hu _ hp q hq hqfs
  | destroy _ _ _ hd =>
    obtain ⟨hsis, hother⟩ := siDestroy_other hd
    intro p hp q hq hqfs
    rw [hsis] at hp
    obtain ⟨hne, hmem⟩ := Finset.mem_erase.1 hp
    rw [hother p hne] at hq hqfs ⊢
    exact hu p hmem q hq hqfs
  | delete _ _ _ _ hcall => exact hdel hcall
  | purge _ _ _ hcall => exact hdel hcall
  | _ => exact absurd hk id

/-! ### Stages -/

/-- Flowsets without packets stay so. A flowset with packets is attached to the scheduler to which
it was attached, and the numbers are the same. -/
structure Calm (s t : Dn) : Prop where
  idle : ∀ fp, s.Idle fp → t.Idle fp
  keep : ∀ fp sp, (t.fsk fp).sched = some sp → t.Idle fp ∨ (s.fsk fp).sched = some sp ∧
    (t.fsk fp).head.fsNr = (s.fsk fp).head.fsNr ∧
    (t.schk sp).sch.schedNr = (s.schk sp).sch.schedNr

theorem Calm.refl (s : Dn) : Calm s s := ⟨fun _ => id, fun _ _ h => .inr ⟨h, rfl, rfl⟩⟩

theorem Calm.trans (h : Calm s t) (h' : Calm t u) : Calm s u := by
  refine ⟨fun fp hs => h'.idle fp (h.idle fp hs), fun fp sp hsp => ?_⟩
  rcases h'.keep fp sp hsp with hidle | ⟨ht, hnr, hsch⟩
  · exact .inl hidle
  · rcases h.keep fp sp ht with hidle | ⟨hs, hnr', hsch'⟩
    · exact .inl (h'.idle fp hidle)
    · exact .inr ⟨hs, hnr.trans hnr', hsch.trans hsch'⟩

/-- A stage of the configuration. If `c` holds, the instances whose queues may have been deleted
with their packets are gone at its end. -/
def Stage (c : Prop) (s t : Dn) : Prop :=
  ∃ K, Path (confMoves K) s t ∧ (c → ∀ p ∈ t.sis, ¬ K p)

/-- Stages one after the other, to a state that has a graph. -/
structure Becomes (c : Prop) (F : Set FskPtr) (S : Set SchkPtr) (s t : Dn) : Prop where
  graph : Graph F S none t
  stages : Relation.ReflTransGen (Stage c) s t
  calm : Calm s t

variable {c : Prop}

theorem Becomes.refl (hg : Graph F S none s) : Becomes c F S s s := ⟨hg, .refl, .refl s⟩

theorem Becomes.trans {F' : Set FskPtr} {S' : Set SchkPtr} (h : Becomes c F S s t)
    (h' : Becomes c F' S' t u) : Becomes c F' S' s u :=
  ⟨h'.graph, h.stages.trans h'.stages, h.calm.trans h'.calm⟩

/-- A single stage, in which a flowset keeps its scheduler or has no queues at the end. -/
theorem Becomes.of_stage {F' : Set FskPtr} {S' : Set SchkPtr} (hg : Graph F S L s)
    (hgo : Goes (confMoves K) F' S' none s t) (hgone : c → ∀ p ∈ t.sis, ¬ K p)
    (hkeep : ∀ fp sp, (t.fsk fp).sched = some sp → (t.fsk fp).qht.list = [] ∨ s.Idle fp ∨
      (s.fsk fp).sched = some sp ∧ (t.fsk fp).head.fsNr = (s.fsk fp).head.fsNr ∧
      (t.schk sp).sch.schedNr = (s.schk sp).sch.schedNr) : Becomes c F' S' s t := by
  refine ⟨hgo.graph, .single ⟨K, hgo.path, hgone⟩, ⟨fun fp => hgo.path.idle hg hgo.graph,
    fun fp sp hsp => ?_⟩⟩
  rcases hkeep fp sp hsp with hnil | hidle | hsame
  · refine .inl fun a ha => ?_
    rw [hnil] at ha
    exact absurd ha List.not_mem_nil
  · exact .inl (hgo.path.idle hg hgo.graph hidle)
  · exact .inr hsame

/-- A path on which no queue with packets is deleted. -/
theorem Becomes.of_goes {F' : Set FskPtr} {S' : Set SchkPtr} (hg : Graph F S L s)
    (hgo : Goes (confMoves fun _ => False) F' S' none s t)
    (hkeep : ∀ fp sp, (t.fsk fp).sched = some sp → (t.fsk fp).qht.list = [] ∨ s.Idle fp ∨
      (s.fsk fp).sched = some sp ∧ (t.fsk fp).head.fsNr = (s.fsk fp).head.fsNr ∧
      (t.schk sp).sch.schedNr = (s.schk sp).sch.schedNr) : Becomes c F' S' s t :=
  .of_stage hg hgo (fun _ _ _ h => h) hkeep

/-- A change of the environment. -/
theorem Plain.becomes (h : Plain s t) (hg : Graph F S none s) : Becomes c F S s t :=
  .of_goes hg (h.goes hg trivial) fun fp sp hsp => .inr (.inr
    ⟨by rwa [h.fsk] at hsp, by rw [h.fsk], by rw [h.schk]⟩)

/-- A flowset without a scheduler has no packets. -/
theorem Graph.idle (hg : Graph F S L s) (hnone : (s.fsk fp).sched = none) : s.Idle fp := by
  intro a ha
  rw [hg.qht_nil hnone] at ha
  exact absurd ha List.not_mem_nil

/-- Objects are found by numbers that are not zero only if they exist. -/
theorem Graph.mem_of_findSched (hg : Graph F S L s) {i : BitVec 32}
    (h : s.findSched i = some sp) (hi : i ≠ 0) : sp ∈ S ∧ (s.schk sp).sch.schedNr = i := by
  obtain ⟨ht, -, hfind⟩ := Option.bind_eq_some_iff.1 h
  have hnr : (s.schk sp).sch.schedNr = i := by simpa using (DnHt.find_eq_some hfind).2
  refine ⟨?_, hnr⟩
  by_contra hsp
  rw [hg.schk_zero sp hsp] at hnr
  exact hi hnr.symm

/-- Objects are found by numbers that are not zero only if they exist. -/
theorem Graph.mem_of_findFs (hg : Graph F S L s) {i : BitVec 32}
    (h : s.findFs i = some fp) (hi : i ≠ 0) : fp ∈ F ∧ (s.fsk fp).head.fsNr = i := by
  obtain ⟨ht, -, hfind⟩ := Option.bind_eq_some_iff.1 h
  have hnr : (s.fsk fp).head.fsNr = i := by simpa using (DnHt.find_eq_some hfind).2
  refine ⟨?_, hnr⟩
  by_contra hfp
  rw [hg.fsk_zero fp hfp] at hnr
  exact hi hnr.symm

/-- The schedulers are in the hash table, in the bucket of their number, and the numbers are
different. -/
structure Numbered (S : Set SchkPtr) (s : Dn) : Prop where
  table : ∀ sp ∈ S, ∃ ht, s.schedhash = some ht ∧
    sp ∈ ht.chain (ht.bucket (nrHash (s.schk sp).sch.schedNr))
  unique : ∀ sp ∈ S, ∀ sp' ∈ S, (s.schk sp).sch.schedNr = (s.schk sp').sch.schedNr → sp = sp'
  pos : ∀ sp ∈ S, (s.schk sp).sch.schedNr ≠ 0

/-- A scheduler that is complete: it has an algorithm, and a flowset if it has one queue. -/
def Schk.Ready (x : Schk) : Prop :=
  ∃ kind, x.fp = some kind ∧ (kind.multiqueue = false → x.fs ≠ none)

/-- The schedulers are in the hash table under their numbers, and all are complete. -/
structure Hashed (S : Set SchkPtr) (s : Dn) : Prop extends Numbered S s where
  ready : ∀ sp ∈ S, (s.schk sp).Ready

theorem Schk.Ready.congr {x y : Schk} (h : x.Ready) (hfp : y.fp = x.fp) (hfs : y.fs = x.fs) :
    y.Ready := by
  rw [Schk.Ready, hfp, hfs]
  exact h

/-- Fewer schedulers, with the same numbers. -/
theorem Numbered.mono {S' : Set SchkPtr} (h : Numbered S s) (hsub : S' ⊆ S)
    (hnr : ∀ sp ∈ S', (t.schk sp).sch.schedNr = (s.schk sp).sch.schedNr)
    (htab : ∀ sp ∈ S', ∀ hash, (∃ ht, s.schedhash = some ht ∧ sp ∈ ht.chain (ht.bucket hash)) →
      ∃ ht, t.schedhash = some ht ∧ sp ∈ ht.chain (ht.bucket hash)) : Numbered S' t where
  table sp hsp := by
    rw [hnr sp hsp]
    exact htab sp hsp _ (h.table sp (hsub hsp))
  unique sp hsp sp' hsp' heq := by
    rw [hnr sp hsp, hnr sp' hsp'] at heq
    exact h.unique sp (hsub hsp) sp' (hsub hsp') heq
  pos sp hsp := by
    rw [hnr sp hsp]
    exact h.pos sp (hsub hsp)

/-- Fewer schedulers, with the same numbers, algorithms and flowsets. -/
theorem Hashed.mono {S' : Set SchkPtr} (h : Hashed S s) (hsub : S' ⊆ S)
    (hsch : ∀ sp ∈ S', (t.schk sp).sch.schedNr = (s.schk sp).sch.schedNr ∧
      (t.schk sp).fp = (s.schk sp).fp ∧ (t.schk sp).fs = (s.schk sp).fs)
    (htab : ∀ sp ∈ S', ∀ hash, (∃ ht, s.schedhash = some ht ∧ sp ∈ ht.chain (ht.bucket hash)) →
      ∃ ht, t.schedhash = some ht ∧ sp ∈ ht.chain (ht.bucket hash)) : Hashed S' t where
  toNumbered := h.toNumbered.mono hsub (fun sp hsp => (hsch sp hsp).1) htab
  ready sp hsp := (h.ready sp (hsub hsp)).congr (hsch sp hsp).2.1 (hsch sp hsp).2.2

/-- The schedulers and their table are the same. -/
theorem Hashed.congr (h : Hashed S s) (hsch : ∀ sp, (t.schk sp).sch = (s.schk sp).sch)
    (hfp : ∀ sp, (t.schk sp).fp = (s.schk sp).fp) (hfs : ∀ sp, (t.schk sp).fs = (s.schk sp).fs)
    (hsh : t.schedhash = s.schedhash) : Hashed S t :=
  h.mono subset_rfl (fun sp _ => ⟨by rw [hsch sp], hfp sp, hfs sp⟩)
    fun sp _ hash hmem => by rwa [hsh]

/-- A scheduler is in the table. -/
theorem Numbered.mem_ordered (h : Numbered S s) (hsp : sp ∈ S) :
    ∃ ht, s.schedhash = some ht ∧ sp ∈ ht.ordered := by
  obtain ⟨ht, hht, hmem⟩ := h.table sp hsp
  exact ⟨ht, hht, DnHt.mem_ordered.2 ⟨_, DnHt.mem_chain.1 hmem⟩⟩

/-- A scheduler is found by its number. -/
theorem Numbered.find (h : Numbered S s) (hg : Graph F S L s) (hsp : sp ∈ S) :
    s.findSched (s.schk sp).sch.schedNr = some sp := by
  obtain ⟨ht, hht, hmem⟩ := h.table sp hsp
  have hsome : (s.findSched (s.schk sp).sch.schedNr).isSome := by
    rw [Dn.findSched, hht]
    exact List.find?_isSome.2 ⟨sp, hmem, by simp⟩
  obtain ⟨sp', hfind⟩ := Option.isSome_iff_exists.1 hsome
  obtain ⟨hsp', hnr⟩ := hg.mem_of_findSched hfind (h.pos sp hsp)
  rw [hfind, h.unique sp' hsp' sp hsp hnr]

/-- An object leaves a hash table. -/
theorem mem_remove_chain {ht : Option (DnHt ℕ)} {o o' : ℕ} {hash : BitVec 32}
    (h : ∃ t, ht = some t ∧ o' ∈ t.chain (t.bucket hash)) (hne : o' ≠ o) :
    ∃ t, ht.map (fun ht => ht.remove o) = some t ∧ o' ∈ t.chain (t.bucket hash) := by
  obtain ⟨t, rfl, hmem⟩ := h
  refine ⟨t.remove o, rfl, ?_⟩
  rw [DnHt.mem_chain] at hmem
  rw [DnHt.mem_chain]
  exact List.mem_filter.2 ⟨hmem, by simpa using hne⟩

/-- An object leaves a hash table, which goes when it is empty. -/
theorem mem_dnHtDrop {ht : Option (DnHt ℕ)} {o : Option ℕ} {o' : ℕ} {hash : BitVec 32}
    (h : ∃ t, ht = some t ∧ o' ∈ t.chain (t.bucket hash)) (hne : o ≠ some o') :
    ∃ t, dnHtDrop ht o = some t ∧ o' ∈ t.chain (t.bucket hash) := by
  have hkeep : ∀ {ht' : Option (DnHt ℕ)}, (∃ t, ht' = some t ∧ o' ∈ t.chain (t.bucket hash)) →
      ∃ t, (if dnHtEntries ht' = 0 then none else ht') = some t ∧
        o' ∈ t.chain (t.bucket hash) := by
    rintro _ ⟨t, rfl, hmem⟩
    have hpos : t.objs.length ≠ 0 := fun h0 => by
      rw [DnHt.mem_chain, List.length_eq_zero_iff.1 h0] at hmem
      exact absurd hmem List.not_mem_nil
    exact ⟨t, by simp [dnHtEntries, hpos], hmem⟩
  cases o with
  | none => exact hkeep h
  | some o => exact hkeep (mem_remove_chain h fun he => hne (congrArg some he.symm))

/-- The flowsets with the number of the internal flowset of the scheduler `i` have no packets or
are attached to that scheduler. -/
def Dn.Spares (s : Dn) (i : BitVec 32) : Prop :=
  ∀ fp, (s.fsk fp).head.fsNr = i + dnMaxId →
    s.Idle fp ∨ ∃ sp, s.findSched i = some sp ∧ (s.fsk fp).sched = some sp

/-- The scheduler of an attached flowset exists. -/
theorem Graph.mem_of_sched (hg : Graph F S none s) (hsched : (s.fsk fp).sched = some sp) :
    fp ∈ (s.schk sp).fskList ∧ sp ∈ S := by
  have hfp : fp ∈ F := by
    by_contra hfp
    rw [hg.fsk_zero fp hfp] at hsched
    exact absurd hsched (by simp)
  have hmem : fp ∈ s.fskList (some sp) := (hg.listed _ _).2 ⟨hfp, by simp, hsched⟩
  refine ⟨hmem, ?_⟩
  by_contra hsp
  rw [Dn.fskList, hg.schk_zero sp hsp] at hmem
  exact absurd hmem List.not_mem_nil

theorem Calm.spares {F' : Set FskPtr} {S' : Set SchkPtr} {i : BitVec 32} (h : Calm s t)
    (hg : Graph F S none s) (hg' : Graph F' S' none t) (hh : Numbered S' t) (hi : i ≠ 0)
    (hs : s.Spares i) : t.Spares i := by
  intro fp hfp
  rcases hsched : (t.fsk fp).sched with _ | sp
  · exact .inl (hg'.idle hsched)
  · rcases h.keep fp sp hsched with hidle | ⟨hsp, hnr, hsch⟩
    · exact .inl hidle
    · rcases hs fp (hnr.symm.trans hfp) with hidle | ⟨sp', hfind, hsp'⟩
      · exact .inl (h.idle fp hidle)
      · obtain rfl := Option.some.inj (hsp.symm.trans hsp')
        have hsnr := (hg.mem_of_findSched hfind hi).2
        refine .inr ⟨sp, ?_, rfl⟩
        rw [← hh.find hg' (hg'.mem_of_sched hsched).2, hsch, hsnr]

/-- **`schk_delete_cb`** as a stage. -/
theorem schkDeleteCb_becomes (hg : Graph F S none s) (h : schkDeleteCb s sp = some t) :
    Becomes c F (S \ {sp}) s t ∧ DetachedIn (s.schk sp).fskList s t ∧
      t.schk = Function.update s.schk sp {} := by
  obtain ⟨hgo, hdet, hschk, -, hgone⟩ := schkDeleteCb_goes (K := fun p => p ∈ (s.schk sp).siht.list) hg
    (fun p hp => hp) h
  refine ⟨.of_stage hg hgo (fun _ p hp => hgone p hp) fun fp sp' hsched => .inr (.inr ?_), hdet,
    hschk⟩
  rw [hdet.sched] at hsched
  split_ifs at hsched with hmem
  have hne : sp' ≠ sp := by
    rintro rfl
    exact hmem (hg.mem_of_sched hsched).1
  refine ⟨hsched, by rw [hdet.head], ?_⟩
  rw [hschk, Function.update_of_ne hne]

/-- **`delete_schk`**. -/
theorem deleteSchk_becomes {i : BitVec 32} {err : ℕ} (hg : Graph F S none s) (hh : Hashed S s)
    (hidle : c → i ≠ 0 → s.Spares i) (h : deleteSchk s i = some (err, t)) :
    ∃ F' ⊆ F, ∃ S' ⊆ S, Becomes c F' S' s t ∧ Hashed S' t := by
  unfold deleteSchk at h
  dsimp only at h
  rcases hfind : s.findSched i with _ | sp
  · simp only [hfind] at h
    obtain ⟨-, rfl⟩ := Prod.mk.inj (Option.some.inj h)
    have hgo := goes_setSchedhash (K := fun _ => False) (dnHtDrop s.schedhash none) hg
    exact ⟨F, subset_rfl, S, subset_rfl, .of_goes hg ⟨hgo.graph, hgo.path.mono dropMoves_subset⟩
      fun fp sp hsp => .inr (.inr ⟨hsp, rfl, rfl⟩), hh.mono subset_rfl
      (fun _ _ => ⟨rfl, rfl, rfl⟩) fun sp _ hash hmem => mem_dnHtDrop hmem (Option.some_ne_none sp).symm⟩
  · simp only [hfind] at h
    obtain ⟨⟨err', u⟩, hu, h⟩ := Option.bind_eq_some_iff.1 h
    obtain ⟨v, hv, h⟩ := Option.bind_eq_some_iff.1 h
    obtain ⟨-, rfl⟩ := Prod.mk.inj (Option.some.inj h)
    set K : SiPtr → Prop := fun p => c → p ∈ (s.schk sp).siht.list with hK
    have hi : i ≠ 0 := by
      have hgo := goes_setSchedhash (K := fun _ => True)
        (dnHtDrop s.schedhash (some sp)) hg
      obtain ⟨F', -, hgo₁, hsame, -⟩ := deleteFs_goes (K := fun _ => True) hgo.graph
        (fun _ _ _ _ => .inr trivial) hu
      obtain ⟨-, -, -, hfp, -⟩ := schkDeleteCb_goes (K := fun _ => True) hgo₁.graph
        (fun _ _ => trivial) hv
      have hsp : sp ∈ S := by
        by_contra hsp
        have hfp' : (s.schk sp).fp ≠ none := hsame.fp sp ▸ hfp
        rw [hg.schk_zero sp hsp] at hfp'
        exact hfp' rfl
      obtain ⟨ht, -, hmatch⟩ := Option.bind_eq_some_iff.1 hfind
      have hnr : (s.schk sp).sch.schedNr = i := by simpa using (DnHt.find_eq_some hmatch).2
      exact hnr ▸ hh.pos sp hsp
    have hgo := goes_setSchedhash (K := K) (dnHtDrop s.schedhash (some sp)) hg
    obtain ⟨F', hF', hgo₁, hsame, -, hfsk⟩ := deleteFs_goes (K := K) hgo.graph (fun fp hfp a ha => by
      by_cases hc : c
      · have hnr : (s.fsk fp).head.fsNr = i + dnMaxId := by
          obtain ⟨ht, -, hmatch⟩ := Option.bind_eq_some_iff.1 hfp
          simpa using (DnHt.find_eq_some hmatch).2
        rcases hidle hc hi fp hnr with hlen | ⟨sp', hsp', hsched⟩
        · exact .inl (hlen a ha)
        · obtain rfl := Option.some.inj (hfind.symm.trans hsp')
          exact .inr fun _ => hg.mem_siht ha hsched
      · exact .inr fun h => absurd h hc) hu
    have hsiht : (u.schk sp).siht = (s.schk sp).siht := hsame.siht sp
    obtain ⟨hgo₂, hdet, hschk, -, hgone⟩ := schkDeleteCb_goes (K := K) hgo₁.graph (fun p hp _ => by
      rwa [hsiht] at hp) hv
    have hother : ∀ sp', sp' ≠ sp → (v.schk sp').sch.schedNr = (s.schk sp').sch.schedNr ∧
        (v.schk sp').fp = (s.schk sp').fp ∧ (v.schk sp').fs = (s.schk sp').fs := fun sp' hne => by
      rw [hschk, Function.update_of_ne hne, hsame.sch, hsame.fp, hsame.fs]
      exact ⟨rfl, rfl, rfl⟩
    refine ⟨F', hF', S \ {sp}, Set.sdiff_subset, .of_stage (K := K) hg
      ⟨hgo₂.graph, ((hgo.path.trans hgo₁.path).mono dropMoves_subset).trans hgo₂.path⟩
      (fun hc p hp hKp => ?_) (fun fp sp' hsched => .inr (.inr ?_)), ?_⟩
    · have := hgone p hp
      rw [hsiht] at this
      exact this (hKp hc)
    · rw [hdet.sched] at hsched
      split_ifs at hsched with hmem
      have hne : sp' ≠ sp := by
        rintro rfl
        exact hmem (hgo₁.graph.mem_of_sched hsched).1
      have hsame' : u.fsk fp = s.fsk fp := by
        rcases hfsk with ⟨-, heq⟩ | ⟨fp', -, -, heq⟩
        · rw [heq]
        · have hne' : fp ≠ fp' := by
            rintro rfl
            rw [heq, Function.update_self] at hsched
            exact absurd hsched (by simp)
          rw [heq, Function.update_of_ne hne']
      rw [hsame'] at hsched
      exact ⟨hsched, by rw [hdet.head, hsame'], (hother sp' hne).1⟩
    · refine hh.mono Set.sdiff_subset (fun sp' hsp' => hother sp' hsp'.2) fun sp' hsp' hash hmem => ?_
      rw [hdet.schedhash, hsame.schedhash]
      exact mem_dnHtDrop hmem fun he => hsp'.2 (Option.some.inj he).symm

/-! ### Everything -/

/-- `fsk_detach_list` on `fsu` with `DN_DELETE_FS`. -/
theorem fskDeleteList_goes {l : List FskPtr} (hg : Graph F S none s) (hl : s.fsu = l)
    (h : fskDeleteList s l = some t) :
    Goes (dropMoves K) (F \ {fp | fp ∈ l}) S none s t ∧ t.schk = s.schk ∧
      t.schedhash = s.schedhash ∧ t.fshash = s.fshash := by
  induction l generalizing s F with
  | nil =>
    obtain rfl := Option.some.inj h
    have hF : F \ {fp | fp ∈ ([] : List FskPtr)} = F := by simp
    rw [hF]
    exact ⟨.refl hg, rfl, rfl, rfl⟩
  | cons fp fps ih =>
    obtain ⟨u, hu, h⟩ := Option.bind_eq_some_iff.1 h
    have hmem : fp ∈ s.fskList none := by
      rw [Dn.fskList, hl]
      exact List.mem_cons_self
    have hnodup := hg.list_nodup none
    rw [Dn.fskList, hl, List.nodup_cons] at hnodup
    have hg₁ : Graph F S (some fp) { s with fsu := fps } := hg.unlist (l := fps) hmem (fun fp' => by
      rw [Dn.fskList, hl, List.mem_cons]
      refine ⟨fun hm => ⟨.inr hm, fun he => hnodup.1 (he ▸ hm)⟩, fun hm => hm.1.resolve_left hm.2⟩)
      hnodup.2
    obtain ⟨hfp, -, hsched⟩ := (hg.listed _ _).1 hmem
    obtain ⟨hgo, hsame, hfsk⟩ := fskDetach_delete (K := K) hg₁ hfp (fun a ha => by
      have hnil := hg.qht_nil hsched
      change a ∈ (s.fsk fp).qht.list at ha
      rw [hnil] at ha
      exact absurd ha List.not_mem_nil) hu
    obtain ⟨hgo', hschk, hsh, hfs⟩ := ih hgo.graph hsame.fsu h
    have hpath : Path (dropMoves K) s { s with fsu := fps } :=
      .single (.quiet ⟨⟨rfl, rfl, rfl, rfl, rfl, id⟩, rfl, rfl, rfl⟩ fun _ => rfl)
        quiet_mem_dropMoves
    have hF : F \ {fp' | fp' ∈ fp :: fps} = (F \ {fp}) \ {fp' | fp' ∈ fps} := by
      ext fp'
      simp [and_assoc]
    rw [hF]
    exact ⟨⟨hgo'.graph, hpath.trans (hgo.path.trans hgo'.path)⟩, hschk.trans hsame.schk,
      hsh.trans hsame.schedhash, hfs.trans hsame.fshash⟩

/-- All schedulers of a list go. -/
theorem schkDeleteAll_becomes {l : List SchkPtr} (hg : Graph F S none s)
    (h : schkDeleteAll s l = some t) : Becomes c F (S \ {sp | sp ∈ l}) s t := by
  induction l generalizing s S with
  | nil =>
    obtain rfl := Option.some.inj h
    have hS : S \ {sp | sp ∈ ([] : List SchkPtr)} = S := by simp
    rw [hS]
    exact .refl hg
  | cons sp sps ih =>
    obtain ⟨u, hu, h⟩ := Option.bind_eq_some_iff.1 h
    have hgo := goes_setSchedhash (K := fun _ => False)
      (s.schedhash.map fun ht => ht.remove sp) hg
    have hfirst : Becomes c F S s _ := .of_goes hg ⟨hgo.graph, hgo.path.mono dropMoves_subset⟩
      fun fp sp hsp => .inr (.inr ⟨hsp, rfl, rfl⟩)
    have hstage := hfirst.trans (schkDeleteCb_becomes hgo.graph hu).1
    have hS : S \ {sp' | sp' ∈ sp :: sps} = (S \ {sp}) \ {sp' | sp' ∈ sps} := by
      ext sp'
      simp [and_assoc]
    rw [hS]
    exact hstage.trans (ih hstage.graph h)

/-- **`dummynet_flush`**. -/
theorem dummynetFlush_becomes (hg : Graph F S none s) (hh : Hashed S s)
    (h : dummynetFlush s = some t) : ∃ F' ⊆ F, Becomes c F' ∅ s t := by
  obtain ⟨u, hu, h⟩ := Option.bind_eq_some_iff.1 h
  obtain ⟨v, hv, h⟩ := Option.bind_eq_some_iff.1 h
  obtain rfl := Option.some.inj h
  have hb := schkDeleteAll_becomes (c := c) hg hu
  have hS : S \ {sp | sp ∈ s.schedhash.elim [] DnHt.ordered} = ∅ := by
    refine Set.sdiff_eq_empty.2 fun sp hsp => ?_
    obtain ⟨ht, hht, hmem⟩ := hh.mem_ordered hsp
    simpa [hht] using hmem
  rw [hS] at hb
  have hgo := goes_setFshash (K := fun _ => False) (u.fshash.map DnHt.clear) hb.graph
  obtain ⟨hgo₁, -⟩ := fskDeleteList_goes (K := fun _ => False) hgo.graph rfl hv
  have hgo₂ := goes_setSchedhash (K := fun _ => False) (v.schedhash.map DnHt.clear) hgo₁.graph
  have hsm := silent_malloc ({ v with schedhash := v.schedhash.map DnHt.clear } : Dn)
  have hgo₃ := hsm.goes (A := dropMoves fun _ => False) hgo₂.graph quiet_mem_dropMoves
  have hsis : ({ v with schedhash := v.schedhash.map DnHt.clear } : Dn).malloc.2.sis = ∅ := by
    refine Finset.eq_empty_of_forall_notMem fun p hp => ?_
    have hkind := hgo₃.graph.kind p hp
    rw [hgo₃.graph.schk_zero _ (Set.notMem_empty _)] at hkind
    exact absurd hkind (by simp)
  have hpath := (hgo.path.trans (hgo₁.path.trans (hgo₂.path.trans hgo₃.path))).mono dropMoves_subset
  have hend := hgo₃.graph.of_eq (t := ({ ({ v with
      schedhash := v.schedhash.map DnHt.clear } : Dn).malloc.2 with
    evheap := (heapInit ({ v with schedhash := v.schedhash.map DnHt.clear } : Dn).malloc.1
      v.evheap 16 4).2 } : Dn)) rfl rfl rfl rfl rfl le_rfl
  refine ⟨_, Set.sdiff_subset, hb.trans (.of_goes hb.graph ⟨hend, hpath.trans (.single (.flush hsis)
    trivial)⟩ fun fp sp hsched => ?_)⟩
  exact absurd (hend.mem_of_sched hsched).2 (Set.notMem_empty _)

end Dummynet
