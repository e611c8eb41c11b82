import Dummynet.System.Configure
import Dummynet.System.Drain

/-!
# What leaves the schedulers alone

Packets, the timer and the configuration of flowsets leave the table of the schedulers and the
configuration of every scheduler alone.

## Main definitions

* `Fixed`: the schedulers, as their configuration goes, and what their configuration depends on,
  are the same.

## Main results

* `dummynetIo_fixed`, `dummynetTask_fixed`: the data path and the timer.
* `configFs_fixed`, `updateFs_fixed`: the configuration of flowsets.
-/

namespace Dummynet

variable {s t u : Dn} {p : SiPtr} {fp : FskPtr} {sp : SchkPtr} {i : BitVec 32}

/-- The configuration of a scheduler. -/
def Schk.core (x : Schk) : DnSch × Option SchedType × DnLink × Option DnProfile :=
  (x.sch, x.fp, x.link, x.profile)

/-- The table of the schedulers, their configuration, the loaded algorithms and the sizes of the
hash tables are the same. Memory that is never short stays so. -/
structure Fixed (s t : Dn) : Prop where
  schedlist : t.schedlist = s.schedlist
  schedhash : t.schedhash = s.schedhash
  core : ∀ sp, (t.schk sp).core = (s.schk sp).core
  brk : s.brk ≤ t.brk
  size : (t.parms.hashSize, t.parms.maxHashSize) = (s.parms.hashSize, s.parms.maxHashSize)
  malloc : (∀ n, s.env.malloc n = true) → ∀ n, t.env.malloc n = true

/-- What `Fixed` is about. -/
def Dn.view (s : Dn) := (s.schedlist, s.schedhash, s.schk, s.brk, s.parms, s.env)

theorem Fixed.refl (s : Dn) : Fixed s s := ⟨rfl, rfl, fun _ => rfl, le_rfl, rfl, id⟩

theorem Fixed.trans (h : Fixed s t) (h' : Fixed t u) : Fixed s u :=
  ⟨h'.schedlist.trans h.schedlist, h'.schedhash.trans h.schedhash,
    fun sp => (h'.core sp).trans (h.core sp), h.brk.trans h'.brk, h'.size.trans h.size,
    fun hs => h'.malloc (h.malloc hs)⟩

/-- Everything else may change. -/
theorem Fixed.of_eq (h : t.view = s.view) : Fixed s t := by
  obtain ⟨hl, h⟩ := Prod.mk.inj h
  obtain ⟨hh, h⟩ := Prod.mk.inj h
  obtain ⟨hk, h⟩ := Prod.mk.inj h
  obtain ⟨hb, h⟩ := Prod.mk.inj h
  obtain ⟨hp, he⟩ := Prod.mk.inj h
  exact ⟨hl, hh, fun sp => by rw [hk], hb.ge, by rw [hp], fun hs => by rwa [he]⟩

/-- What was done before. -/
theorem Fixed.after (h : Fixed u t) (hu : u.view = s.view) : Fixed s t := (Fixed.of_eq hu).trans h

/-- What is done afterwards. -/
theorem Fixed.then (h : Fixed s u) (ht : t.view = u.view) : Fixed s t := h.trans (.of_eq ht)

/-- A scheduler is written, but not its configuration. -/
theorem fixed_setSchk {x : Schk} (h : x.core = (s.schk sp).core) : Fixed s (s.setSchk sp x) := by
  refine ⟨rfl, rfl, fun sp' => ?_, le_rfl, rfl, id⟩
  rcases eq_or_ne sp' sp with rfl | hne
  · exact (congrArg Schk.core (Function.update_self ..)).trans h
  · exact congrArg Schk.core (Function.update_of_ne hne ..)

/-- The next address is taken. -/
theorem fixed_alloc (s : Dn) : Fixed s s.alloc.2 :=
  ⟨rfl, rfl, fun _ => rfl, Nat.le_succ _, rfl, id⟩

theorem fixed_malloc (s : Dn) : Fixed s s.malloc.2 :=
  ⟨rfl, rfl, fun _ => rfl, le_rfl, rfl, fun hs n => hs (n + 1)⟩

/-- A fold over a list. -/
theorem fixed_foldlM {α : Type} {f : Dn → α → Option Dn}
    (hf : ∀ {s a t}, f s a = some t → Fixed s t) {l : List α} (h : l.foldlM f s = some t) :
    Fixed s t :=
  foldlM_rel Fixed.refl Fixed.trans hf h

/-! ### Queues and instances -/

theorem callback_fixed {β : Type} {b : β}
    {f : (k : SchedType) → Inst k.Priv k.Ext → Option (β × Inst k.Priv k.Ext)}
    (h : s.callback p f = some (b, t)) : Fixed s t := by
  obtain ⟨r, -, hr⟩ := Option.map_eq_some_iff.1 h
  obtain ⟨-, rfl⟩ := Prod.mk.inj hr
  exact .of_eq rfl

theorem deleteQueue_fixed {a : QAddr} {safe b : Bool} (h : deleteQueue s a safe = some (b, t)) :
    Fixed s t := by
  obtain ⟨_, -, h⟩ := Option.bind_eq_some_iff.1 h
  obtain ⟨_, -, h⟩ := Option.bind_eq_some_iff.1 h
  exact callback_fixed h

theorem qDeleteAll_fixed {l : List QAddr} (h : qDeleteAll s fp l = some t) : Fixed s t := by
  induction l generalizing s with
  | nil =>
    obtain rfl := Option.some.inj h
    exact .refl s
  | cons a as ih =>
    obtain ⟨⟨b, u⟩, hu, h⟩ := Option.bind_eq_some_iff.1 h
    exact (deleteQueue_fixed hu).trans ((ih h).after rfl)

theorem qhtDelete_fixed (h : qhtDelete s fp = some t) : Fixed s t := by
  have hdel : ∀ l : List QAddr,
      ((qDeleteAll s fp l).bind fun u => some (u.setFsk fp { u.fsk fp with qht := .null })) =
        some t → Fixed s t := by
    intro l hall
    obtain ⟨u, hu, he⟩ := Option.bind_eq_some_iff.1 hall
    obtain rfl := Option.some.inj he
    exact (qDeleteAll_fixed hu).then rfl
  unfold qhtDelete at h
  dsimp only at h
  rcases hq : (s.fsk fp).qht with _ | a | ht
  · simp only [hq] at h
    exact hdel [] h
  · simp only [hq] at h
    split_ifs at h
    · exact hdel [a] h
    · simp at h
  · simp only [hq] at h
    split_ifs at h
    · exact hdel ht.ordered h
    · simp at h

theorem evExtractIf_fixed {flag : Bool} {o : EvObj} (h : s.evExtractIf flag o = some t) :
    Fixed s t := by
  unfold Dn.evExtractIf at h
  split_ifs at h
  · obtain ⟨r, -, rfl⟩ := Option.map_eq_some_iff.1 h
    exact .of_eq rfl
  · obtain rfl := Option.some.inj h
    exact .refl s

theorem siDestroy_fixed (h : siDestroy s p = some t) : Fixed s t := by
  obtain ⟨u, hu, h⟩ := Option.bind_eq_some_iff.1 h
  obtain ⟨v, hv, h⟩ := Option.bind_eq_some_iff.1 h
  obtain rfl := Option.some.inj h
  exact Fixed.trans (evExtractIf_fixed hu) (Fixed.then (Fixed.after (evExtractIf_fixed hv) rfl) rfl)

theorem siDestroyAll_fixed {l : List SiPtr} (h : siDestroyAll s sp l = some t) : Fixed s t := by
  induction l generalizing s with
  | nil =>
    obtain rfl := Option.some.inj h
    exact .refl s
  | cons p ps ih =>
    obtain ⟨u, hu, h⟩ := Option.bind_eq_some_iff.1 h
    refine (siDestroy_fixed hu).trans (Fixed.trans (fixed_setSchk ?_) (ih h))
    rfl

/-! ### Flowsets -/

theorem setFskList_fixed (s : Dn) (l : List FskPtr) (o : Option SchkPtr) :
    Fixed s (s.setFskList l o) := by
  cases o with
  | none => exact .of_eq rfl
  | some sp => exact fixed_setSchk rfl

theorem fskUnlist_fixed (h : fskUnlist s fp = some t) : Fixed s t := by
  unfold fskUnlist at h
  dsimp only at h
  split_ifs at h
  obtain rfl := Option.some.inj h
  exact setFskList_fixed _ _ _

theorem fskDetach_fixed {b : Bool} (h : fskDetach s fp b = some t) : Fixed s t := by
  unfold fskDetach at h
  dsimp only at h
  obtain ⟨u, hu, h⟩ := Option.bind_eq_some_iff.1 h
  have hsu : Fixed s u := (qhtDelete_fixed hu).after rfl
  split_ifs at h
  · obtain rfl := Option.some.inj h
    exact hsu.then rfl
  · obtain rfl := Option.some.inj h
    exact hsu.then rfl

theorem fskDetachList_fixed {l : List FskPtr} (h : fskDetachList s sp l = some t) : Fixed s t := by
  induction l generalizing s with
  | nil =>
    obtain rfl := Option.some.inj h
    exact .refl s
  | cons fp fps ih =>
    obtain ⟨u, hu, h⟩ := Option.bind_eq_some_iff.1 h
    exact ((setFskList_fixed s fps (some sp)).trans (fskDetach_fixed hu)).trans (ih h)

theorem deleteFs_fixed {err : ℕ} (h : deleteFs s i = some (err, t)) : Fixed s t := by
  unfold deleteFs at h
  dsimp only at h
  split at h
  · obtain ⟨-, rfl⟩ := Prod.mk.inj (Option.some.inj h)
    exact .of_eq rfl
  · obtain ⟨u, hu, h⟩ := Option.bind_eq_some_iff.1 h
    obtain ⟨v, hv, h⟩ := Option.bind_eq_some_iff.1 h
    obtain ⟨-, rfl⟩ := Prod.mk.inj (Option.some.inj h)
    exact ((fskUnlist_fixed hu).trans (fskDetach_fixed hv)).after rfl

theorem configRed_fixed (h : configRed s fp = some t) : Fixed s t := by
  unfold configRed at h
  dsimp only at h
  obtain ⟨_, -, h⟩ := Option.bind_eq_some_iff.1 h
  split at h
  · exact absurd h (by simp)
  · split at h
    · exact absurd h (by simp)
    · split at h
      · obtain rfl := Option.some.inj h
        exact Fixed.then (fixed_malloc s) rfl
      · obtain rfl := Option.some.inj h
        exact Fixed.trans (fixed_malloc s) ⟨rfl, rfl, fun _ => rfl, le_rfl, rfl, id⟩

theorem configRedIf_fixed (h : configRedIf s fp = some t) : Fixed s t := by
  unfold configRedIf at h
  split_ifs at h
  · exact configRed_fixed h
  · obtain rfl := Option.some.inj h
    exact .refl s

theorem updateRed_fixed (h : updateRed s sp = some t) : Fixed s t :=
  fixed_foldlM configRedIf_fixed h

theorem fskAttach_fixed (h : fskAttach s fp sp = some t) : Fixed s t := by
  obtain ⟨kind, -, h⟩ := Option.bind_eq_some_iff.1 h
  dsimp only at h
  split_ifs at h
  · have hlist := setFskList_fixed { s with fsu := s.fsu.erase fp } (fp :: (s.schk sp).fskList)
      (some sp)
    exact Fixed.trans (Fixed.after hlist rfl) (Fixed.after (configRedIf_fixed h) rfl)
  · exact absurd h (by simp)

theorem updateFs_fixed (h : updateFs s sp = some t) : Fixed s t := by
  refine fixed_foldlM (fun {s fp t} h => ?_) h
  split_ifs at h
  · obtain rfl := Option.some.inj h
    exact .refl s
  · exact fskAttach_fixed h

theorem needFshash_fixed (s : Dn) : Fixed s (needFshash s) := by
  unfold needFshash
  split
  · exact .refl s
  · exact (fixed_malloc s).then rfl

theorem fskNew_fixed {o : Option FskPtr} (h : fskNew s = (o, t)) : Fixed s t := by
  unfold fskNew at h
  dsimp only at h
  split_ifs at h
  · obtain ⟨-, rfl⟩ := Prod.mk.inj h
    exact (fixed_malloc s).trans (Fixed.then (fixed_alloc _) rfl)
  · obtain ⟨-, rfl⟩ := Prod.mk.inj h
    exact fixed_malloc s

theorem findOrNewFs_fixed {o : Option FskPtr} {new : Bool} (h : findOrNewFs s i = (o, new, t)) :
    Fixed s t := by
  unfold findOrNewFs at h
  split at h
  · obtain ⟨-, -, rfl⟩ := by simpa using h
    exact .refl s
  · split at h
    · obtain ⟨-, -, rfl⟩ := by simpa using h
      exact .refl s
    · rcases hn : fskNew s with ⟨o', u⟩
      rw [hn] at h
      rcases o' with _ | fp
      · obtain ⟨-, -, rfl⟩ := by simpa using h
        exact fskNew_fixed hn
      · obtain ⟨-, -, rfl⟩ := by simpa using h
        exact (fskNew_fixed hn).then rfl

theorem changeFs_fixed {x : FsConfig} (h : changeFs s fp x = some t) : Fixed s t := by
  obtain ⟨u, hdetached, hend⟩ := changeFs_cases h
  have hsu : Fixed s u := by
    rcases hdetached with ⟨-, v, hv, hu⟩ | ⟨-, rfl⟩
    · exact (fskUnlist_fixed hv).trans (fskDetach_fixed hu)
    · exact .refl u
  rcases hend with ⟨-, rfl⟩ | ⟨sp, -, h⟩
  · exact Fixed.then hsu rfl
  · exact Fixed.trans hsu (Fixed.after (fskAttach_fixed h) rfl)

theorem configFs_fixed {x : FsConfig} {o : Option FskPtr} (h : configFs s x = some (o, t)) :
    Fixed s t := by
  unfold configFs at h
  dsimp only at h
  split at h
  · obtain ⟨-, rfl⟩ := Prod.mk.inj (Option.some.inj h)
    exact .refl s
  obtain ⟨o', new, v, hv⟩ : ∃ o' new v,
      (if (x.bounded s.parms).head.schedNr ≠ 0 then findOrNewFs (needFshash s) x.head.fsNr
        else ((needFshash s).findFs x.head.fsNr, false, needFshash s)) = (o', new, v) :=
    ⟨_, _, _, rfl⟩
  have hsv : Fixed s v := by
    refine (needFshash_fixed s).trans ?_
    split_ifs at hv
    · exact findOrNewFs_fixed hv
    · obtain ⟨-, he⟩ := Prod.mk.inj hv
      obtain ⟨-, rfl⟩ := Prod.mk.inj he
      exact .refl _
  rw [hv] at h
  dsimp only at h
  rcases o' with _ | fp
  · obtain ⟨-, rfl⟩ := Prod.mk.inj (Option.some.inj h)
    exact hsv
  · dsimp only at h
    split at h
    · obtain ⟨-, rfl⟩ := Prod.mk.inj (Option.some.inj h)
      exact hsv
    · obtain ⟨w, hw, h⟩ := Option.bind_eq_some_iff.1 h
      obtain ⟨-, rfl⟩ := Prod.mk.inj (Option.some.inj h)
      refine hsv.trans (Fixed.after (changeFs_fixed hw) ?_)
      split_ifs <;> rfl

/-! ### Schedulers -/

/-- **`schk_delete_cb`**: the scheduler is freed. -/
theorem schkDeleteCb_fixed (h : schkDeleteCb s sp = some t) :
    ∃ u, Fixed s u ∧ (u.schk sp).fp.isSome ∧ t.view = (u.setSchk sp {}).view := by
  obtain ⟨u, hu, h⟩ := Option.bind_eq_some_iff.1 h
  obtain ⟨v, hv, h⟩ := Option.bind_eq_some_iff.1 h
  obtain ⟨kind, hkind, h⟩ := Option.bind_eq_some_iff.1 h
  obtain rfl := Option.some.inj h
  exact ⟨v, (fskDetachList_fixed hu).trans (siDestroyAll_fixed hv), by rw [hkind]; rfl, rfl⟩

/-! ### The data path -/

theorem evInsert_fixed (s : Dn) (k : BitVec 64) (o : EvObj) : Fixed s (s.evInsert k o) :=
  Fixed.then (fixed_malloc s) rfl

theorem siNew_fixed {key : FlowId} {o : Option SiPtr} (h : siNew s sp key = some (o, t)) :
    Fixed s t := by
  obtain ⟨kind, -, h⟩ := Option.bind_eq_some_iff.1 h
  dsimp only at h
  have hm := fixed_malloc s
  split at h
  · obtain ⟨-, rfl⟩ := Prod.mk.inj (Option.some.inj h)
    exact hm
  · split at h
    · have hm' := hm.trans (fixed_malloc s.malloc.2)
      split at h
      · obtain ⟨-, rfl⟩ := Prod.mk.inj (Option.some.inj h)
        exact hm'
      · obtain ⟨-, rfl⟩ := Prod.mk.inj (Option.some.inj h)
        exact hm'.trans (Fixed.then (fixed_alloc _) rfl)
    · obtain ⟨-, rfl⟩ := Prod.mk.inj (Option.some.inj h)
      exact hm.trans (Fixed.then (fixed_alloc s.malloc.2) rfl)

theorem ipdnSiFind_fixed {id : FlowId} {o : Option SiPtr} (h : ipdnSiFind s sp id = some (o, t)) :
    Fixed s t := by
  unfold ipdnSiFind at h
  dsimp only at h
  split at h
  · split at h
    · split at h
      · obtain ⟨-, rfl⟩ := Prod.mk.inj (Option.some.inj h)
        exact .refl s
      · obtain ⟨⟨o', u⟩, hu, h⟩ := Option.bind_eq_some_iff.1 h
        rcases o' with _ | p
        · obtain ⟨-, rfl⟩ := Prod.mk.inj (Option.some.inj h)
          exact siNew_fixed hu
        · obtain ⟨-, rfl⟩ := Prod.mk.inj (Option.some.inj h)
          exact (siNew_fixed hu).trans (fixed_setSchk rfl)
    · exact absurd h (by simp)
  · split at h
    · obtain ⟨-, rfl⟩ := Prod.mk.inj (Option.some.inj h)
      exact .refl s
    · obtain ⟨⟨o', u⟩, hu, h⟩ := Option.bind_eq_some_iff.1 h
      obtain ⟨-, rfl⟩ := Prod.mk.inj (Option.some.inj h)
      exact (siNew_fixed hu).trans (fixed_setSchk rfl)
    · exact absurd h (by simp)

theorem qNewAt_fixed {key : FlowId} {o : Option QAddr} (h : qNewAt s fp key = some (o, t)) :
    Fixed s t := by
  obtain ⟨sp, -, h⟩ := Option.bind_eq_some_iff.1 h
  dsimp only at h
  split at h
  · obtain ⟨-, rfl⟩ := Prod.mk.inj (Option.some.inj h)
    exact fixed_malloc s
  · obtain ⟨⟨o', u⟩, hu, h⟩ := Option.bind_eq_some_iff.1 h
    have hsu := (fixed_malloc s).trans (ipdnSiFind_fixed hu)
    rcases o' with _ | p
    · obtain ⟨-, rfl⟩ := Prod.mk.inj (Option.some.inj h)
      exact hsu
    · obtain ⟨⟨b, v⟩, hv, h⟩ := Option.bind_eq_some_iff.1 h
      obtain ⟨-, rfl⟩ := Prod.mk.inj (Option.some.inj h)
      exact hsu.trans (Fixed.trans (fixed_alloc u) (Fixed.after (callback_fixed hv) rfl))

theorem qhtTable_fixed {o : Option (DnHt QAddr)} (h : qhtTable s fp = some (o, t)) :
    Fixed s t := by
  unfold qhtTable at h
  dsimp only at h
  split at h
  · obtain ⟨-, rfl⟩ := Prod.mk.inj (Option.some.inj h)
    exact .refl s
  · split at h
    · obtain ⟨-, rfl⟩ := Prod.mk.inj (Option.some.inj h)
      exact fixed_malloc s
    · obtain ⟨-, rfl⟩ := Prod.mk.inj (Option.some.inj h)
      exact Fixed.then (fixed_malloc s) rfl
  · exact absurd h (by simp)

theorem ipdnQFind_fixed {id : FlowId} {o : Option QAddr} (h : ipdnQFind s fp id = some (o, t)) :
    Fixed s t := by
  unfold ipdnQFind at h
  dsimp only at h
  split at h
  · obtain ⟨⟨ht, u⟩, hu, h⟩ := Option.bind_eq_some_iff.1 h
    have hsu := qhtTable_fixed hu
    rcases ht with _ | ht
    · obtain ⟨-, rfl⟩ := Prod.mk.inj (Option.some.inj h)
      exact hsu
    · dsimp only at h
      split at h
      · obtain ⟨-, rfl⟩ := Prod.mk.inj (Option.some.inj h)
        exact hsu
      · obtain ⟨⟨o', v⟩, hv, h⟩ := Option.bind_eq_some_iff.1 h
        have hsv := hsu.trans (qNewAt_fixed hv)
        rcases o' with _ | a
        · obtain ⟨-, rfl⟩ := Prod.mk.inj (Option.some.inj h)
          exact hsv
        · obtain ⟨-, rfl⟩ := Prod.mk.inj (Option.some.inj h)
          exact Fixed.then hsv rfl
  · split at h
    · obtain ⟨-, rfl⟩ := Prod.mk.inj (Option.some.inj h)
      exact .refl s
    · obtain ⟨⟨o', v⟩, hv, h⟩ := Option.bind_eq_some_iff.1 h
      obtain ⟨-, rfl⟩ := Prod.mk.inj (Option.some.inj h)
      exact Fixed.then (qNewAt_fixed hv) rfl
    · exact absurd h (by simp)

theorem locateQueue_fixed {id : FlowId} {o : Option QAddr}
    (h : locateQueue s fp sp id = some (o, t)) : Fixed s t := by
  obtain ⟨kind, -, h⟩ := Option.bind_eq_some_iff.1 h
  dsimp only at h
  split at h
  · exact ipdnQFind_fixed h
  · obtain ⟨⟨p, u⟩, hu, h⟩ := Option.bind_eq_some_iff.1 h
    obtain ⟨-, rfl⟩ := Prod.mk.inj (Option.some.inj h)
    exact ipdnSiFind_fixed hu

theorem transmitEvent_fixed (s : Dn) (q : List DlPkt) (p : SiPtr) (now : BitVec 64) :
    Fixed s (transmitEvent s q p now).2 := by
  unfold transmitEvent
  dsimp only
  split
  · exact .of_eq rfl
  · exact Fixed.after (evInsert_fixed _ _ _) rfl

theorem packetCost_fixed (s : Dn) (m : Mbuf) (sp : SchkPtr) : Fixed s (packetCost s m sp).2 := by
  have hrandom : Fixed s s.random.2 := ⟨rfl, rfl, fun _ => rfl, le_rfl, rfl, id⟩
  have hextra : Fixed s (extraBits s m sp).2 := by
    unfold extraBits
    split
    · exact .refl s
    · dsimp only
      split_ifs
      · exact .refl s
      · exact Fixed.then hrandom rfl
      · exact hrandom
  unfold packetCost
  split_ifs
  · exact .refl s
  · exact hextra

theorem moveToDline_fixed (s : Dn) (p : SiPtr) (m : Mbuf) : Fixed s (moveToDline s p m) :=
  Fixed.then (Fixed.after (packetCost_fixed (s.emit (.dequeued p m)) m (s.inst p).sched) rfl) rfl

theorem serveLoop_fixed {n : ℕ} {done b c : Bool} (h : serveLoop n s p done = some (b, c, t)) :
    Fixed s t := by
  induction n generalizing s done with
  | zero => exact absurd h (by simp [serveLoop])
  | succ n ih =>
    unfold serveLoop at h
    split_ifs at h
    · obtain ⟨-, he⟩ := Prod.mk.inj (Option.some.inj h)
      obtain ⟨-, rfl⟩ := Prod.mk.inj he
      exact .refl s
    · obtain ⟨⟨m, u⟩, hu, h⟩ := Option.bind_eq_some_iff.1 h
      rcases m with _ | m
      · obtain ⟨-, he⟩ := Prod.mk.inj (Option.some.inj h)
        obtain ⟨-, rfl⟩ := Prod.mk.inj he
        exact callback_fixed hu
      · exact (callback_fixed hu).trans ((moveToDline_fixed u p m).trans (ih h))

theorem reschedule_fixed {now : BitVec 64} {last : Bool} (h : reschedule s p now last = some t) :
    Fixed s t := by
  unfold reschedule at h
  dsimp only at h
  split_ifs at h
  all_goals
    obtain rfl := Option.some.inj h
    exact Fixed.after (evInsert_fixed _ _ _) rfl

theorem serveSched_fixed {q q' : List DlPkt} {now : BitVec 64}
    (h : serveSched s q p now = some (q', t)) : Fixed s t := by
  obtain ⟨⟨done, last, u⟩, hu, h⟩ := Option.bind_eq_some_iff.1 h
  have hsu : Fixed s u := Fixed.after (serveLoop_fixed hu) rfl
  have hend : ∀ {v}, Fixed u v → (if (s.inst p).dline.isEmpty && done then
      some (transmitEvent v q p now) else some (q, v)) = some (q', t) → Fixed s t := by
    intro v huv h
    split_ifs at h
    · obtain ⟨-, rfl⟩ := Prod.mk.inj (Option.some.inj h)
      exact hsu.trans (huv.trans (transmitEvent_fixed v q p now))
    · obtain ⟨-, rfl⟩ := Prod.mk.inj (Option.some.inj h)
      exact hsu.trans huv
  dsimp only at h
  split at h
  · obtain ⟨v, hv, h⟩ := Option.bind_eq_some_iff.1 h
    exact hend (reschedule_fixed hv) h
  · obtain ⟨v, hv, h⟩ := Option.bind_eq_some_iff.1 h
    obtain rfl := Option.some.inj hv
    refine hend ?_ h
    exact .of_eq rfl

theorem handBack_fixed (s : Dn) (a : IoArgs) (q : List DlPkt) : Fixed s (handBack s a q).2 := by
  unfold handBack
  split
  · split_ifs
    · exact .of_eq rfl
    · exact .of_eq rfl
    · exact .of_eq rfl
  · exact .refl s

theorem dropIt_fixed (s : Dn) (o : Option FskPtr) (m : Option Mbuf) :
    Fixed s (dropIt s o m).2 := by
  cases m <;> exact .of_eq rfl

theorem ioEnqueue_fixed {a : IoArgs} {w : QAddr} {r : IoResult}
    (h : ioEnqueue s a fp sp w = some (r, t)) : Fixed s t := by
  obtain ⟨⟨drop, u⟩, hu, h⟩ := Option.bind_eq_some_iff.1 h
  have hsu := callback_fixed hu
  dsimp only at h
  split_ifs at h
  · obtain ⟨-, rfl⟩ := Prod.mk.inj (Option.some.inj h)
    exact hsu.trans (Fixed.after (dropIt_fixed (u.emit (.freed a.m)) (some fp) none) rfl)
  · obtain ⟨-, rfl⟩ := Prod.mk.inj (Option.some.inj h)
    exact hsu
  · obtain ⟨⟨q, v⟩, hv, h⟩ := Option.bind_eq_some_iff.1 h
    obtain ⟨-, rfl⟩ := Prod.mk.inj (Option.some.inj h)
    have hinit : Fixed u (initialAllowance u w.si sp) := by
      unfold initialAllowance
      dsimp only
      split_ifs <;> exact .of_eq rfl
    exact hsu.trans (hinit.trans ((serveSched_fixed hv).trans (handBack_fixed v a q)))

/-- **`dummynet_io`**. -/
theorem dummynetIo_fixed {a : IoArgs} {r : IoResult} (h : dummynetIo s a = some (r, t)) :
    Fixed s t := by
  have hm : Fixed s { s with ioPkt := s.ioPkt + 1 }.malloc.2 := Fixed.after (fixed_malloc _) rfl
  have hdrop : ∀ {u o m}, Fixed s u → some (dropIt u o m) = some (r, t) → Fixed s t := by
    intro u o m hu he
    obtain ⟨-, rfl⟩ := Prod.mk.inj (Option.some.inj he)
    exact hu.trans (dropIt_fixed u o m)
  unfold dummynetIo at h
  dsimp only at h
  split at h
  · exact hdrop hm h
  · have htag := Fixed.then (t := { { s with ioPkt := s.ioPkt + 1 }.malloc.2 with
        tags := Function.update s.tags a.m.ptr ⟨a.dir, s.currTime⟩ }) hm rfl
    split at h
    · exact hdrop htag h
    · split at h
      · exact hdrop htag h
      · obtain ⟨⟨w, u⟩, hu, h⟩ := Option.bind_eq_some_iff.1 h
        have hsu := htag.trans (locateQueue_fixed hu)
        rcases w with _ | w
        · exact hdrop hsu h
        · exact hsu.trans (ioEnqueue_fixed h)

/-! ### The timer -/

theorem taskTime_fixed (h : taskTime s = some t) : Fixed s t := by
  unfold taskTime at h
  dsimp only at h
  split at h
  · exact absurd h (by simp)
  · obtain rfl := Option.some.inj h
    exact .of_eq rfl

theorem taskLoop_fixed {n : ℕ} {q q' : List DlPkt} (h : taskLoop n s q = some (q', t)) :
    Fixed s t := by
  induction n generalizing s q with
  | zero => exact absurd h (by simp [taskLoop])
  | succ n ih =>
    unfold taskLoop at h
    split at h
    · obtain ⟨-, rfl⟩ := Prod.mk.inj (Option.some.inj h)
      exact .refl s
    · obtain ⟨u, hu, h⟩ := Option.bind_eq_some_iff.1 h
      obtain ⟨r, -, rfl⟩ := Option.map_eq_some_iff.1 hu
      dsimp only at h
      split at h
      · obtain ⟨⟨q₁, v⟩, hv, h⟩ := Option.bind_eq_some_iff.1 h
        exact Fixed.trans (Fixed.after (serveSched_fixed hv) rfl) (ih h)
      · obtain ⟨w, hw, h⟩ := Option.bind_eq_some_iff.1 h
        obtain rfl := Option.some.inj hw
        refine Fixed.trans ?_ (ih h)
        exact Fixed.after (transmitEvent_fixed _ _ _ _) rfl

theorem drainQueueCb_fixed {a : QAddr} (h : drainQueueCb fp s a = some t) : Fixed s t := by
  unfold drainQueueCb at h
  dsimp only at h
  split_ifs at h
  · obtain ⟨⟨kept, u⟩, hu, h⟩ := Option.bind_eq_some_iff.1 h
    obtain rfl := Option.some.inj h
    refine (deleteQueue_fixed hu).trans ?_
    split_ifs
    · exact .refl u
    · exact .of_eq rfl
  · obtain rfl := Option.some.inj h
    exact .of_eq rfl
  · obtain rfl := Option.some.inj h
    exact .refl s

theorem drainQueueFsCb_fixed (h : drainQueueFsCb s fp = some t) : Fixed s t := by
  unfold drainQueueFsCb at h
  dsimp only at h
  split at h
  · split at h
    · obtain rfl := Option.some.inj h
      exact .refl s
    · exact absurd h (by simp)
    · exact Fixed.after (fixed_foldlM drainQueueCb_fixed h) rfl
  · split at h
    · obtain rfl := Option.some.inj h
      exact .refl s
    · exact drainQueueCb_fixed h
    · exact absurd h (by simp)

theorem drainSchedulerCb_fixed (h : drainSchedulerCb sp s p = some t) : Fixed s t := by
  unfold drainSchedulerCb at h
  dsimp only at h
  split at h
  · obtain rfl := Option.some.inj h
    exact .refl s
  split at h
  · split at h
    · obtain ⟨u, hu, h⟩ := Option.bind_eq_some_iff.1 h
      obtain rfl := Option.some.inj h
      exact (siDestroy_fixed hu).trans (fixed_setSchk rfl)
    · obtain rfl := Option.some.inj h
      exact .of_eq rfl
  · obtain rfl := Option.some.inj h
    exact .refl s

theorem drainSchedulerSchCb_fixed (h : drainSchedulerSchCb s sp = some t) : Fixed s t := by
  unfold drainSchedulerSchCb at h
  dsimp only at h
  split at h
  · split at h
    · obtain rfl := Option.some.inj h
      exact .refl s
    · exact absurd h (by simp)
    · refine Fixed.trans (fixed_setSchk ?_) (fixed_foldlM drainSchedulerCb_fixed h)
      rfl
  · split at h
    · obtain rfl := Option.some.inj h
      exact .refl s
    · exact drainSchedulerCb_fixed h
    · exact absurd h (by simp)

theorem drainLoop_fixed {n : ℕ} (h : drainLoop n s = some t) : Fixed s t := by
  induction n generalizing s with
  | zero =>
    obtain rfl := Option.some.inj h
    exact .refl s
  | succ n ih =>
    rw [drainLoop] at h
    dsimp only at h
    have hqueue : ∀ {u}, dnDrainQueue s = some u → Fixed s u := by
      intro u hu
      unfold dnDrainQueue at hu
      split at hu
      · obtain rfl := Option.some.inj hu
        exact .refl s
      · exact Fixed.after (fixed_foldlM drainQueueFsCb_fixed hu) rfl
    have hsched : ∀ {u v}, dnDrainScheduler u = some v → Fixed u v := by
      intro u v hv
      unfold dnDrainScheduler at hv
      split at hv
      · obtain rfl := Option.some.inj hv
        exact .refl u
      · exact Fixed.after (fixed_foldlM drainSchedulerSchCb_fixed hv) rfl
    have hend : ∀ {v : Dn} {c : Prop} [Decidable c], Fixed s v →
        (if c then drainLoop n v else some v) = some t → Fixed s t := by
      intro v c _ hsv h
      split_ifs at h
      · exact hsv.trans (ih h)
      · obtain rfl := Option.some.inj h
        exact hsv
    split at h
    · obtain ⟨u, hu, h⟩ := Option.bind_eq_some_iff.1 h
      split at h
      · obtain ⟨v, hv, h⟩ := Option.bind_eq_some_iff.1 h
        exact hend ((hqueue hu).trans (hsched hv)) h
      · obtain ⟨v, hv, h⟩ := Option.bind_eq_some_iff.1 h
        obtain rfl := Option.some.inj hv
        exact hend (hqueue hu) h
    · obtain ⟨u, hu, h⟩ := Option.bind_eq_some_iff.1 h
      obtain rfl := Option.some.inj hu
      split at h
      · obtain ⟨v, hv, h⟩ := Option.bind_eq_some_iff.1 h
        exact hend (hsched hv) h
      · obtain ⟨v, hv, h⟩ := Option.bind_eq_some_iff.1 h
        obtain rfl := Option.some.inj hv
        exact hend (.refl s) h

/-- **`dummynet_task`**. -/
theorem dummynetTask_fixed (h : dummynetTask s = some t) : Fixed s t := by
  obtain ⟨u, hu, h⟩ := Option.bind_eq_some_iff.1 h
  obtain ⟨⟨q, v⟩, hv, h⟩ := Option.bind_eq_some_iff.1 h
  obtain ⟨w, hw, h⟩ := Option.bind_eq_some_iff.1 h
  obtain rfl := Option.some.inj h
  have hvw : Fixed v w := by
    unfold doDrain at hw
    dsimp only at hw
    split_ifs at hw
    · obtain rfl := Option.some.inj hw
      exact .refl v
    · obtain rfl := Option.some.inj hw
      exact .of_eq rfl
    · exact Fixed.after (drainLoop_fixed hw) rfl
  exact (taskTime_fixed hu).trans ((taskLoop_fixed hv).trans (Fixed.then hvw rfl))

end Dummynet
