import Dummynet.System.Configure
import Dummynet.System.Drain

/-!
# What configuration does to the instances

The handlers of `do_config` touch the scheduler instances in three ways only: they delete queues,
they destroy instances, and they reset credits. A relation that these respect is respected by all
the handlers.

## Main definitions

* `Respected`: a relation between states that the changes of instances respect.

## Main results

* `Respected.configFs`, `Respected.configSched`, `Respected.configLink`, `Respected.configProfile`,
  `Respected.dummynetFlush`: the handlers.
* `Respected.doConfig`: a whole message.
-/

namespace Dummynet

variable {R : Dn → Dn → Prop} {s t u v : Dn} {p : SiPtr} {fp : FskPtr} {sp : SchkPtr}
  {i : BitVec 32} {err : ℕ}

/-- The instances and the clock. -/
def Dn.objs (s : Dn) := (s.inst, s.sis, s.currTime)

/-- The relation is respected by the changes of the instances that the handlers make. -/
structure Respected (R : Dn → Dn → Prop) : Prop where
  quiet : ∀ {s t : Dn}, t.objs = s.objs → R s t
  trans : ∀ {s t u : Dn}, R s t → R t u → R s u
  delete : ∀ {s t : Dn} {p : SiPtr} {q : QPtr} {safe b : Bool},
    s.callback p (fun k t => dnDeleteQueue k.desc t q true safe) = some (b, t) → R s t
  destroy : ∀ {s t : Dn} {p : SiPtr}, siDestroy s p = some t → R s t
  credit : ∀ (s : Dn) (p : SiPtr), R s (siResetCredit s p)

namespace Respected

variable (hR : Respected R)

include hR

theorem refl (s : Dn) : R s s := hR.quiet rfl

/-- What was done before. -/
theorem after (h : R u t) (hu : u.objs = s.objs) : R s t := hR.trans (hR.quiet hu) h

/-- What is done afterwards. -/
theorem before (h : R s u) (ht : t.objs = u.objs) : R s t := hR.trans h (hR.quiet ht)

/-- A fold over a list. -/
theorem foldlM {α : Type} {f : Dn → α → Option Dn} (hf : ∀ {s a t}, f s a = some t → R s t)
    {l : List α} (h : l.foldlM f s = some t) : R s t :=
  foldlM_rel hR.refl hR.trans hf h

/-! ### Queues and instances -/

theorem deleteQueue {a : QAddr} {safe b : Bool} (h : deleteQueue s a safe = some (b, t)) :
    R s t := by
  obtain ⟨_, -, h⟩ := Option.bind_eq_some_iff.1 h
  obtain ⟨_, -, h⟩ := Option.bind_eq_some_iff.1 h
  exact hR.delete h

theorem qDeleteAll {l : List QAddr} (h : qDeleteAll s fp l = some t) : R s t := by
  induction l generalizing s with
  | nil =>
    obtain rfl := Option.some.inj h
    exact hR.refl s
  | cons a as ih =>
    obtain ⟨⟨b, u⟩, hu, h⟩ := Option.bind_eq_some_iff.1 h
    exact hR.trans (hR.deleteQueue hu) (hR.after (ih h) rfl)

theorem qhtDelete (h : qhtDelete s fp = some t) : R s t := by
  have hdel : ∀ l : List QAddr,
      ((Dummynet.qDeleteAll s fp l).bind fun u =>
        some (u.setFsk fp { u.fsk fp with qht := .null })) = some t → R s t := by
    intro l hall
    obtain ⟨u, hu, he⟩ := Option.bind_eq_some_iff.1 hall
    obtain rfl := Option.some.inj he
    exact hR.before (hR.qDeleteAll hu) rfl
  unfold Dummynet.qhtDelete at h
  dsimp only at h
  rcases hq : (s.fsk fp).qht with _ | a | ht
  · simp only [hq] at h
    exact hdel [] h
  · simp only [hq] at h
    split_ifs at h
    · exact hdel [a] h
    · simp at h
  · simp only [hq] at h
    split_ifs at h
    · exact hdel ht.ordered h
    · simp at h

theorem siDestroyAll {l : List SiPtr} (h : siDestroyAll s sp l = some t) : R s t := by
  induction l generalizing s with
  | nil =>
    obtain rfl := Option.some.inj h
    exact hR.refl s
  | cons p ps ih =>
    obtain ⟨u, hu, h⟩ := Option.bind_eq_some_iff.1 h
    exact hR.trans (hR.destroy hu) (hR.after (ih h) rfl)

theorem schkResetCredit (s : Dn) (sp : SchkPtr) : R s (schkResetCredit s sp) := by
  suffices h : ∀ (l : List SiPtr) (s : Dn), R s (l.foldl siResetCredit s) from h _ s
  intro l
  induction l with
  | nil => exact hR.refl
  | cons p ps ih => exact fun s => hR.trans (hR.credit s p) (ih (siResetCredit s p))

/-! ### Flowsets -/

theorem setFskList (s : Dn) (l : List FskPtr) (o : Option SchkPtr) : R s (s.setFskList l o) := by
  cases o <;> exact hR.quiet rfl

theorem fskUnlist (h : fskUnlist s fp = some t) : R s t := by
  unfold Dummynet.fskUnlist at h
  dsimp only at h
  split_ifs at h
  obtain rfl := Option.some.inj h
  exact hR.setFskList _ _ _

theorem fskDetach {b : Bool} (h : fskDetach s fp b = some t) : R s t := by
  unfold Dummynet.fskDetach at h
  dsimp only at h
  obtain ⟨u, hu, h⟩ := Option.bind_eq_some_iff.1 h
  have hsu : R s u := hR.after (hR.qhtDelete hu) rfl
  split_ifs at h
  · obtain rfl := Option.some.inj h
    exact hR.before hsu rfl
  · obtain rfl := Option.some.inj h
    exact hR.before hsu rfl

theorem fskDetachList {l : List FskPtr} (h : fskDetachList s sp l = some t) : R s t := by
  induction l generalizing s with
  | nil =>
    obtain rfl := Option.some.inj h
    exact hR.refl s
  | cons fp fps ih =>
    obtain ⟨u, hu, h⟩ := Option.bind_eq_some_iff.1 h
    exact hR.trans (hR.trans (hR.setFskList s fps (some sp)) (hR.fskDetach hu)) (ih h)

theorem fskDeleteList {l : List FskPtr} (h : fskDeleteList s l = some t) : R s t := by
  induction l generalizing s with
  | nil =>
    obtain rfl := Option.some.inj h
    exact hR.refl s
  | cons fp fps ih =>
    obtain ⟨u, hu, h⟩ := Option.bind_eq_some_iff.1 h
    exact hR.trans (hR.after (hR.fskDetach hu) rfl) (ih h)

theorem deleteFs (h : deleteFs s i = some (err, t)) : R s t := by
  unfold Dummynet.deleteFs at h
  dsimp only at h
  split at h
  · obtain ⟨-, rfl⟩ := Prod.mk.inj (Option.some.inj h)
    exact hR.quiet rfl
  · obtain ⟨u, hu, h⟩ := Option.bind_eq_some_iff.1 h
    obtain ⟨v, hv, h⟩ := Option.bind_eq_some_iff.1 h
    obtain ⟨-, rfl⟩ := Prod.mk.inj (Option.some.inj h)
    exact hR.after (hR.trans (hR.fskUnlist hu) (hR.fskDetach hv)) rfl

theorem configRed (h : configRed s fp = some t) : R s t := by
  unfold Dummynet.configRed at h
  dsimp only at h
  obtain ⟨_, -, h⟩ := Option.bind_eq_some_iff.1 h
  split at h
  · exact absurd h (by simp)
  · split at h
    · exact absurd h (by simp)
    · split at h
      all_goals
        obtain rfl := Option.some.inj h
        exact hR.quiet rfl

theorem configRedIf (h : configRedIf s fp = some t) : R s t := by
  unfold Dummynet.configRedIf at h
  split_ifs at h
  · exact hR.configRed h
  · obtain rfl := Option.some.inj h
    exact hR.refl s

theorem updateRed (h : updateRed s sp = some t) : R s t := hR.foldlM hR.configRedIf h

theorem fskAttach (h : fskAttach s fp sp = some t) : R s t := by
  obtain ⟨kind, -, h⟩ := Option.bind_eq_some_iff.1 h
  dsimp only at h
  split_ifs at h
  · have hlist := hR.setFskList { s with fsu := s.fsu.erase fp } (fp :: (s.schk sp).fskList)
      (some sp)
    exact hR.trans (hR.after hlist rfl) (hR.after (hR.configRedIf h) rfl)
  · exact absurd h (by simp)

theorem updateFs (h : updateFs s sp = some t) : R s t := by
  refine hR.foldlM (fun {s fp t} h => ?_) h
  split_ifs at h
  · obtain rfl := Option.some.inj h
    exact hR.refl s
  · exact hR.fskAttach h

theorem needFshash (s : Dn) : R s (needFshash s) := by
  unfold Dummynet.needFshash
  split <;> exact hR.quiet rfl

theorem findOrNewFs {o : Option FskPtr} {new : Bool} (h : findOrNewFs s i = (o, new, t)) :
    R s t := by
  unfold Dummynet.findOrNewFs at h
  split at h
  · obtain ⟨-, -, rfl⟩ := by simpa using h
    exact hR.refl s
  · split at h
    · obtain ⟨-, -, rfl⟩ := by simpa using h
      exact hR.refl s
    · obtain ⟨o', u, hn⟩ : ∃ o' u, fskNew s = (o', u) := ⟨_, _, rfl⟩
      have hsu : R s u := by
        unfold fskNew at hn
        dsimp only at hn
        split_ifs at hn <;>
        · obtain ⟨-, rfl⟩ := Prod.mk.inj hn
          exact hR.quiet rfl
      rw [hn] at h
      rcases o' with _ | fp
      · obtain ⟨-, -, rfl⟩ := by simpa using h
        exact hsu
      · obtain ⟨-, -, rfl⟩ := by simpa using h
        exact hR.before hsu rfl

theorem changeFs {x : FsConfig} (h : changeFs s fp x = some t) : R s t := by
  obtain ⟨u, hdetached, hend⟩ := changeFs_cases h
  have hsu : R s u := by
    rcases hdetached with ⟨-, v, hv, hu⟩ | ⟨-, rfl⟩
    · exact hR.trans (hR.fskUnlist hv) (hR.fskDetach hu)
    · exact hR.refl u
  rcases hend with ⟨-, rfl⟩ | ⟨sp, -, h⟩
  · exact hR.before hsu rfl
  · exact hR.trans hsu (hR.after (hR.fskAttach h) rfl)

/-- **`config_fs`**. -/
theorem configFs {x : FsConfig} {o : Option FskPtr} (h : configFs s x = some (o, t)) : R s t := by
  unfold Dummynet.configFs at h
  dsimp only at h
  split at h
  · obtain ⟨-, rfl⟩ := Prod.mk.inj (Option.some.inj h)
    exact hR.refl s
  obtain ⟨o', new, v, hv⟩ : ∃ o' new v,
      (if (x.bounded s.parms).head.schedNr ≠ 0 then
          Dummynet.findOrNewFs (Dummynet.needFshash s) x.head.fsNr
        else ((Dummynet.needFshash s).findFs x.head.fsNr, false, Dummynet.needFshash s)) =
      (o', new, v) := ⟨_, _, _, rfl⟩
  have hsv : R s v := by
    refine hR.trans (hR.needFshash s) ?_
    split_ifs at hv
    · exact hR.findOrNewFs hv
    · obtain ⟨-, he⟩ := Prod.mk.inj hv
      obtain ⟨-, rfl⟩ := Prod.mk.inj he
      exact hR.refl _
  rw [hv] at h
  dsimp only at h
  rcases o' with _ | fp
  · obtain ⟨-, rfl⟩ := Prod.mk.inj (Option.some.inj h)
    exact hsv
  · dsimp only at h
    split at h
    · obtain ⟨-, rfl⟩ := Prod.mk.inj (Option.some.inj h)
      exact hsv
    · obtain ⟨w, hw, h⟩ := Option.bind_eq_some_iff.1 h
      obtain ⟨-, rfl⟩ := Prod.mk.inj (Option.some.inj h)
      refine hR.trans hsv (hR.after (hR.changeFs hw) ?_)
      split_ifs <;> rfl

/-! ### Schedulers -/

theorem schkDeleteCb (h : schkDeleteCb s sp = some t) : R s t := by
  obtain ⟨u, hu, h⟩ := Option.bind_eq_some_iff.1 h
  obtain ⟨v, hv, h⟩ := Option.bind_eq_some_iff.1 h
  obtain ⟨kind, -, h⟩ := Option.bind_eq_some_iff.1 h
  obtain rfl := Option.some.inj h
  exact hR.before (hR.trans (hR.fskDetachList hu) (hR.siDestroyAll hv)) rfl

theorem deleteSchk (h : deleteSchk s i = some (err, t)) : R s t := by
  unfold Dummynet.deleteSchk at h
  dsimp only at h
  split at h
  · obtain ⟨-, rfl⟩ := Prod.mk.inj (Option.some.inj h)
    exact hR.quiet rfl
  · obtain ⟨⟨e, u⟩, hu, h⟩ := Option.bind_eq_some_iff.1 h
    obtain ⟨v, hv, h⟩ := Option.bind_eq_some_iff.1 h
    obtain ⟨-, rfl⟩ := Prod.mk.inj (Option.some.inj h)
    exact hR.trans (hR.after (hR.deleteFs hu) rfl) (hR.schkDeleteCb hv)

theorem schkDeleteAll {l : List SchkPtr} (h : schkDeleteAll s l = some t) : R s t := by
  induction l generalizing s with
  | nil =>
    obtain rfl := Option.some.inj h
    exact hR.refl s
  | cons sp sps ih =>
    obtain ⟨u, hu, h⟩ := Option.bind_eq_some_iff.1 h
    exact hR.trans (hR.after (hR.schkDeleteCb hu) rfl) (ih h)

/-- **`dummynet_flush`**. -/
theorem dummynetFlush (h : dummynetFlush s = some t) : R s t := by
  obtain ⟨u, hu, h⟩ := Option.bind_eq_some_iff.1 h
  obtain ⟨v, hv, h⟩ := Option.bind_eq_some_iff.1 h
  obtain rfl := Option.some.inj h
  exact hR.trans (hR.schkDeleteAll hu) (hR.before (hR.after (hR.fskDeleteList hv) rfl) rfl)

theorem setLink {l : DnLink} (h : setLink s sp i l = some t) : R s t := by
  unfold Dummynet.setLink at h
  dsimp only at h
  split_ifs at h
  · obtain ⟨u, hu, h⟩ := Option.bind_eq_some_iff.1 h
    obtain rfl := Option.some.inj h
    exact hR.trans (hR.after (hR.updateRed hu) rfl) (hR.after (hR.schkResetCredit _ sp) rfl)
  · obtain rfl := Option.some.inj h
    exact hR.after (hR.schkResetCredit _ sp) rfl

/-- **`config_link`**. -/
theorem configLink {l : DnLink} (h : configLink s l = some (err, t)) : R s t := by
  unfold Dummynet.configLink at h
  dsimp only at h
  split at h
  · obtain ⟨-, rfl⟩ := Prod.mk.inj (Option.some.inj h)
    exact hR.refl s
  split at h
  · obtain ⟨-, rfl⟩ := Prod.mk.inj (Option.some.inj h)
    exact hR.refl s
  obtain ⟨u, hu, h⟩ := Option.bind_eq_some_iff.1 h
  split at h
  · obtain ⟨-, rfl⟩ := Prod.mk.inj (Option.some.inj h)
    exact hR.setLink hu
  obtain ⟨v, hv, h⟩ := Option.bind_eq_some_iff.1 h
  obtain ⟨-, rfl⟩ := Prod.mk.inj (Option.some.inj h)
  exact hR.trans (hR.setLink hu) (hR.before (hR.setLink hv) rfl)

theorem setProfile {pf : DnProfile} {ok : Bool} (h : setProfile s sp pf = (ok, t)) : R s t := by
  unfold Dummynet.setProfile at h
  dsimp only at h
  split at h
  · obtain ⟨-, rfl⟩ := Prod.mk.inj h
    exact hR.quiet rfl
  · split at h
    all_goals
      obtain ⟨-, rfl⟩ := Prod.mk.inj h
      exact hR.quiet rfl

/-- **`config_profile`**. -/
theorem configProfile {pf : DnProfile} (h : configProfile s pf = (err, t)) : R s t := by
  unfold Dummynet.configProfile at h
  dsimp only at h
  split at h
  · obtain ⟨-, rfl⟩ := Prod.mk.inj h
    exact hR.refl s
  split at h
  · obtain ⟨-, rfl⟩ := Prod.mk.inj h
    exact hR.refl s
  split at h
  · next u hu =>
    obtain ⟨-, rfl⟩ := Prod.mk.inj h
    exact hR.after (hR.setProfile hu) rfl
  next u hu =>
  have hsu : R s u := hR.after (hR.setProfile hu) rfl
  split at h
  · obtain ⟨-, rfl⟩ := Prod.mk.inj h
    exact hsu
  split at h
  all_goals
    next v hv =>
    obtain ⟨-, rfl⟩ := Prod.mk.inj h
    exact hR.trans hsu (hR.after (hR.setProfile hv) rfl)

theorem needSchedhash (s : Dn) : R s (needSchedhash s) := by
  unfold Dummynet.needSchedhash
  split <;> exact hR.quiet rfl

theorem schkNew {x : DnSch} {o : Option SchkPtr} (h : schkNew s x = (o, t)) : R s t := by
  obtain ⟨ok, u, hu⟩ : ∃ ok u, s.malloc = (ok, u) := ⟨_, _, rfl⟩
  have hobjs : u.objs = s.objs := congrArg (fun r : Bool × Dn => r.2.objs) hu.symm
  unfold Dummynet.schkNew at h
  simp only [hu] at h
  cases ok with
  | false =>
    obtain ⟨-, rfl⟩ := Prod.mk.inj h
    exact hR.quiet hobjs
  | true =>
    simp only [Bool.not_true, Bool.false_eq_true, if_false] at h
    split at h
    · split at h
      · obtain ⟨-, rfl⟩ := Prod.mk.inj h
        exact hR.quiet hobjs
      · obtain ⟨-, rfl⟩ := Prod.mk.inj h
        exact hR.quiet hobjs
    · obtain ⟨-, rfl⟩ := Prod.mk.inj h
      exact hR.quiet hobjs

theorem findOrNewSched {x : DnSch} {o : Option SchkPtr} (h : findOrNewSched s i x = (o, t)) :
    R s t := by
  unfold Dummynet.findOrNewSched at h
  split at h
  · obtain ⟨-, rfl⟩ := Prod.mk.inj h
    exact hR.refl s
  · split at h
    · obtain ⟨-, rfl⟩ := Prod.mk.inj h
      exact hR.refl s
    · split at h
      · next u hu =>
        obtain ⟨-, rfl⟩ := Prod.mk.inj h
        exact hR.schkNew hu
      · next sp u hu =>
        obtain ⟨-, rfl⟩ := Prod.mk.inj h
        exact hR.before (hR.schkNew hu) rfl

theorem internalFs {kind : SchedType} {ok : Bool} (h : internalFs s sp kind i = some (ok, t)) :
    R s t := by
  unfold Dummynet.internalFs at h
  split_ifs at h
  · obtain ⟨-, rfl⟩ := Prod.mk.inj (Option.some.inj h)
    exact hR.refl s
  · split at h
    · obtain ⟨-, rfl⟩ := Prod.mk.inj (Option.some.inj h)
      exact hR.quiet rfl
    · obtain ⟨⟨o, u⟩, hu, h⟩ := Option.bind_eq_some_iff.1 h
      dsimp only at h
      split_ifs at h
      · obtain ⟨-, rfl⟩ := Prod.mk.inj (Option.some.inj h)
        exact hR.before (hR.configFs hu) rfl
      · obtain ⟨v, hv, h⟩ := Option.bind_eq_some_iff.1 h
        obtain ⟨-, rfl⟩ := Prod.mk.inj (Option.some.inj h)
        exact hR.trans (hR.configFs hu) (hR.after (hR.schkDeleteCb hv) rfl)

theorem saveProfile (s : Dn) (sp : SchkPtr) (pf : Option DnProfile) :
    R s (saveProfile s sp pf).2 := by
  unfold Dummynet.saveProfile
  split
  · exact hR.refl s
  · split <;> exact hR.quiet rfl

theorem configSchedAt {kind : SchedType} {j : SchedJob} {r : ℕ ⊕ SchedJob}
    (h : configSchedAt s sp kind j = some (r, t)) : R s t := by
  obtain ⟨u, hu, h⟩ := Option.bind_eq_some_iff.1 h
  have hsu : R s u := by
    unfold restoreLink at hu
    split_ifs at hu <;>
    · obtain rfl := Option.some.inj hu
      exact hR.quiet rfl
  dsimp only at h
  split_ifs at h
  · obtain ⟨v, hv, h⟩ := Option.bind_eq_some_iff.1 h
    obtain ⟨-, rfl⟩ := Prod.mk.inj (Option.some.inj h)
    exact hR.trans (hR.trans hsu (hR.saveProfile u sp j.pf)) (hR.after (hR.schkDeleteCb hv) rfl)
  · obtain ⟨⟨ok, v⟩, hv, h⟩ := Option.bind_eq_some_iff.1 h
    have hsv := hR.trans hsu (hR.after (hR.internalFs hv) rfl)
    dsimp only at h
    split_ifs at h
    · obtain ⟨-, rfl⟩ := Prod.mk.inj (Option.some.inj h)
      exact hsv
    · obtain ⟨w, hw, h⟩ := Option.bind_eq_some_iff.1 h
      obtain ⟨-, rfl⟩ := Prod.mk.inj (Option.some.inj h)
      exact hR.trans hsv (hR.updateFs hw)

theorem configSchedRound {j : SchedJob} {r : ℕ ⊕ SchedJob}
    (h : configSchedRound s j = some (r, t)) : R s t := by
  have hid : s.nextId.objs = s.objs := rfl
  cases configSchedRound_cases h with
  | noMemory _ hv => exact hR.after (hR.findOrNewSched hv) hid
  | known _ hv hat => exact hR.trans (hR.after (hR.findOrNewSched hv) hid) (hR.configSchedAt hat)
  | pipe _ _ _ => exact hR.quiet hid
  | old _ _ _ _ _ hat => exact hR.after (hR.configSchedAt hat) hid
  | default _ _ => exact hR.quiet hid
  | unknown _ => exact hR.quiet hid

theorem configSchedLoop {n : ℕ} {j : SchedJob} (h : configSchedLoop n s j = some (err, t)) :
    R s t := by
  induction n generalizing s j with
  | zero => exact absurd h (by simp [Dummynet.configSchedLoop])
  | succ n ih =>
    obtain ⟨⟨r, u⟩, hu, h⟩ := Option.bind_eq_some_iff.1 h
    rcases r with e | k
    · obtain ⟨-, rfl⟩ := Prod.mk.inj (Option.some.inj h)
      exact hR.configSchedRound hu
    · exact hR.trans (hR.configSchedRound hu) (ih h)

/-- **`config_sched`**. -/
theorem configSched {x : DnSch} (h : configSched s x = some (err, t)) : R s t := by
  unfold Dummynet.configSched at h
  dsimp only at h
  split at h
  · obtain ⟨-, rfl⟩ := Prod.mk.inj (Option.some.inj h)
    exact hR.refl s
  · exact hR.trans (hR.needSchedhash s) (hR.configSchedLoop h)

/-! ### Messages -/

/-- **An object of a message.** -/
theorem doObject {o : DnObj} (h : doObject s o = some (err, t)) : R s t := by
  cases doObject_handled h with
  | skip _ => exact hR.refl s
  | flush hf => exact hR.dummynetFlush hf
  | link hl => exact hR.configLink hl
  | profile hpf => exact hR.configProfile hpf
  | sch hc => exact hR.configSched hc
  | fs hc => exact hR.configFs hc
  | deleteLink _ _ hu hv => exact hR.trans (hR.deleteSchk hu) (hR.deleteSchk hv)
  | deleteFs _ hd => exact hR.deleteFs hd

theorem doObjects {os : List DnObj} {l : ℕ} (h : doObjects os l s = some (err, t)) : R s t := by
  induction os generalizing s l with
  | nil =>
    obtain ⟨-, rfl⟩ := Prod.mk.inj (Option.some.inj h)
    exact hR.refl s
  | cons o os ih =>
    unfold Dummynet.doObjects at h
    split_ifs at h
    · obtain ⟨-, rfl⟩ := Prod.mk.inj (Option.some.inj h)
      exact hR.refl s
    · obtain ⟨-, rfl⟩ := Prod.mk.inj (Option.some.inj h)
      exact hR.refl s
    · obtain ⟨⟨e, u⟩, hu, h⟩ := Option.bind_eq_some_iff.1 h
      dsimp only at h
      split_ifs at h
      · obtain ⟨-, rfl⟩ := Prod.mk.inj (Option.some.inj h)
        exact hR.doObject hu
      · exact hR.trans (hR.doObject hu) (ih h)

/-- **`do_config`**. -/
theorem doConfig {os : List DnObj} {l : ℕ} (h : doConfig s os l = some (err, t)) : R s t := by
  unfold Dummynet.doConfig at h
  split at h
  · obtain ⟨-, rfl⟩ := Prod.mk.inj (Option.some.inj h)
    exact hR.refl s
  · split_ifs at h
    · obtain ⟨-, rfl⟩ := Prod.mk.inj (Option.some.inj h)
      exact hR.refl s
    · exact hR.doObjects h

end Respected

end Dummynet
