import Dummynet.System.Fixed

/-!
# The table of the schedulers

What holds of the table of the schedulers in every state that packets, the timer and configuration
messages lead to, whatever `malloc` does.

## Main definitions

* `Tabled`: a number belongs to one scheduler of the table at most.
* `Wrote sp`: only the configuration of the scheduler `sp` changes.

## Main results

* `Tabled.findSched_iff`: the lookup of a number.
* `findOrNewSched_cases`, `schkDeleteCb_wrote`: schedulers come and go.
-/

namespace Dummynet

variable {s t u : Dn} {sp sp' : SchkPtr} {i n : BitVec 32}

/-- The scheduler is in the table, in the bucket of a hash value. -/
def Dn.InBucket (s : Dn) (hash : BitVec 32) (sp : SchkPtr) : Prop :=
  ∃ ht, s.schedhash = some ht ∧ sp ∈ ht.chain (ht.bucket hash)

/-- The number of a scheduler. -/
def Dn.schedNr (s : Dn) (sp : SchkPtr) : BitVec 32 := (s.schk sp).sch.schedNr

/-- The addresses in the table are in use, a number belongs to one of its schedulers at most, and
links have the numbers of their schedulers. A scheduler that was freed has the number 0. -/
structure Tabled (s : Dn) : Prop where
  brk : ∀ {hash sp}, s.InBucket hash sp → sp < s.brk
  unique : ∀ {n sp sp'}, n ≠ 0 → s.InBucket (nrHash n) sp → s.InBucket (nrHash n) sp' →
    s.schedNr sp = n → s.schedNr sp' = n → sp = sp'
  link : ∀ {hash sp}, s.InBucket hash sp → (s.schk sp).link.linkNr = s.schedNr sp

theorem inBucket_of_find (h : s.findSched n = some sp) :
    s.InBucket (nrHash n) sp ∧ s.schedNr sp = n := by
  obtain ⟨ht, hht, hfind⟩ := Option.bind_eq_some_iff.1 h
  exact ⟨⟨ht, hht, List.mem_of_find?_eq_some hfind⟩, 
    of_decide_eq_true (DnHt.find_eq_some hfind).2⟩

theorem schedNr_ne_of_find (h : s.findSched n = none) (hsp : s.InBucket (nrHash n) sp) :
    s.schedNr sp ≠ n := by
  obtain ⟨ht, hht, hmem⟩ := hsp
  rw [Dn.findSched, hht] at h
  exact fun hnr => List.find?_eq_none.1 h sp hmem (decide_eq_true hnr)

namespace Tabled

/-- **The lookup of a number.** -/
theorem findSched_iff (h : Tabled s) (hn : n ≠ 0) :
    s.findSched n = some sp ↔ s.InBucket (nrHash n) sp ∧ s.schedNr sp = n := by
  refine ⟨inBucket_of_find, fun ⟨hsp, hnr⟩ => ?_⟩
  rcases hfind : s.findSched n with _ | sp'
  · exact absurd hnr (schedNr_ne_of_find hfind hsp)
  · obtain ⟨hsp', hnr'⟩ := inBucket_of_find hfind
    rw [h.unique hn hsp hsp' hnr hnr']

/-- Lookups agree where the schedulers with the number are the same. -/
theorem findSched_eq (h : Tabled s) (h' : Tabled t) (hn : n ≠ 0)
    (hiff : ∀ sp, t.InBucket (nrHash n) sp ∧ t.schedNr sp = n ↔
      s.InBucket (nrHash n) sp ∧ s.schedNr sp = n) : t.findSched n = s.findSched n :=
  Option.ext fun sp => by
    rw [h'.findSched_iff hn, h.findSched_iff hn, hiff]

/-- Schedulers may leave the table. -/
theorem of_sub (h : Tabled s) (hbrk : s.brk ≤ t.brk)
    (hsub : ∀ {hash sp}, t.InBucket hash sp → s.InBucket hash sp ∧
      (t.schedNr sp = s.schedNr sp ∨ t.schedNr sp = 0) ∧
      (t.schk sp).link.linkNr = t.schedNr sp) : Tabled t where
  brk hsp := (h.brk (hsub hsp).1).trans_le hbrk
  unique hn hsp hsp' hnr hnr' := by
    have hs := ((hsub hsp).2.1).resolve_right (hnr.trans_ne hn)
    have hs' := ((hsub hsp').2.1).resolve_right (hnr'.trans_ne hn)
    exact h.unique hn (hsub hsp).1 (hsub hsp').1 (hs ▸ hnr) (hs' ▸ hnr')
  link hsp := (hsub hsp).2.2

end Tabled

/-! ### Changes of one scheduler -/

theorem Schk.sch_of_core {x y : Schk} (h : y.core = x.core) : y.sch = x.sch :=
  congrArg Prod.fst h

theorem Schk.link_of_core {x y : Schk} (h : y.core = x.core) : y.link = x.link :=
  congrArg (fun c => c.2.2.1) h

theorem Schk.fp_of_core {x y : Schk} (h : y.core = x.core) : y.fp = x.fp :=
  congrArg (fun c => c.2.1) h

theorem Schk.profile_of_core {x y : Schk} (h : y.core = x.core) : y.profile = x.profile :=
  congrArg (fun c => c.2.2.2) h

/-- Only the configuration of the scheduler `sp` changes. -/
structure Wrote (sp : SchkPtr) (s t : Dn) : Prop where
  schedlist : t.schedlist = s.schedlist
  schedhash : t.schedhash = s.schedhash
  core : ∀ sp', sp' ≠ sp → (t.schk sp').core = (s.schk sp').core
  brk : s.brk ≤ t.brk

theorem Fixed.wrote (h : Fixed s t) (sp : SchkPtr) : Wrote sp s t :=
  ⟨h.schedlist, h.schedhash, fun sp' _ => h.core sp', h.brk⟩

theorem Wrote.refl (sp : SchkPtr) (s : Dn) : Wrote sp s s := (Fixed.refl s).wrote sp

theorem Wrote.trans (h : Wrote sp s t) (h' : Wrote sp t u) : Wrote sp s u :=
  ⟨h'.schedlist.trans h.schedlist, h'.schedhash.trans h.schedhash,
    fun sp' hne => (h'.core sp' hne).trans (h.core sp' hne), h.brk.trans h'.brk⟩

theorem wrote_setSchk (s : Dn) (sp : SchkPtr) (x : Schk) : Wrote sp s (s.setSchk sp x) :=
  ⟨rfl, rfl, fun _ hne => congrArg Schk.core (Function.update_of_ne hne ..), le_rfl⟩

theorem Wrote.inBucket {hash : BitVec 32} (h : Wrote sp s t) :
    t.InBucket hash sp' ↔ s.InBucket hash sp' := by
  rw [Dn.InBucket, h.schedhash, Dn.InBucket]

theorem Wrote.schedNr (h : Wrote sp s t) (hne : sp' ≠ sp) : t.schedNr sp' = s.schedNr sp' :=
  congrArg DnSch.schedNr (Schk.sch_of_core (h.core sp' hne))

/-- The number of the scheduler stays, or it is freed, with its link. -/
theorem Wrote.tabled (h : Wrote sp s t) (hs : Tabled s)
    (hnr : t.schedNr sp = s.schedNr sp ∨ t.schedNr sp = 0)
    (hlink : (t.schk sp).link.linkNr = t.schedNr sp) : Tabled t := by
  refine hs.of_sub h.brk fun {hash sp'} hsp' => ⟨h.inBucket.1 hsp', ?_⟩
  rcases eq_or_ne sp' sp with rfl | hne
  · exact ⟨hnr, hlink⟩
  · refine ⟨.inl (h.schedNr hne), ?_⟩
    rw [Schk.link_of_core (h.core sp' hne), hs.link (h.inBucket.1 hsp'), h.schedNr hne]

theorem Fixed.tabled (h : Fixed s t) (hs : Tabled s) : Tabled t := by
  refine hs.of_sub h.brk fun {hash sp} hsp => ?_
  have hsp' : s.InBucket hash sp := (h.wrote sp).inBucket.1 hsp
  have hnr : t.schedNr sp = s.schedNr sp := congrArg DnSch.schedNr (Schk.sch_of_core (h.core sp))
  exact ⟨hsp', .inl hnr, by rw [Schk.link_of_core (h.core sp), hs.link hsp', hnr]⟩

/-- The number `n` belongs to the same scheduler, with the same configuration. -/
def SameAt (n : BitVec 32) (s t : Dn) : Prop :=
  t.findSched n = s.findSched n ∧
    ∀ sp, s.findSched n = some sp → (t.schk sp).core = (s.schk sp).core

theorem SameAt.refl (n : BitVec 32) (s : Dn) : SameAt n s s := ⟨rfl, fun _ _ => rfl⟩

theorem SameAt.trans (h : SameAt n s t) (h' : SameAt n t u) : SameAt n s u :=
  ⟨h'.1.trans h.1, fun sp hsp => (h'.2 sp (h.1.trans hsp)).trans (h.2 sp hsp)⟩

/-- The other numbers, where the scheduler keeps its number. -/
theorem Wrote.sameAt (h : Wrote sp s t) (hs : Tabled s) (ht : Tabled t) (hn : n ≠ 0)
    (hnr : s.schedNr sp ≠ n) (hnr' : t.schedNr sp ≠ n) : SameAt n s t := by
  refine ⟨hs.findSched_eq ht hn fun sp' => ?_, fun sp' hsp' => h.core sp' ?_⟩
  · rw [h.inBucket]
    rcases eq_or_ne sp' sp with rfl | hne
    · simp [hnr, hnr']
    · rw [h.schedNr hne]
  · rintro rfl
    exact hnr (inBucket_of_find hsp').2

theorem Fixed.sameAt (h : Fixed s t) (n : BitVec 32) : SameAt n s t :=
  ⟨findSched_congr h.schedhash (fun sp => Schk.sch_of_core (h.core sp)) n, fun sp _ => h.core sp⟩

/-! ### Schedulers go -/

/-- **`schk_delete_cb`**. -/
theorem schkDeleteCb_wrote (h : schkDeleteCb s sp = some t) :
    Wrote sp s t ∧ (t.schk sp).core = ({} : Schk).core := by
  obtain ⟨u, hu, -, ht⟩ := schkDeleteCb_fixed h
  have hut : Fixed (u.setSchk sp {}) t := .of_eq ht
  refine ⟨(hu.wrote sp).trans ((wrote_setSchk u sp {}).trans (hut.wrote sp)), ?_⟩
  exact (hut.core sp).trans (congrArg Schk.core (Function.update_self ..))

/-- The scheduler `sp` has left the table. -/
structure Removed (sp : SchkPtr) (s t : Dn) : Prop where
  schedlist : t.schedlist = s.schedlist
  inBucket : ∀ hash sp', t.InBucket hash sp' ↔ s.InBucket hash sp' ∧ sp' ≠ sp
  core : ∀ sp', sp' ≠ sp → (t.schk sp').core = (s.schk sp').core
  brk : s.brk ≤ t.brk

theorem Removed.wrote (h : Removed sp s t) (h' : Wrote sp t u) : Removed sp s u :=
  ⟨h'.schedlist.trans h.schedlist, fun hash sp' => h'.inBucket.trans (h.inBucket hash sp'),
    fun sp' hne => (h'.core sp' hne).trans (h.core sp' hne), h.brk.trans h'.brk⟩

theorem Removed.schedNr (h : Removed sp s t) (hne : sp' ≠ sp) : t.schedNr sp' = s.schedNr sp' :=
  congrArg DnSch.schedNr (Schk.sch_of_core (h.core sp' hne))

theorem Removed.tabled (h : Removed sp s t) (hs : Tabled s) : Tabled t := by
  refine hs.of_sub h.brk fun {hash sp'} hsp' => ?_
  obtain ⟨hin, hne⟩ := (h.inBucket hash sp').1 hsp'
  have hnr := h.schedNr hne
  exact ⟨hin, .inl hnr, by rw [Schk.link_of_core (h.core sp' hne), hs.link hin, hnr]⟩

/-- Nothing is found under the number of the scheduler, and the same under the others. -/
theorem Removed.findSched (h : Removed sp s t) (hs : Tabled s) (hi : i ≠ 0)
    (hfind : s.findSched i = some sp) :
    t.findSched i = none ∧ ∀ n, n ≠ 0 → n ≠ i → SameAt n s t := by
  have ht := h.tabled hs
  have hnr := (inBucket_of_find hfind).2
  refine ⟨Option.eq_none_iff_forall_ne_some.2 fun sp' hsp' => ?_, fun n hn hne =>
    ⟨hs.findSched_eq ht hn fun sp' => ?_, fun sp' hsp' => h.core sp' ?_⟩⟩
  · obtain ⟨hin', hnr'⟩ := inBucket_of_find hsp'
    obtain ⟨hin, hne⟩ := (h.inBucket _ sp').1 hin'
    rw [h.schedNr hne] at hnr'
    exact hne (hs.unique hi hin (inBucket_of_find hfind).1 hnr' hnr)
  · rw [h.inBucket]
    rcases eq_or_ne sp' sp with rfl | hsp
    · rw [hnr]
      simp [hne.symm]
    · rw [h.schedNr hsp, and_iff_left hsp]
  · rintro rfl
    exact hne ((inBucket_of_find hsp').2.symm.trans hnr)

theorem removed_map (s : Dn) (sp : SchkPtr) :
    Removed sp s { s with schedhash := s.schedhash.map fun ht => ht.remove sp } := by
  refine ⟨rfl, fun hash sp' => ⟨?_, fun ⟨hin, hne⟩ => mem_remove_chain hin hne⟩, fun _ _ => rfl,
    le_rfl⟩
  rintro ⟨ht', hmap, hmem⟩
  obtain ⟨ht, hht, rfl⟩ := Option.map_eq_some_iff.1 hmap
  obtain ⟨hobj, hne⟩ := List.mem_filter.1 (DnHt.mem_chain.1 hmem)
  exact ⟨⟨ht, hht, DnHt.mem_chain.2 hobj⟩, by simpa using hne⟩

theorem removed_drop (s : Dn) (sp : SchkPtr) :
    Removed sp s { s with schedhash := dnHtDrop s.schedhash (some sp) } := by
  have h := removed_map s sp
  refine ⟨rfl, fun hash sp' => ⟨?_, fun ⟨hin, hne⟩ =>
    mem_dnHtDrop hin fun he => hne (Option.some.inj he).symm⟩, fun _ _ => rfl, le_rfl⟩
  rintro ⟨ht', hdrop, hmem⟩
  unfold dnHtDrop at hdrop
  dsimp only at hdrop
  split_ifs at hdrop
  exact (h.inBucket hash sp').1 ⟨ht', hdrop, hmem⟩

/-! ### Schedulers come -/

/-- The scheduler `sp` is new, with the number `i`. -/
structure Added (i : BitVec 32) (sp : SchkPtr) (s t : Dn) : Prop where
  schedlist : t.schedlist = s.schedlist
  keep : ∀ {hash sp'}, s.InBucket hash sp' → t.InBucket hash sp'
  new : t.InBucket (nrHash i) sp
  only : ∀ {hash sp'}, t.InBucket hash sp' → s.InBucket hash sp' ∨ sp' = sp
  core : ∀ sp', sp' ≠ sp → (t.schk sp').core = (s.schk sp').core
  fresh : s.brk ≤ sp
  brk : sp < t.brk
  free : s.findSched i = none
  sch : t.schedNr sp = i
  fp : (t.schk sp).fp = none
  link : (t.schk sp).link = { oid := { type := 1, len := sizeofLink }, linkNr := i }
  profile : (t.schk sp).profile = none

theorem Added.schedNr (h : Added i sp s t) (hne : sp' ≠ sp) : t.schedNr sp' = s.schedNr sp' :=
  congrArg DnSch.schedNr (Schk.sch_of_core (h.core sp' hne))

theorem Added.ne_of_old {hash : BitVec 32} (h : Added i sp s t) (hs : Tabled s)
    (hin : s.InBucket hash sp') : sp' ≠ sp :=
  ((hs.brk hin).trans_le h.fresh).ne

theorem Added.tabled (h : Added i sp s t) (hs : Tabled s) : Tabled t := by
  refine ⟨fun {hash sp'} hin => ?_, fun {n sp₁ sp₂} hn h₁ h₂ hnr₁ hnr₂ => ?_,
    fun {hash sp'} hin => ?_⟩
  · rcases h.only hin with hold | rfl
    · exact (hs.brk hold).trans (h.fresh.trans_lt h.brk)
    · exact h.brk
  · have hold : ∀ {sp'}, s.InBucket (nrHash n) sp' → t.schedNr sp' = n → t.schedNr sp = n →
        False := fun {sp'} hin hnr hnr' => by
      rw [h.schedNr (h.ne_of_old hs hin)] at hnr
      rw [h.sch] at hnr'
      exact schedNr_ne_of_find (hnr' ▸ h.free) hin hnr
    rcases h.only h₁ with hold₁ | rfl <;> rcases h.only h₂ with hold₂ | rfl
    · rw [h.schedNr (h.ne_of_old hs hold₁)] at hnr₁
      rw [h.schedNr (h.ne_of_old hs hold₂)] at hnr₂
      exact hs.unique hn hold₁ hold₂ hnr₁ hnr₂
    · exact absurd hnr₂ (hold hold₁ hnr₁)
    · exact absurd hnr₁ (hold hold₂ hnr₂)
    · rfl
  · rcases h.only hin with hold | rfl
    · have hne := h.ne_of_old hs hold
      rw [Schk.link_of_core (h.core sp' hne), hs.link hold, h.schedNr hne]
    · rw [h.link, h.sch]

/-- It is found under its number, and the others as before. -/
theorem Added.findSched (h : Added i sp s t) (hs : Tabled s) (hi : i ≠ 0) :
    t.findSched i = some sp ∧ ∀ n, n ≠ 0 → n ≠ i → SameAt n s t := by
  have ht := h.tabled hs
  refine ⟨(ht.findSched_iff hi).2 ⟨h.new, h.sch⟩, fun n hn hne =>
    ⟨hs.findSched_eq ht hn fun sp' => ⟨fun ⟨hin, hnr⟩ => ?_, fun ⟨hin, hnr⟩ => ?_⟩,
      fun sp' hsp' => h.core sp' (h.ne_of_old hs (inBucket_of_find hsp').1)⟩⟩
  · rcases h.only hin with hold | rfl
    · exact ⟨hold, h.schedNr (h.ne_of_old hs hold) ▸ hnr⟩
    · exact absurd (hnr.symm.trans h.sch) hne
  · exact ⟨h.keep hin, (h.schedNr (h.ne_of_old hs hin)).trans hnr⟩

/-- The fields of a new scheduler. -/
def newSchk (x : DnSch) : Schk where
  sch := x
  link := { oid := { type := 1, len := sizeofLink }, linkNr := x.schedNr }

/-- **`schk_new`**. -/
theorem schkNew_cases {x : DnSch} {o : Option SchkPtr} (h : schkNew s x = (o, t)) :
    o = none ∧ Fixed s t ∨ ∃ y : Schk, o = some s.brk ∧
      y.core = (newSchk x).core ∧
      t.schedlist = s.schedlist ∧ t.schedhash = s.schedhash ∧ t.brk = s.brk + 1 ∧
      t.schk = Function.update s.schk s.brk y := by
  have hnew : ∀ {v : Dn} {y : Schk}, v.schedlist = s.schedlist → v.schedhash = s.schedhash →
      v.brk = s.brk + 1 → v.schk = s.schk → y.core = (newSchk x).core →
      (some s.brk, ({ v.setSchk s.brk y with schkCount := v.schkCount + 1 } : Dn)) = (o, t) →
      ∃ y : Schk, o = some s.brk ∧ y.core = (newSchk x).core ∧ t.schedlist = s.schedlist ∧
        t.schedhash = s.schedhash ∧ t.brk = s.brk + 1 ∧
        t.schk = Function.update s.schk s.brk y := by
    intro v y hlist hsh hbrk hschk hy he
    obtain ⟨rfl, rfl⟩ := Prod.mk.inj he
    refine ⟨y, rfl, hy, hlist, hsh, hbrk, ?_⟩
    change Function.update v.schk s.brk y = _
    rw [hschk]
  obtain ⟨ok, u, hm⟩ : ∃ ok u, s.malloc = (ok, u) := ⟨_, _, rfl⟩
  have hu : u = s.malloc.2 := by rw [hm]
  unfold schkNew at h
  simp only [hm] at h
  subst hu
  cases ok with
  | false =>
    obtain ⟨rfl, rfl⟩ := Prod.mk.inj h
    exact .inl ⟨rfl, fixed_malloc s⟩
  | true =>
    simp only [Bool.not_true, Bool.false_eq_true, if_false] at h
    split at h
    · split at h
      · obtain ⟨rfl, rfl⟩ := Prod.mk.inj h
        exact .inl ⟨rfl, (fixed_malloc s).trans ((fixed_alloc _).trans (fixed_malloc _))⟩
      · refine .inr (hnew (v := s.malloc.2.alloc.2.malloc.2) rfl rfl rfl rfl ?_ h)
        rfl
    · refine .inr (hnew (v := s.malloc.2.alloc.2) rfl rfl rfl rfl ?_ h)
      rfl

/-- **A lookup that makes what it does not find.** -/
theorem findOrNewSched_cases {x : DnSch} {o : Option SchkPtr} (hx : x.schedNr = i)
    (h : findOrNewSched s i x = (o, t)) :
    o = none ∧ Fixed s t ∨ ∃ sp, o = some sp ∧
      (s.findSched i = some sp ∧ t = s ∨ Added i sp s t ∧ (t.schk sp).sch = x) := by
  unfold findOrNewSched at h
  split at h
  · obtain ⟨rfl, rfl⟩ := Prod.mk.inj h
    exact .inl ⟨rfl, .refl s⟩
  next ht hht =>
  split at h
  · next sp hfind =>
    obtain ⟨rfl, rfl⟩ := Prod.mk.inj h
    exact .inr ⟨sp, rfl, .inl ⟨hfind, rfl⟩⟩
  next hfree =>
  obtain ⟨o', u, hu⟩ : ∃ o' u, schkNew s x = (o', u) := ⟨_, _, rfl⟩
  rw [hu] at h
  rcases schkNew_cases hu with ⟨rfl, hsu⟩ | ⟨y, rfl, hy, hlist, hsh, hbrk, hschk⟩
  · obtain ⟨rfl, rfl⟩ := Prod.mk.inj h
    exact .inl ⟨rfl, hsu⟩
  · obtain ⟨rfl, rfl⟩ := Prod.mk.inj h
    have hself : (u.schk s.brk).core = y.core := by rw [hschk, Function.update_self]
    refine .inr ⟨s.brk, rfl, .inr ⟨⟨hlist, ?_, ?_, ?_, fun sp' hne => ?_, le_rfl, ?_, hfree, ?_, ?_,
      ?_, ?_⟩, ?_⟩⟩
    · rintro hash sp' ⟨ht', hht', hmem⟩
      obtain rfl := Option.some.inj (hht.symm.trans hht')
      exact ⟨_, rfl, DnHt.mem_chain.2 (List.mem_cons_of_mem _ (DnHt.mem_chain.1 hmem))⟩
    · exact ⟨_, rfl, DnHt.mem_chain.2 List.mem_cons_self⟩
    · rintro hash sp' ⟨ht', hht', hmem⟩
      obtain rfl := Option.some.inj hht'
      rcases List.mem_cons.1 (DnHt.mem_chain.1 hmem) with he | hold
      · exact .inr (congrArg Prod.snd he)
      · exact .inl ⟨ht, hht, DnHt.mem_chain.2 hold⟩
    · exact congrArg Schk.core (by rw [hschk, Function.update_of_ne hne])
    · exact hbrk ▸ Nat.lt_succ_self _
    · exact (congrArg DnSch.schedNr (Schk.sch_of_core hself)).trans
        ((congrArg (fun c => c.1.schedNr) hy).trans hx)
    · exact (Schk.fp_of_core hself).trans (congrArg (fun c => c.2.1) hy)
    · rw [← hx]
      exact (Schk.link_of_core hself).trans (congrArg (fun c => c.2.2.1) hy)
    · exact (Schk.profile_of_core hself).trans (congrArg (fun c => c.2.2.2) hy)
    · exact (Schk.sch_of_core hself).trans (congrArg Prod.fst hy)

end Dummynet
