import Dummynet.System.Held
import Dummynet.System.Replace

/-!
# Schedulers in pairs

`config_sched` makes a scheduler with the number `i` together with its FIFO twin, which has the
number `i + 65536`, and a delete command for a link deletes both. `config_link` and `config_profile`
rely on the twin. With enough memory only a delete command breaks a pair: it takes any number, and
the one of a twin deletes the twin alone.

## Main definitions

* `Dn.Paired`: schedulers exist in pairs.
* `Dn.Ample`: memory is never short, and the sizes of the tables are good.
* `Dn.DeletesPair`: what a delete command must meet.

## Main results

* `configSched_pairs`: a request makes a pair, or changes no number.
* `doObject_paired_iff`: an object of a message keeps the pairs exactly if it meets the condition.
* `Dn.ReachBy.paired`: runs.
-/

namespace Dummynet

variable {s t u v : Dn} {sp sp' : SchkPtr} {i n : BitVec 32} {j k : SchedJob} {err : ℕ}
  {r : ℕ ⊕ SchedJob} {kind : SchedType} {o : Option SchkPtr} {x : DnSch}

/-! ### Numbers -/

/-- A number that `config_sched` accepts. -/
def IsBase (i : BitVec 32) : Prop := 0 < i.toNat ∧ i.toNat < 65536

instance : Decidable (IsBase i) := inferInstanceAs (Decidable (_ ∧ _))

theorem isBase_iff : IsBase i ↔ 0 < i.toInt ∧ i.toInt < dnMaxId.toInt := by
  have hmax : dnMaxId.toInt = 65536 := by decide
  have hcond := BitVec.toInt_eq_toNat_cond i
  have hlt := i.isLt
  rw [hmax, IsBase]
  split_ifs at hcond <;> omega

theorem toNat_twin (h : IsBase i) : (i + dnMaxId).toNat = i.toNat + 65536 := by
  have hmax : dnMaxId.toNat = 65536 := by decide
  rw [BitVec.toNat_add, hmax]
  exact Nat.mod_eq_of_lt (by have := h.2; omega)

theorem IsBase.not_twin (h : IsBase i) : ¬ IsBase (i + dnMaxId) := fun h' => by
  have hlt := h'.2
  rw [toNat_twin h] at hlt
  omega

theorem IsBase.ne_zero (h : IsBase i) : i ≠ 0 := by
  rintro rfl
  exact absurd h.1 (by decide)

theorem IsBase.twin_ne_zero (h : IsBase i) : i + dnMaxId ≠ 0 := fun h₀ => by
  have htwin := toNat_twin h
  rw [h₀] at htwin
  exact absurd htwin (by simp)

theorem add_dnMaxId_ne (i : BitVec 32) : i + dnMaxId ≠ i := by
  rw [ne_eq, add_eq_left]
  decide

theorem add_dnMaxId_twice_ne (i : BitVec 32) : i + dnMaxId + dnMaxId ≠ i := by
  rw [add_assoc, ne_eq, add_eq_left]
  decide

/-- The number of a scheduler or of a twin. -/
def InRange (n : BitVec 32) : Prop := IsBase n ∨ ∃ i, IsBase i ∧ n = i + dnMaxId

theorem InRange.ne_zero (h : InRange n) : n ≠ 0 := by
  rcases h with h | ⟨i, h, rfl⟩
  · exact h.ne_zero
  · exact h.twin_ne_zero

theorem InRange.pos (h : InRange n) : 0 < n.toInt := by
  have hcond := BitVec.toInt_eq_toNat_cond n
  have hbound : 0 < n.toNat ∧ n.toNat < 131072 := by
    rcases h with h | ⟨i, h, rfl⟩
    · exact ⟨h.1, h.2.trans (by decide)⟩
    · rw [toNat_twin h]
      have := h.2
      omega
  split_ifs at hcond <;> omega

/-- The number of the internal flowset is one that `config_fs` accepts. -/
theorem InRange.fsNr (h : InRange n) :
    0 < (n + dnMaxId).toInt ∧ (n + dnMaxId).toInt < (3 * dnMaxId).toInt := by
  have hmax : dnMaxId.toNat = 65536 := by decide
  have hlim : (3 * dnMaxId).toInt = 196608 := by decide
  have hbound : n.toNat < 131072 := by
    rcases h with h | ⟨i, h, rfl⟩
    · exact h.2.trans (by decide)
    · rw [toNat_twin h]
      have := h.2
      omega
  have hcond := BitVec.toInt_eq_toNat_cond (n + dnMaxId)
  rw [BitVec.toNat_add, hmax, Nat.mod_eq_of_lt (by omega)] at hcond
  rw [hlim]
  split_ifs at hcond <;> omega

/-! ### The table -/

/-- A scheduler of the table has the number. -/
def Dn.HasSched (s : Dn) (n : BitVec 32) : Prop := ∃ hash sp, s.InBucket hash sp ∧ s.schedNr sp = n

/-- A scheduler exists if and only if its FIFO twin does, and there are no others. -/
structure Dn.Paired (s : Dn) : Prop where
  twin : ∀ i, IsBase i → (s.HasSched i ↔ s.HasSched (i + dnMaxId))
  range : ∀ n, s.HasSched n → InRange n

/-- A scheduler that has not been freed, in the bucket of its number, with an algorithm that is
loaded. -/
structure Dn.Good (s : Dn) (sp : SchkPtr) : Prop where
  ne_zero : s.schedNr sp ≠ 0
  own : s.InBucket (nrHash (s.schedNr sp)) sp
  kind : ∃ kind ∈ s.schedlist, (s.schk sp).fp = some kind

/-- The schedulers of the table, except perhaps one, are good. -/
def Dn.Placed (o : Option SchkPtr) (s : Dn) : Prop :=
  ∀ hash sp, s.InBucket hash sp → some sp ≠ o → s.Good sp

theorem Dn.Good.congr (h : s.Good sp) (hlist : t.schedlist = s.schedlist)
    (hin : s.InBucket (nrHash (s.schedNr sp)) sp → t.InBucket (nrHash (s.schedNr sp)) sp)
    (hsch : (t.schk sp).sch = (s.schk sp).sch) (hfp : (t.schk sp).fp = (s.schk sp).fp) :
    t.Good sp := by
  have hnr : t.schedNr sp = s.schedNr sp := congrArg DnSch.schedNr hsch
  refine ⟨hnr ▸ h.ne_zero, hnr.symm ▸ hin h.own, ?_⟩
  rw [hfp, hlist]
  exact h.kind

/-- The schedulers keep their numbers and their algorithms, and the table stays. -/
structure SameSlots (s t : Dn) : Prop where
  schedlist : t.schedlist = s.schedlist
  schedhash : t.schedhash = s.schedhash
  sch : ∀ sp, (t.schk sp).sch = (s.schk sp).sch
  fp : ∀ sp, (t.schk sp).fp = (s.schk sp).fp

theorem SameSlots.refl (s : Dn) : SameSlots s s := ⟨rfl, rfl, fun _ => rfl, fun _ => rfl⟩

theorem SameSlots.trans (h : SameSlots s t) (h' : SameSlots t u) : SameSlots s u :=
  ⟨h'.schedlist.trans h.schedlist, h'.schedhash.trans h.schedhash,
    fun sp => (h'.sch sp).trans (h.sch sp), fun sp => (h'.fp sp).trans (h.fp sp)⟩

theorem Fixed.sameSlots (h : Fixed s t) : SameSlots s t :=
  ⟨h.schedlist, h.schedhash, fun sp => Schk.sch_of_core (h.core sp),
    fun sp => Schk.fp_of_core (h.core sp)⟩

theorem sameSlots_setSchk {x : Schk} (hsch : x.sch = (s.schk sp).sch)
    (hfp : x.fp = (s.schk sp).fp) : SameSlots s (s.setSchk sp x) := by
  have hcases : ∀ sp', (s.setSchk sp x).schk sp' = x ∧ sp' = sp ∨
      (s.setSchk sp x).schk sp' = s.schk sp' := by
    intro sp'
    rcases eq_or_ne sp' sp with rfl | hne
    · exact .inl ⟨Function.update_self .., rfl⟩
    · exact .inr (Function.update_of_ne hne ..)
  refine ⟨rfl, rfl, fun sp' => ?_, fun sp' => ?_⟩ <;>
    rcases hcases sp' with ⟨heq, rfl⟩ | heq <;> rw [heq]
  · exact hsch
  · exact hfp

theorem SameSlots.inBucket {hash : BitVec 32} (h : SameSlots s t) :
    t.InBucket hash sp ↔ s.InBucket hash sp := by
  rw [Dn.InBucket, h.schedhash, Dn.InBucket]

theorem SameSlots.hasSched_iff (h : SameSlots s t) : t.HasSched n ↔ s.HasSched n := by
  refine exists_congr fun _ => exists_congr fun sp => and_congr h.inBucket ?_
  rw [show t.schedNr sp = s.schedNr sp from congrArg DnSch.schedNr (h.sch sp)]

theorem SameSlots.placed (h : SameSlots s t) (hs : s.Placed o) : t.Placed o :=
  fun hash sp hin hne => (hs hash sp (h.inBucket.1 hin) hne).congr h.schedlist h.inBucket.2
    (h.sch sp) (h.fp sp)

theorem Dn.Placed.weaken (h : s.Placed none) : s.Placed o := fun hash sp hin _ =>
  h hash sp hin (by simp)

/-- The one scheduler is good as well. -/
theorem Dn.Placed.complete (h : s.Placed (some sp)) (hsp : s.Good sp) : s.Placed none := by
  intro hash sp' hin _
  rcases eq_or_ne sp' sp with rfl | hne
  · exact hsp
  · exact h hash sp' hin (by simpa using hne)

theorem Wrote.placed (h : Wrote sp s t) (hs : s.Placed (some sp)) : t.Placed (some sp) :=
  fun hash sp' hin hne => (hs hash sp' (h.inBucket.1 hin) hne).congr h.schedlist h.inBucket.2
    (Schk.sch_of_core (h.core sp' (by simpa using hne)))
    (Schk.fp_of_core (h.core sp' (by simpa using hne)))

theorem Removed.placed (h : Removed sp s t) (hs : s.Placed (some sp)) : t.Placed none := by
  intro hash sp' hin _
  obtain ⟨hold, hne⟩ := (h.inBucket hash sp').1 hin
  exact (hs hash sp' hold (by simpa using hne)).congr h.schedlist
    (fun hown => (h.inBucket _ sp').2 ⟨hown, hne⟩) (Schk.sch_of_core (h.core sp' hne))
    (Schk.fp_of_core (h.core sp' hne))

theorem Added.placed (h : Added i sp s t) (hs : s.Placed none) : t.Placed (some sp) := by
  intro hash sp' hin hne
  have hne' : sp' ≠ sp := by simpa using hne
  exact (hs hash sp' ((h.only hin).resolve_right hne') (by simp)).congr h.schedlist h.keep
    (Schk.sch_of_core (h.core sp' hne')) (Schk.fp_of_core (h.core sp' hne'))

/-- What is in the table is found. -/
theorem Dn.Placed.hasSched_iff (h : s.Placed none) (hs : Tabled s) :
    s.HasSched n ↔ (s.findSched n).isSome := by
  constructor
  · rintro ⟨hash, sp, hin, rfl⟩
    have hgood := h hash sp hin (by simp)
    exact Option.isSome_iff_exists.2 ⟨sp, (hs.findSched_iff hgood.ne_zero).2 ⟨hgood.own, rfl⟩⟩
  · intro hsome
    obtain ⟨sp, hsp⟩ := Option.isSome_iff_exists.1 hsome
    exact ⟨_, sp, (inBucket_of_find hsp).1, (inBucket_of_find hsp).2⟩

/-- The same numbers are in the tables. -/
theorem Dn.Paired.congr (h : s.Paired) (hiff : ∀ n, t.HasSched n ↔ s.HasSched n) : t.Paired :=
  ⟨fun i hi => by rw [hiff, hiff]; exact h.twin i hi, fun n hn => h.range n ((hiff n).1 hn)⟩

/-! ### Enough memory -/

/-- Memory is never short, hash tables may have the sizes that are configured, and the FIFO
algorithm is loaded. -/
structure Dn.Ample (s : Dn) : Prop where
  malloc : ∀ n, s.env.malloc n = true
  hash : 1 ≤ s.parms.hashSize.toInt ∧ s.parms.hashSize.toInt ≤ 65536
  maxHash : 1 ≤ s.parms.maxHashSize.toInt ∧ s.parms.maxHashSize.toInt ≤ 65536
  fifo : SchedType.fifo ∈ s.schedlist

/-- The table of the schedulers is there as well. -/
structure Dn.Stocked (s : Dn) : Prop extends s.Ample where
  table : s.schedhash.isSome

theorem Fixed.ample (h : Fixed s t) (hs : s.Ample) : t.Ample := by
  obtain ⟨hhash, hmax⟩ := Prod.mk.inj h.size
  refine ⟨h.malloc hs.malloc, ?_, ?_, ?_⟩
  · rw [hhash]
    exact hs.hash
  · rw [hmax]
    exact hs.maxHash
  · rw [h.schedlist]
    exact hs.fifo

theorem Fixed.stocked (h : Fixed s t) (hs : s.Stocked) : t.Stocked :=
  ⟨h.ample hs.toAmple, by rw [h.schedhash]; exact hs.table⟩

theorem Dn.Stocked.of_eq (h : s.Stocked) (hlist : t.schedlist = s.schedlist)
    (htab : t.schedhash.isSome) (hparms : t.parms = s.parms) (henv : t.env = s.env) : t.Stocked :=
  ⟨⟨henv ▸ h.malloc, hparms ▸ h.hash, hparms ▸ h.maxHash, hlist ▸ h.fifo⟩, htab⟩

theorem dnHtInit_of_size {α : Type} {ok : Bool} {b : ℤ} (hok : ok = true) (hb : 1 ≤ b ∧ b ≤ 65536) :
    (dnHtInit (α := α) ok b).isSome := by
  unfold dnHtInit
  rw [if_neg (by omega), if_pos hok]
  rfl

theorem needSchedhash_stocked (h : s.Ample) : (needSchedhash s).Stocked := by
  unfold needSchedhash
  split
  · next ht hht => exact ⟨h, by rw [hht]; rfl⟩
  · exact ⟨⟨fun n => h.malloc (n + 1), h.hash, h.maxHash, h.fifo⟩,
      dnHtInit_of_size (h.malloc 0) h.hash⟩

theorem fskNew_ample {o : Option FskPtr} (ha : s.Ample) (h : fskNew s = (o, t)) : o.isSome := by
  unfold fskNew Dn.malloc at h
  simp only [ha.malloc, if_true] at h
  rw [← (Prod.mk.inj h).1]
  rfl

/-- **`config_fs`** with a number that is good does not fail. -/
theorem configFs_ample {c : FsConfig} {o : Option FskPtr} (ha : s.Ample)
    (hlen : c.head.oid.len = sizeofFs) (hpos : 0 < c.head.fsNr.toInt)
    (hlt : c.head.fsNr.toInt < (3 * dnMaxId).toInt) (hnr : c.head.schedNr ≠ 0)
    (h : configFs s c = some (o, t)) : o.isSome := by
  have hneed : (needFshash s).Ample ∧ (needFshash s).fshash.isSome := by
    refine ⟨(needFshash_fixed s).ample ha, ?_⟩
    unfold needFshash
    split
    · next ht hht => rw [hht]; rfl
    · exact dnHtInit_of_size (ha.malloc 0) ha.hash
  obtain ⟨ht, hht⟩ := Option.isSome_iff_exists.1 hneed.2
  obtain ⟨o', new, v, hv⟩ : ∃ o' new v,
      findOrNewFs (needFshash s) c.head.fsNr = (o', new, v) := ⟨_, _, _, rfl⟩
  have hsome : o'.isSome := by
    unfold findOrNewFs at hv
    rw [hht] at hv
    dsimp only at hv
    split at hv
    · rw [← (Prod.mk.inj hv).1]
      rfl
    · obtain ⟨o'', w, hw⟩ : ∃ o'' w, fskNew (needFshash s) = (o'', w) := ⟨_, _, rfl⟩
      obtain ⟨fp, rfl⟩ := Option.isSome_iff_exists.1 (fskNew_ample hneed.1 hw)
      rw [hw] at hv
      rw [← (Prod.mk.inj hv).1]
      rfl
  obtain ⟨fp, rfl⟩ := Option.isSome_iff_exists.1 hsome
  unfold configFs at h
  dsimp only at h
  rw [if_neg (by rw [not_or, not_or, not_le, not_le, not_not]; exact ⟨hlen, hpos, hlt⟩)] at h
  have hnr' : (c.bounded s.parms).head.schedNr ≠ 0 := hnr
  rw [if_pos hnr', hv] at h
  dsimp only at h
  split_ifs at h
  · obtain ⟨rfl, -⟩ := Prod.mk.inj (Option.some.inj h)
    rfl
  · obtain ⟨w, -, h⟩ := Option.bind_eq_some_iff.1 h
    obtain ⟨rfl, -⟩ := Prod.mk.inj (Option.some.inj h)
    rfl
  · obtain ⟨w, -, h⟩ := Option.bind_eq_some_iff.1 h
    obtain ⟨rfl, -⟩ := Prod.mk.inj (Option.some.inj h)
    rfl

/-- **The internal flowset** is found or made. -/
theorem internalFs_ample {ok : Bool} (ha : s.Ample) (hi : InRange i)
    (h : internalFs s sp kind i = some (ok, t)) : ok = true ∧ Fixed s t := by
  have hset : ∀ (u : Dn) (o : Option FskPtr), Fixed u (u.setSchk sp { u.schk sp with fs := o }) :=
    fun u o => fixed_setSchk rfl
  unfold internalFs at h
  split_ifs at h
  · obtain ⟨rfl, rfl⟩ := Prod.mk.inj (Option.some.inj h)
    exact ⟨rfl, .refl s⟩
  split at h
  · obtain ⟨rfl, rfl⟩ := Prod.mk.inj (Option.some.inj h)
    exact ⟨rfl, hset s _⟩
  obtain ⟨⟨o, u⟩, hconf, h⟩ := Option.bind_eq_some_iff.1 h
  obtain ⟨hpos, hlt⟩ := hi.fsNr
  have hsome : o.isSome := by
    refine configFs_ample ha ?_ ?_ ?_ ?_ hconf
    · rfl
    · exact hpos
    · exact hlt
    · exact hi.ne_zero
  dsimp only at h
  rw [if_pos hsome] at h
  obtain ⟨rfl, rfl⟩ := Prod.mk.inj (Option.some.inj h)
  exact ⟨rfl, (configFs_fixed hconf).trans (hset u o)⟩

/-! ### Requests -/

/-- The hash table of the instances may have the size that is asked for. -/
def fitsMask (buckets flags : BitVec 32) : Prop :=
  flags &&& dnHaveMask ≠ 0 → 1 ≤ buckets.toInt ∧ buckets.toInt ≤ 65536

/-- The request, and its part for the FIFO twin, ask for tables of good sizes. -/
structure SchedJob.Fits (j : SchedJob) : Prop where
  sch : fitsMask j.sch.buckets j.sch.flags
  pipe : ∀ c, j.pipe = some c → fitsMask c.2.1 c.2.2

/-- The algorithm of the request is loaded. -/
def SchedJob.Known (s : Dn) (j : SchedJob) : Prop :=
  (findSchedType s j.sch.oid.subtype j.sch.name).isSome

theorem findSchedType_isSome {type : BitVec 8} {name : List Char} (h : kind ∈ s.schedlist)
    (hk : BitVec.ofNat 8 kind.type = type ∨
      kind.name.map Char.toLower = name.map Char.toLower) :
    (findSchedType s type name).isSome :=
  List.find?_isSome.2 ⟨kind, h, decide_eq_true hk⟩

theorem findSchedType_mem {type : BitVec 8} {name : List Char}
    (h : findSchedType s type name = some kind) : kind ∈ s.schedlist :=
  List.mem_of_find?_eq_some h

/-- The request for the twin asks for FIFO. -/
theorem SchedJob.known_twin (j : SchedJob) (h : SchedType.fifo ∈ s.schedlist) : j.twin.Known s := by
  refine findSchedType_isSome h (.inl ?_)
  unfold SchedJob.twin
  rfl

theorem SchedJob.known_normal (j : SchedJob) (h : kind ∈ s.schedlist) : (j.normal kind).Known s :=
  findSchedType_isSome h (.inl rfl)

theorem SchedJob.Fits.twin (h : j.Fits) : j.twin.Fits := by
  refine ⟨?_, fun c hc => h.pipe c (by rwa [← j.twin_pipe])⟩
  obtain ⟨i, sch, p, pf, pipe⟩ := j
  cases pipe with
  | none => exact h.sch
  | some c => exact h.pipe c rfl

/-- What follows from `next`. -/
theorem SchedJob.Fits.next (h : j.Fits) (hfifo : SchedType.fifo ∈ s.schedlist)
    (hk : j.next s = .inr k) : k.Fits ∧ k.Known s := by
  obtain ⟨rfl, -⟩ := SchedJob.next_eq hk
  exact ⟨h.twin, j.known_twin hfifo⟩

/-- The numbers of buckets are bounded. -/
theorem SchedJob.start_fits (ha : s.Ample) (x : DnSch) : (SchedJob.start s x).Fits := by
  have hbound := @ipdnBoundVar_mem x.buckets.toInt s.parms.hashSize.toInt 1
    s.parms.maxHashSize.toInt ha.maxHash.1
  have hto : (boundWord x.buckets s.parms.hashSize.toInt 1 s.parms.maxHashSize.toInt).toInt =
      ipdnBoundVar x.buckets.toInt s.parms.hashSize.toInt 1 s.parms.maxHashSize.toInt := by
    refine BitVec.toInt_ofInt_eq_self (by decide) ?_ ?_
    · exact (by norm_num : (-2 ^ (32 - 1) : ℤ) ≤ 1).trans hbound.1
    · exact (hbound.2.trans ha.maxHash.2).trans_lt (by norm_num)
  have hand : ~~~dnPipeCmd &&& dnHaveMask = dnHaveMask := by decide
  have hfits : fitsMask (SchedJob.start s x).sch.buckets (SchedJob.start s x).sch.flags := by
    intro hflag
    have hmask : x.flags &&& dnHaveMask ≠ 0 := by
      change x.flags &&& ~~~dnPipeCmd &&& dnHaveMask ≠ 0 at hflag
      rwa [BitVec.and_assoc, hand] at hflag
    have heq : (SchedJob.start s x).sch.buckets =
        boundWord x.buckets s.parms.hashSize.toInt 1 s.parms.maxHashSize.toInt := if_pos hmask
    rw [heq, hto]
    exact ⟨hbound.1, hbound.2.trans ha.maxHash.2⟩
  have hpipe : (SchedJob.start s x).pipe = if x.flags &&& dnPipeCmd ≠ 0 then
      some ((SchedJob.start s x).sch.schedMask, (SchedJob.start s x).sch.buckets,
        (SchedJob.start s x).sch.flags) else none := rfl
  refine ⟨hfits, fun c hc => ?_⟩
  rw [hpipe] at hc
  split_ifs at hc
  obtain rfl := Option.some.inj hc
  exact hfits

/-! ### A round with enough memory -/

/-- **The lookup** finds a scheduler or makes one. -/
theorem findOrNewSched_stocked (ha : s.Stocked) (hfit : fitsMask x.buckets x.flags)
    (h : findOrNewSched s i x = (o, t)) : o.isSome ∧ t.Stocked := by
  have hm := ha.malloc
  obtain ⟨ht, hht⟩ := Option.isSome_iff_exists.1 ha.table
  unfold findOrNewSched at h
  rw [hht] at h
  dsimp only at h
  split at h
  · obtain ⟨rfl, rfl⟩ := Prod.mk.inj h
    exact ⟨rfl, ha⟩
  unfold schkNew at h
  simp only [Dn.malloc, Dn.alloc, hm, Bool.not_true, Bool.false_eq_true, if_false] at h
  split_ifs at h with hmask
  · have hsize : (dnHtInit (α := SiPtr) true x.buckets.toInt).isSome :=
      dnHtInit_of_size rfl (hfit hmask)
    obtain ⟨tab, htab⟩ := Option.isSome_iff_exists.1 hsize
    rw [htab] at h
    obtain ⟨rfl, rfl⟩ := Prod.mk.inj h
    exact ⟨rfl, ⟨fun _ => rfl, ha.hash, ha.maxHash, ha.fifo⟩, rfl⟩
  · obtain ⟨rfl, rfl⟩ := Prod.mk.inj h
    exact ⟨rfl, ⟨fun _ => rfl, ha.hash, ha.maxHash, ha.fifo⟩, rfl⟩

/-- **`schk_delete_cb`** of a scheduler that has left the table. -/
theorem schkDeleteCb_stocked (ha : s.Stocked) (h : schkDeleteCb s sp = some t) : t.Stocked := by
  obtain ⟨u, hu, -, ht⟩ := schkDeleteCb_fixed h
  exact Fixed.stocked (.of_eq ht) ((hu.stocked ha).of_eq (t := u.setSchk sp {}) rfl
    (hu.stocked ha).table rfl rfl)

theorem restoreLink_wrote (h : restoreLink s sp j = some t) (ha : s.Stocked) :
    Wrote sp s t ∧ t.Stocked := by
  unfold restoreLink at h
  split_ifs at h
  · obtain rfl := Option.some.inj h
    exact ⟨.refl sp s, ha⟩
  · obtain rfl := Option.some.inj h
    exact ⟨wrote_setSchk s sp _, ha.of_eq rfl ha.table rfl rfl⟩

/-- **`config_sched`** from the lookup of the scheduler on: it is replaced, or it is complete. -/
theorem configSchedAt_placed (hs : s.Placed (some sp)) (ha : s.Stocked) (hi : InRange j.i)
    (hin : s.InBucket (nrHash j.i) sp) (hkind : kind ∈ s.schedlist) (hnr : j.sch.schedNr = j.i)
    (h : configSchedAt s sp kind j = some (r, t)) :
    t.Placed none ∧ t.Stocked ∧ t.schedlist = s.schedlist ∧
      ((∃ p pf, r = .inr { j with p := p, pf := pf }) ∨
      r = ({ j with p := { j.p with linkNr := 0 } } : SchedJob).next t) := by
  obtain ⟨u, hu, h⟩ := Option.bind_eq_some_iff.1 h
  obtain ⟨hsu, hau⟩ := restoreLink_wrote hu ha
  have hpu := hsu.placed hs
  dsimp only at h
  split_ifs at h
  · obtain ⟨w, hw, h⟩ := Option.bind_eq_some_iff.1 h
    obtain ⟨rfl, rfl⟩ := Prod.mk.inj (Option.some.inj h)
    have hsave := (saveProfile_spec u sp j.pf).1
    set v := (saveProfile u sp j.pf).2
    have hav := hsave.stocked hau
    have hrem := (removed_map v sp).wrote (schkDeleteCb_wrote hw).1
    refine ⟨hrem.placed (hsave.sameSlots.placed hpu),
      schkDeleteCb_stocked (hav.of_eq ?_ ?_ ?_ ?_) hw,
      hrem.schedlist.trans (hsave.schedlist.trans hsu.schedlist), .inl ⟨_, _, rfl⟩⟩
    · rfl
    · exact (Option.isSome_map ..).trans hav.table
    · rfl
    · rfl
  · obtain ⟨⟨ok, v⟩, hv, h⟩ := Option.bind_eq_some_iff.1 h
    set u₁ := u.setSchk sp { u.schk sp with sch := j.sch, fp := some kind }
    have hself : u₁.schk sp = { u.schk sp with sch := j.sch, fp := some kind } :=
      Function.update_self ..
    have hau₁ : u₁.Stocked := hau.of_eq rfl hau.table rfl rfl
    have hwu₁ : Wrote sp u u₁ := wrote_setSchk u sp _
    have hnr₁ : u₁.schedNr sp = j.i :=
      (congrArg (fun x : Schk => x.sch.schedNr) hself).trans hnr
    have hgood : u₁.Good sp := by
      refine ⟨hnr₁ ▸ hi.ne_zero, ?_, kind, ?_, by rw [hself]⟩
      · rw [hnr₁]
        exact (hsu.trans hwu₁).inBucket.2 hin
      · rw [hwu₁.schedlist, hsu.schedlist]
        exact hkind
    obtain ⟨rfl, hfix⟩ := internalFs_ample hau₁.toAmple hi hv
    dsimp only at h
    rw [if_neg (by simp)] at h
    obtain ⟨w, hw, h⟩ := Option.bind_eq_some_iff.1 h
    obtain ⟨rfl, rfl⟩ := Prod.mk.inj (Option.some.inj h)
    have hall := hfix.trans (updateFs_fixed hw)
    exact ⟨hall.sameSlots.placed ((hwu₁.placed hpu).complete hgood), hall.stocked hau₁,
      hall.schedlist.trans (hwu₁.schedlist.trans hsu.schedlist), .inr rfl⟩

/-- How a round ends with enough memory. An error means that the algorithm is not known and that
nothing has changed. A request with which it goes round is for a known algorithm, unless it is the
one for the default algorithm. -/
structure RoundEnd (s : Dn) (j : SchedJob) (t : Dn) (r : ℕ ⊕ SchedJob) : Prop where
  placed : t.Placed none
  stocked : t.Stocked
  error : ∀ err, r = .inl err → err = 0 ∨ ¬ j.Known s ∧ ∀ n, t.findSched n = s.findSched n
  fits : ∀ k, r = .inr k → k.Fits
  known : ∀ k, r = .inr k →
    k.Known t ∨ ¬ j.Known s ∧ k.i = j.i ∧ ∀ n, t.findSched n = s.findSched n

/-- A round that comes to a scheduler. -/
theorem roundEnd_of_at (hs : u.Placed (some sp)) (ha : u.Stocked) (hi : InRange j.i)
    (hin : u.InBucket (nrHash j.i) sp) (hkind : kind ∈ u.schedlist) (hnr : j.sch.schedNr = j.i)
    (hfit : j.Fits) (h : configSchedAt u sp kind (j.normal kind) = some (r, t)) :
    RoundEnd s j t r := by
  obtain ⟨hp, hat, hlist, hcases⟩ :=
    configSchedAt_placed (j := j.normal kind) hs ha hi hin hkind hnr h
  rw [← hlist] at hkind
  have hfit' : ∀ p pf, SchedJob.Fits { j.normal kind with p := p, pf := pf } := fun _ _ =>
    ⟨hfit.sch, hfit.pipe⟩
  rcases hcases with ⟨p, pf, rfl⟩ | rfl
  · refine ⟨hp, hat, fun err he => absurd he (by simp), fun k hk => ?_, fun k hk => .inl ?_⟩
    · obtain rfl := Sum.inr.inj hk
      exact hfit' p pf
    · obtain rfl := Sum.inr.inj hk
      exact j.known_normal hkind
  · refine ⟨hp, hat, fun err he => .inl ?_, fun k hk => ?_, fun k hk => .inl ?_⟩
    · unfold SchedJob.next at he
      split_ifs at he <;> exact (Sum.inl.inj he).symm
    · exact ((hfit' _ j.pf).next hat.fifo hk).1
    · exact ((hfit' _ j.pf).next hat.fifo hk).2

/-- **One round of `config_sched`** with enough memory. -/
theorem configSchedRound_end (hp : s.Placed none) (ha : s.Stocked) (hok : j.Ok s)
    (hi : InRange j.i) (hfit : j.Fits) (h : configSchedRound s j = some (r, t)) :
    RoundEnd s j t r := by
  have hsu : Fixed s s.nextId := .of_eq rfl
  have hpu := hsu.sameSlots.placed hp
  have hau := hsu.stocked ha
  have hno : findSchedType s j.sch.oid.subtype j.sch.name = none → ¬ j.Known s := by
    intro hnone hknown
    rw [SchedJob.Known, hnone] at hknown
    exact absurd hknown (by simp)
  cases configSchedRound_cases h with
  | noMemory _ hv => exact absurd (findOrNewSched_stocked hau hfit.sch hv).1 (by simp)
  | known hkind hv hat =>
    have hmem := findSchedType_mem hkind
    have hav := (findOrNewSched_stocked hau hfit.sch hv).2
    rcases findOrNewSched_cases hok.nr hv with ⟨he, -⟩ | ⟨sp, he, hcases⟩
    · exact absurd he (by simp)
    obtain rfl := Option.some.inj he
    rcases hcases with ⟨hsp, rfl⟩ | ⟨hadd, -⟩
    · exact roundEnd_of_at hpu.weaken hau hi (inBucket_of_find hsp).1 hmem hok.nr hfit hat
    · exact roundEnd_of_at (hadd.placed hpu) hav hi hadd.new (hadd.schedlist.symm ▸ hmem) hok.nr
        hfit hat
  | pipe _ _ _ =>
    refine ⟨hpu, hau, fun err he => .inl ?_, fun k hk => ?_, fun k hk => .inl ?_⟩
    · unfold SchedJob.next at he
      split_ifs at he <;> exact (Sum.inl.inj he).symm
    · exact (hfit.next hau.fifo hk).1
    · exact (hfit.next hau.fifo hk).2
  | old _ _ hsp _ hkind hat =>
    have hin := (inBucket_of_find hsp).1
    obtain ⟨kind', hmem, hkind'⟩ := (hpu _ _ hin (by simp)).kind
    obtain rfl := Option.some.inj (hkind.symm.trans hkind')
    exact roundEnd_of_at hpu.weaken hau hi hin hmem hok.nr hfit hat
  | default hnone _ =>
    refine ⟨hpu, hau, fun err he => absurd he (by simp), fun k hk => ?_, fun k hk =>
      .inr ⟨hno hnone, ?_, fun _ => rfl⟩⟩
    · obtain rfl := Sum.inr.inj hk
      refine ⟨?_, hfit.pipe⟩
      unfold SchedJob.wf2q
      dsimp only
      split_ifs
      · have hand : ~~~dnHaveMask &&& dnHaveMask = 0 := by decide
        intro hmask
        dsimp only at hmask
        rw [BitVec.and_assoc, hand] at hmask
        exact absurd BitVec.and_zero hmask
      · exact hfit.sch
    · obtain rfl := Sum.inr.inj hk
      rfl
  | unknown hnone =>
    exact ⟨hpu, hau, fun _ _ => .inr ⟨hno hnone, fun _ => rfl⟩, fun k hk => absurd hk (by simp),
      fun k hk => absurd hk (by simp)⟩

/-! ### All rounds -/

/-- Only the two numbers of a request may change, and in the end both are there or nothing has
changed. -/
structure MadePair (s : Dn) (i : BitVec 32) (t : Dn) : Prop where
  tabled : Tabled t
  placed : t.Placed none
  others : ∀ n, n ≠ 0 → n ≠ i → n ≠ i + dnMaxId → t.findSched n = s.findSched n
  pair : (t.findSched i).isSome ∧ (t.findSched (i + dnMaxId)).isSome ∨
    (t.findSched i).isSome = (s.findSched i).isSome ∧
      t.findSched (i + dnMaxId) = s.findSched (i + dnMaxId)

/-- What holds when a round begins. For the scheduler `i`, its twin is as it was, and either the
algorithm is known or the scheduler is there if it was. For the twin, the scheduler `i` is there and
the algorithm is known. -/
structure PairRound (s : Dn) (i : BitVec 32) (u : Dn) (k : SchedJob) : Prop where
  tabled : Tabled u
  placed : u.Placed none
  stocked : u.Stocked
  ok : k.Ok u
  fits : k.Fits
  others : ∀ n, n ≠ 0 → n ≠ i → n ≠ i + dnMaxId → u.findSched n = s.findSched n
  place : k.i = i ∧ u.findSched (i + dnMaxId) = s.findSched (i + dnMaxId) ∧
      (k.Known u ∨ (u.findSched i).isSome = (s.findSched i).isSome) ∨
    k.i = i + dnMaxId ∧ (u.findSched i).isSome ∧ k.Known u

/-- The scheduler of a round is there, and what follows. -/
theorem Round.next_of_done (h : Round s j t r) :
    (∃ err, err ≠ 0 ∧ r = .inl err) ∨ (∃ k : SchedJob, r = .inr k ∧ k.i = j.i) ∨
      (t.findSched j.i).isSome ∧ ∃ k : SchedJob, k.i = j.i ∧ r = k.next t := by
  cases h with
  | fail hne => exact .inl ⟨_, hne, rfl⟩
  | default _ _ hlike _ => exact .inr (.inl ⟨_, rfl, hlike.i⟩)
  | replace _ _ _ hi _ _ _ _ => exact .inr (.inl ⟨_, rfl, hi⟩)
  | keep _ _ ht _ _ hlike _ hr => exact .inr (.inr ⟨by rw [ht]; rfl, _, hlike.i, hr⟩)
  | make _ ht _ _ hlike _ hr => exact .inr (.inr ⟨by rw [ht]; rfl, _, hlike.i, hr⟩)

/-- **A round** leads to the next one, or to the end. -/
theorem PairRound.round (h : PairRound s i u k) (hi : IsBase i)
    (hround : configSchedRound u k = some (r, t)) :
    (∃ err, r = .inl err ∧ MadePair s i t) ∨ ∃ k', r = .inr k' ∧ PairRound s i t k' := by
  have hlt := (isBase_iff.1 hi).2
  have htwin : ¬ (i + dnMaxId).toInt < dnMaxId.toInt :=
    not_lt.2 (twin_toInt (isBase_iff.1 hi).1 hlt)
  have hrange : InRange k.i := by
    rcases h.place with ⟨he, -⟩ | ⟨he, -⟩
    · exact he ▸ .inl hi
    · exact he ▸ .inr ⟨i, hi, rfl⟩
  obtain ⟨hframe, hcases⟩ := h.ok.round h.tabled hround
  have hend := configSchedRound_end h.placed h.stocked h.ok hrange h.fits hround
  have hothers : ∀ n, n ≠ 0 → n ≠ i → n ≠ i + dnMaxId → t.findSched n = s.findSched n :=
    fun n hn hne hne' => by
      refine ((hframe.others n hn ?_).1).trans (h.others n hn hne hne')
      rcases h.place with ⟨he, -⟩ | ⟨he, -⟩
      · rw [he]
        exact hne
      · rw [he]
        exact hne'
  have hok : ∀ k', r = .inr k' → k'.Ok t := by
    rintro k' rfl
    exact hcases.ok h.ok h.tabled
  rcases h.place with ⟨hki, hold, hnow⟩ | ⟨hki, hbase, hknown⟩
  · -- the scheduler itself
    have hold' : t.findSched (i + dnMaxId) = s.findSched (i + dnMaxId) :=
      (hframe.others _ hi.twin_ne_zero (by rw [hki]; exact add_dnMaxId_ne i)).1.trans hold
    rcases hcases.next_of_done with ⟨err, hne, rfl⟩ | ⟨k', rfl, hi'⟩ | ⟨hsome, k', hi', rfl⟩
    · obtain ⟨hno, hsame⟩ := (hend.error err rfl).resolve_left hne
      refine .inl ⟨err, rfl, hframe.tabled, hend.placed, hothers, .inr ⟨?_, hold'⟩⟩
      rw [hsame, hnow.resolve_left hno]
    · refine .inr ⟨k', rfl, hframe.tabled, hend.placed, hend.stocked, hok k' rfl, hend.fits k' rfl,
        hothers, .inl ⟨hi'.trans hki, hold', ?_⟩⟩
      refine (hend.known k' rfl).imp id fun hsame => ?_
      rw [hsame.2.2, hnow.resolve_left hsame.1]
    · rw [hki] at hsome
      rcases hnext : k'.next t with err | k''
      · refine .inl ⟨err, rfl, hframe.tabled, hend.placed, hothers, .inl ⟨hsome, ?_⟩⟩
        unfold SchedJob.next at hnext
        rw [hi', hki, if_pos hlt] at hnext
        split_ifs at hnext with hstay
        exact hstay.2
      · obtain ⟨rfl, -⟩ := SchedJob.next_eq hnext
        have hi'' : k'.twin.i = i + dnMaxId := by rw [k'.twin_i, hi', hki]
        refine .inr ⟨_, rfl, hframe.tabled, hend.placed, hend.stocked, hok _ hnext,
          hend.fits _ hnext, hothers, .inr ⟨hi'', hsome, k'.known_twin hend.stocked.fifo⟩⟩
  · -- the twin
    have hbase' : (t.findSched i).isSome := by
      rw [(hframe.others i hi.ne_zero (by rw [hki]; exact (add_dnMaxId_ne i).symm)).1]
      exact hbase
    rcases hcases.next_of_done with ⟨err, hne, rfl⟩ | ⟨k', rfl, hi'⟩ | ⟨hsome, k', hi', rfl⟩
    · exact absurd hknown ((hend.error err rfl).resolve_left hne).1
    · refine .inr ⟨k', rfl, hframe.tabled, hend.placed, hend.stocked, hok k' rfl, hend.fits k' rfl,
        hothers, .inr ⟨hi'.trans hki, hbase', ?_⟩⟩
      exact (hend.known k' rfl).resolve_right fun hno => hno.1 hknown
    · rw [hki] at hsome
      refine .inl ⟨0, ?_, hframe.tabled, hend.placed, hothers, .inl ⟨hbase', hsome⟩⟩
      unfold SchedJob.next
      rw [hi', hki, if_neg htwin]

/-- **All rounds.** -/
theorem PairRound.loop {m : ℕ} (h : PairRound s i u k) (hi : IsBase i)
    (hloop : configSchedLoop m u k = some (err, t)) : MadePair s i t := by
  induction m generalizing u k with
  | zero => exact absurd hloop (by simp [configSchedLoop])
  | succ m ih =>
    obtain ⟨⟨r, v⟩, hround, hloop⟩ := Option.bind_eq_some_iff.1 hloop
    rcases h.round hi hround with ⟨err', rfl, hmade⟩ | ⟨k', rfl, hk'⟩
    · obtain ⟨-, rfl⟩ := Prod.mk.inj (Option.some.inj hloop)
      exact hmade
    · exact ih hk' hloop

/-- **`config_sched`**: the pair is there, or no number has changed. -/
theorem configSched_pairs (hs : Tabled s) (hp : s.Placed none) (ha : s.Ample)
    (h : configSched s x = some (err, t)) : t = s ∨ IsBase x.schedNr ∧ MadePair s x.schedNr t := by
  rw [configSched_eq] at h
  split_ifs at h with hbad
  · obtain ⟨-, rfl⟩ := Prod.mk.inj (Option.some.inj h)
    exact .inl rfl
  rw [not_or, not_or, not_le, not_le] at hbad
  have hi : IsBase x.schedNr := isBase_iff.2 hbad.2
  obtain ⟨htab, hschk, hlist, hfind⟩ := needSchedhash_tabled hs
  have hplaced : (needSchedhash s).Placed none := by
    intro hash sp hin _
    have hin' : s.InBucket hash sp ∧ needSchedhash s = s := needSchedhash_inBucket hin
    rw [hin'.2]
    exact hp hash sp hin'.1 (by simp)
  have hstart : PairRound (needSchedhash s) x.schedNr (needSchedhash s) (.start s x) :=
    ⟨htab, hplaced, needSchedhash_stocked ha, ⟨hbad.2.1, rfl, .inl rfl⟩, SchedJob.start_fits ha x,
      fun _ _ _ _ => rfl, .inl ⟨rfl, rfl, .inr rfl⟩⟩
  obtain ⟨htab', hplaced', hothers, hpair⟩ := hstart.loop hi h
  refine .inr ⟨hi, htab', hplaced', fun n hn hne hne' =>
    (hothers n hn hne hne').trans (hfind n), ?_⟩
  rwa [hfind, hfind] at hpair

/-! ### The other objects -/

/-- **`delete_schk`** takes one number away. -/
theorem deleteSchk_pairs (hs : Tabled s) (hp : s.Placed none)
    (h : deleteSchk s i = some (err, t)) :
    Tabled t ∧ t.Placed none ∧ ∀ n, t.HasSched n ↔ n ≠ i ∧ s.HasSched n := by
  have ht := deleteSchk_tabled hs h
  unfold deleteSchk at h
  dsimp only at h
  split at h
  · next hfind =>
    obtain ⟨-, rfl⟩ := Prod.mk.inj (Option.some.inj h)
    rw [hfind] at ht ⊢
    set t : Dn := { s with schedhash := dnHtDrop s.schedhash none } with hteq
    have hin : ∀ hash sp, t.InBucket hash sp ↔ s.InBucket hash sp := by
      intro hash sp
      refine ⟨?_, fun hin => ?_⟩
      swap
      · have hkept := mem_dnHtDrop (o := none) hin (by simp)
        exact hkept
      rintro ⟨tab, hdrop, hmem⟩
      change dnHtDrop s.schedhash none = some tab at hdrop
      unfold dnHtDrop at hdrop
      dsimp only at hdrop
      split_ifs at hdrop
      exact ⟨tab, hdrop, hmem⟩
    refine ⟨ht, fun hash sp hsp _ => (hp hash sp ((hin hash sp).1 hsp) (by simp)).congr rfl
      (hin _ sp).2 rfl rfl, fun n => ?_⟩
    have hiff : t.HasSched n ↔ s.HasSched n := exists_congr fun hash => exists_congr fun sp =>
      and_congr (hin hash sp) Iff.rfl
    rw [hiff, iff_and_self]
    rintro hn rfl
    rw [hp.hasSched_iff hs, hfind] at hn
    exact absurd hn (by simp)
  · next sp hfind =>
    obtain ⟨⟨e, u⟩, hu, h⟩ := Option.bind_eq_some_iff.1 h
    obtain ⟨v, hv, h⟩ := Option.bind_eq_some_iff.1 h
    obtain ⟨-, rfl⟩ := Prod.mk.inj (Option.some.inj h)
    rw [hfind] at hu
    have hrem : Removed sp s v := (removed_drop s sp).wrote (((deleteFs_fixed hu).wrote sp).trans
      (schkDeleteCb_wrote hv).1)
    have hpv := hrem.placed hp.weaken
    have hi : i ≠ 0 := by
      obtain ⟨hin, hnr⟩ := inBucket_of_find hfind
      exact hnr ▸ (hp _ sp hin (by simp)).ne_zero
    obtain ⟨hnone, hothers⟩ := hrem.findSched hs hi hfind
    refine ⟨ht, hpv, fun n => ?_⟩
    rw [hpv.hasSched_iff ht, hp.hasSched_iff hs]
    rcases eq_or_ne n i with rfl | hne
    · rw [hnone]
      simp
    rcases eq_or_ne n 0 with rfl | hn
    · have hzero : ∀ {w : Dn}, w.Placed none → ¬ (w.findSched 0).isSome := by
        intro w hw hsome
        obtain ⟨sp', hsp'⟩ := Option.isSome_iff_exists.1 hsome
        obtain ⟨hin, hnr⟩ := inBucket_of_find hsp'
        exact (hw _ sp' hin (by simp)).ne_zero hnr
      exact ⟨fun hsome => absurd hsome (hzero hpv), fun hsome => absurd hsome.2 (hzero hp)⟩
    · rw [(hothers n hn hne).1]
      simp [hne]

theorem setLink_sameSlots {p : DnLink} (h : setLink s sp i p = some t) : SameSlots s t := by
  unfold setLink at h
  dsimp only at h
  have hend : ∀ {u : Dn}, SameSlots s u →
      schkResetCredit (u.setSchk sp { u.schk sp with
        link := { (u.schk sp).link with burst := p.burst } }) sp = t → SameSlots s t := by
    rintro u hu rfl
    have hburst : SameSlots u (u.setSchk sp { u.schk sp with
        link := { (u.schk sp).link with burst := p.burst } }) := sameSlots_setSchk rfl rfl
    exact (hu.trans hburst).trans (schkResetCredit_fixed _ sp).sameSlots
  set u := s.setSchk sp { s.schk sp with
    profile := none
    link := { (s.schk sp).link with
      oid := p.oid, linkNr := i, delay := p.delay, bandwidth := p.bandwidth } }
  have hsu : SameSlots s u := sameSlots_setSchk rfl rfl
  split_ifs at h
  · obtain ⟨v, hv, h⟩ := Option.bind_eq_some_iff.1 h
    exact hend (hsu.trans (updateRed_fixed hv).sameSlots) (Option.some.inj h)
  · exact hend hsu (Option.some.inj h)

/-- **`config_link`** changes no number. If it fails after the first scheduler was changed, the twin
is missing. -/
theorem configLink_pairs {p : DnLink} (h : configLink s p = some (err, t)) :
    SameSlots s t ∧ (err = 0 ∨ t = s ∨ IsBase p.linkNr ∧ (s.findSched p.linkNr).isSome ∧
      s.findSched (p.linkNr + dnMaxId) = none) := by
  unfold configLink at h
  dsimp only at h
  split at h
  · obtain ⟨-, rfl⟩ := Prod.mk.inj (Option.some.inj h)
    exact ⟨.refl s, .inr (.inl rfl)⟩
  next hbad =>
  rw [not_or, not_or, not_le, not_le] at hbad
  split at h
  · obtain ⟨-, rfl⟩ := Prod.mk.inj (Option.some.inj h)
    exact ⟨.refl s, .inr (.inl rfl)⟩
  next sp hfind =>
  obtain ⟨u, hu, h⟩ := Option.bind_eq_some_iff.1 h
  have hsu := setLink_sameSlots hu
  split at h
  · next hnone =>
    obtain ⟨-, rfl⟩ := Prod.mk.inj (Option.some.inj h)
    refine ⟨hsu, .inr (.inr ⟨isBase_iff.2 hbad.2, by rw [hfind]; rfl, ?_⟩)⟩
    rw [← findSched_congr hsu.schedhash hsu.sch]
    exact hnone
  · obtain ⟨v, hv, h⟩ := Option.bind_eq_some_iff.1 h
    obtain ⟨rfl, rfl⟩ := Prod.mk.inj (Option.some.inj h)
    exact ⟨(hsu.trans (setLink_sameSlots hv)).trans ⟨rfl, rfl, fun _ => rfl, fun _ => rfl⟩,
      .inl rfl⟩

theorem setProfile_sameSlots {pf : DnProfile} {ok : Bool} (h : setProfile s sp pf = (ok, t)) :
    SameSlots s t ∧ ((∀ n, s.env.malloc n = true) → ok = true ∧ ∀ n, t.env.malloc n = true) := by
  have hset : ∀ o : Option DnProfile,
      SameSlots s (s.setSchk sp { s.schk sp with profile := o }) := fun o =>
    sameSlots_setSchk rfl rfl
  unfold setProfile at h
  dsimp only at h
  split at h
  · obtain ⟨rfl, rfl⟩ := Prod.mk.inj h
    exact ⟨hset _, fun hm => ⟨rfl, hm⟩⟩
  · split at h
    · obtain ⟨rfl, rfl⟩ := Prod.mk.inj h
      exact ⟨hset _, fun hm => ⟨rfl, hm⟩⟩
    · obtain ⟨rfl, rfl⟩ := Prod.mk.inj h
      exact ⟨(fixed_malloc s).sameSlots.trans (sameSlots_setSchk rfl rfl),
        fun hm => ⟨hm 0, fun n => hm (n + 1)⟩⟩

/-- **`config_profile`** changes no number. If it fails after the first scheduler was changed, the
twin is missing or there is no memory. -/
theorem configProfile_pairs {pf : DnProfile} (h : configProfile s pf = (err, t)) :
    SameSlots s t ∧ ((∀ n, s.env.malloc n = true) → err = 0 ∨ t = s ∨ IsBase pf.linkNr ∧
      (s.findSched pf.linkNr).isSome ∧ s.findSched (pf.linkNr + dnMaxId) = none) := by
  have hid : ∀ u : Dn, SameSlots u { u with id := u.id + 1 } := fun u =>
    ⟨rfl, rfl, fun _ => rfl, fun _ => rfl⟩
  unfold configProfile at h
  dsimp only at h
  split at h
  · obtain ⟨-, rfl⟩ := Prod.mk.inj h
    exact ⟨.refl s, fun _ => .inr (.inl rfl)⟩
  next hbad =>
  rw [not_or, not_or, not_le, not_le] at hbad
  split at h
  · obtain ⟨-, rfl⟩ := Prod.mk.inj h
    exact ⟨.refl s, fun _ => .inr (.inl rfl)⟩
  next sp hfind =>
  obtain ⟨ok, u, hu⟩ : ∃ ok u, setProfile { s with id := s.id + 1 } sp pf = (ok, u) := ⟨_, _, rfl⟩
  obtain ⟨hsu, hmu⟩ := setProfile_sameSlots hu
  have hsu' := (hid s).trans hsu
  rw [hu] at h
  cases ok with
  | false =>
    obtain ⟨-, rfl⟩ := Prod.mk.inj h
    exact ⟨hsu', fun hm => absurd (hmu hm).1 (by simp)⟩
  | true =>
    dsimp only at h
    split at h
    · next hnone =>
      obtain ⟨-, rfl⟩ := Prod.mk.inj h
      refine ⟨hsu', fun _ => .inr (.inr ⟨isBase_iff.2 hbad.2, by rw [hfind]; rfl, ?_⟩)⟩
      rw [← findSched_congr hsu'.schedhash hsu'.sch]
      exact hnone
    · next sp' hfind' =>
      obtain ⟨ok, v, hv⟩ : ∃ ok v, setProfile { u with id := u.id + 1 } sp' pf = (ok, v) :=
        ⟨_, _, rfl⟩
      obtain ⟨huv, hmv⟩ := setProfile_sameSlots hv
      have hall := hsu'.trans ((hid u).trans huv)
      rw [hv] at h
      cases ok with
      | false =>
        obtain ⟨-, rfl⟩ := Prod.mk.inj h
        exact ⟨hall, fun hm => absurd (hmv (hmu hm).2).1 (by simp)⟩
      | true =>
        obtain ⟨rfl, rfl⟩ := Prod.mk.inj h
        exact ⟨hall, fun _ => .inl rfl⟩

/-! ### An object of a message -/

theorem MadePair.hasSched_iff (h : MadePair s i t) (hs : Tabled s) (hp : s.Placed none) (hn : n ≠ 0)
    (hne : n ≠ i) (hne' : n ≠ i + dnMaxId) : t.HasSched n ↔ s.HasSched n := by
  rw [h.placed.hasSched_iff h.tabled, hp.hasSched_iff hs, h.others n hn hne hne']

/-- **A pair that is made** leaves the others. -/
theorem MadePair.keeps_pairs (h : MadePair s i t) (hs : Tabled s) (hp : s.Placed none)
    (hi : IsBase i) (hpair : s.Paired) : t.Paired := by
  refine ⟨fun i' hi' => ?_, fun n hn => ?_⟩
  · rcases eq_or_ne i' i with rfl | hne
    · have hold := hpair.twin i' hi
      rw [hp.hasSched_iff hs, hp.hasSched_iff hs] at hold
      rw [h.placed.hasSched_iff h.tabled, h.placed.hasSched_iff h.tabled]
      rcases h.pair with ⟨hbase, htwin⟩ | ⟨hbase, htwin⟩
      · exact ⟨fun _ => htwin, fun _ => hbase⟩
      · rw [hbase, htwin]
        exact hold
    · have hbase : i' ≠ i + dnMaxId := fun he => hi.not_twin (he ▸ hi')
      have htwin : i' + dnMaxId ≠ i := fun he => hi'.not_twin (he.symm ▸ hi)
      have htwin' : i' + dnMaxId ≠ i + dnMaxId := fun he => hne (add_right_cancel he)
      rw [h.hasSched_iff hs hp hi'.ne_zero hne hbase,
        h.hasSched_iff hs hp hi'.twin_ne_zero htwin htwin']
      exact hpair.twin i' hi'
  · by_cases hne : n = i
    · exact .inl (hne ▸ hi)
    by_cases hne' : n = i + dnMaxId
    · exact .inr ⟨i, hi, hne'⟩
    have hzero : n ≠ 0 := by
      obtain ⟨hash, sp, hin, rfl⟩ := hn
      exact (h.placed hash sp hin (by simp)).ne_zero
    exact hpair.range n ((h.hasSched_iff hs hp hzero hne hne').1 hn)

/-- What a delete command for a link must meet: its number is the one of a scheduler that
`config_sched` accepts, or it deletes nothing. -/
def Dn.DeletesPair (s : Dn) : DnObj → Prop
  | .delete oid a => ¬ oid.len.ult 16 → oid.subtype = 1 → IsBase (a.setWidth 32) ∨
      ¬ s.HasSched (a.setWidth 32) ∧ ¬ s.HasSched (a.setWidth 32 + dnMaxId)
  | _ => True

/-- Two numbers are taken away. -/
theorem Dn.Paired.delete_iff (h : s.Paired)
    (ht : ∀ n, t.HasSched n ↔ n ≠ i + dnMaxId ∧ n ≠ i ∧ s.HasSched n) :
    t.Paired ↔ IsBase i ∨ ¬ s.HasSched i ∧ ¬ s.HasSched (i + dnMaxId) := by
  have hother : ∀ {i'}, IsBase i' → i' ≠ i → i' ≠ i + dnMaxId → s.HasSched i' → t.HasSched i' :=
    fun _ hne hne' hn => (ht _).2 ⟨hne', hne, hn⟩
  constructor
  · intro hpair
    by_contra hno
    rw [not_or] at hno
    obtain ⟨hbase, hsome⟩ := hno
    refine hsome ⟨fun hi => ?_, fun hi => ?_⟩
    · -- the twin goes, its scheduler stays
      obtain ⟨i', hi', rfl⟩ := (h.range i hi).resolve_left hbase
      have hstays := hother hi' (add_dnMaxId_ne i').symm (add_dnMaxId_twice_ne i').symm
        ((h.twin i' hi').2 hi)
      exact ((ht _).1 ((hpair.twin i' hi').1 hstays)).2.1 rfl
    · -- the scheduler goes, its twin stays
      rcases h.range _ hi with hi' | ⟨i', hi', he⟩
      · have hstays := (ht (i + dnMaxId + dnMaxId)).2 ⟨add_dnMaxId_ne _, add_dnMaxId_twice_ne i,
          (h.twin _ hi').1 hi⟩
        exact ((ht _).1 ((hpair.twin _ hi').2 hstays)).1 rfl
      · exact hbase (add_right_cancel he ▸ hi')
  · rintro (hi | ⟨hi, hi'⟩)
    · refine ⟨fun i' hi' => ?_, fun n hn => h.range n ((ht n).1 hn).2.2⟩
      have hbase : i' ≠ i + dnMaxId := fun he => hi.not_twin (he ▸ hi')
      have htwin : i' + dnMaxId ≠ i := fun he => hi'.not_twin (he.symm ▸ hi)
      have hcancel : i' + dnMaxId ≠ i + dnMaxId ↔ i' ≠ i := (add_left_injective dnMaxId).ne_iff
      rw [ht, ht, hcancel, h.twin i' hi']
      simp [hbase, htwin]
    · refine h.congr fun n => ?_
      rw [ht]
      refine ⟨fun hn => hn.2.2, fun hn => ⟨?_, ?_, hn⟩⟩
      · rintro rfl
        exact hi' hn
      · rintro rfl
        exact hi hn

/-- The schedulers of the table stay good. -/
theorem doObject_placed {o : DnObj} (hs : Tabled s) (hp : s.Placed none) (ha : s.Ample)
    (h : doObject s o = some (err, t)) : t.Placed none := by
  cases doObject_handled h with
  | skip _ => exact hp
  | flush hf => exact fun _ _ hin => absurd hin (dummynetFlush_empty hf)
  | link hl => exact (configLink_pairs hl).1.placed hp
  | profile hpf => exact (configProfile_pairs hpf).1.placed hp
  | sch hc =>
    rcases configSched_pairs hs hp ha hc with rfl | ⟨-, hmade⟩
    · exact hp
    · exact hmade.placed
  | fs hc => exact (configFs_fixed hc).sameSlots.placed hp
  | deleteLink _ _ hu hv =>
    obtain ⟨htu, hpu, -⟩ := deleteSchk_pairs hs hp hu
    exact (deleteSchk_pairs htu hpu hv).2.1
  | deleteFs _ hd => exact (deleteFs_fixed hd).sameSlots.placed hp

/-- **An object of a message** keeps the pairs, unless it deletes one half of a pair. -/
theorem doObject_paired_iff {o : DnObj} (hs : Tabled s) (hp : s.Placed none) (ha : s.Ample)
    (hpair : s.Paired) (h : doObject s o = some (err, t)) : t.Paired ↔ s.DeletesPair o := by
  have hsame : SameSlots s t → t.Paired := fun hsame => hpair.congr fun _ => hsame.hasSched_iff
  cases doObject_handled h with
  | skip hno =>
    refine iff_of_true hpair ?_
    cases o with
    | delete oid a => exact fun hlen hsub => absurd (hno oid a rfl hsub) hlen
    | _ => trivial
  | flush hf =>
    have hnone : ∀ n, ¬ t.HasSched n := fun n ⟨_, _, hin, _⟩ => dummynetFlush_empty hf hin
    exact iff_of_true ⟨fun i _ => iff_of_false (hnone i) (hnone _),
      fun n hn => absurd hn (hnone n)⟩ trivial
  | link hl => exact iff_of_true (hsame (configLink_pairs hl).1) trivial
  | profile hpf => exact iff_of_true (hsame (configProfile_pairs hpf).1) trivial
  | sch hc =>
    refine iff_of_true ?_ trivial
    rcases configSched_pairs hs hp ha hc with rfl | ⟨hi, hmade⟩
    · exact hpair
    · exact hmade.keeps_pairs hs hp hi hpair
  | fs hc => exact iff_of_true (hsame (configFs_fixed hc).sameSlots) trivial
  | deleteLink hlen hsub hu hv =>
    obtain ⟨htu, hpu, hnu⟩ := deleteSchk_pairs hs hp hu
    obtain ⟨-, -, hnv⟩ := deleteSchk_pairs htu hpu hv
    rw [hpair.delete_iff fun n => by rw [hnv, hnu]]
    exact ⟨fun hd _ _ => hd, fun hd => hd hlen hsub⟩
  | deleteFs hsub hd =>
    refine iff_of_true (hsame (deleteFs_fixed hd).sameSlots) fun _ he => ?_
    rw [he] at hsub
    exact absurd hsub (by decide)

/-! ### Runs -/

variable {C : Dn → DnObj → Prop} {parms : DnParms} {schedlist : List SchedType}

/-- With enough memory, the schedulers of the table are good in every state. -/
theorem Dn.ReachBy.placed (h : Dn.ReachBy C parms schedlist s) (hC : ∀ s o, C s o → s.Ample) :
    s.Placed none := by
  induction h with
  | init => exact fun _ _ ⟨_, hht, _⟩ => absurd hht (by simp [Dn.init])
  | @env s e log _ ih => exact SameSlots.placed (s := s) ⟨rfl, rfl, fun _ => rfl, fun _ => rfl⟩ ih
  | @sysctl s parms' _ ih =>
    exact SameSlots.placed (s := s) ⟨rfl, rfl, fun _ => rfl, fun _ => rfl⟩ ih
  | io _ h ih => exact (dummynetIo_fixed h).sameSlots.placed ih
  | task _ h ih => exact (dummynetTask_fixed h).sameSlots.placed ih
  | object hs ho h ih => exact doObject_placed hs.reach.tabled ih (hC _ _ ho) h

/-- There is enough memory, and no delete command takes one half of a pair. -/
def KeepsPairs (s : Dn) (o : DnObj) : Prop := s.Ample ∧ s.DeletesPair o

/-- **Schedulers exist in pairs** as long as no delete command takes one half of a pair, and
`config_link` and `config_profile` do not fail half way. -/
theorem Dn.ReachBy.paired (h : Dn.ReachBy KeepsPairs parms schedlist s) :
    s.Paired ∧
      (∀ p err t, configLink s p = some (err, t) → err = 0 ∨ t = s) ∧
      (∀ pf err t, (∀ n, s.env.malloc n = true) → configProfile s pf = (err, t) →
        err = 0 ∨ t = s) ∧
      ∀ o err t, s.Ample → doObject s o = some (err, t) → (t.Paired ↔ s.DeletesPair o) := by
  have hplaced := h.placed fun _ _ ho => ho.1
  have htab := h.reach.tabled
  have hpair : s.Paired := by
    clear hplaced htab
    induction h with
    | init =>
      have hnone : ∀ n, ¬ (Dn.init parms schedlist).HasSched n := fun n ⟨_, _, ⟨_, hht, _⟩, _⟩ =>
        absurd hht (by simp [Dn.init])
      exact ⟨fun i _ => iff_of_false (hnone i) (hnone _), fun n hn => absurd hn (hnone n)⟩
    | env e log _ ih => exact ih.congr fun _ => Iff.rfl
    | sysctl parms' _ ih => exact ih.congr fun _ => Iff.rfl
    | io _ h ih => exact ih.congr fun _ => (dummynetIo_fixed h).sameSlots.hasSched_iff
    | task _ h ih => exact ih.congr fun _ => (dummynetTask_fixed h).sameSlots.hasSched_iff
    | object hs ho h ih =>
      exact (doObject_paired_iff hs.reach.tabled (hs.placed fun _ _ ho => ho.1) ho.1 ih h).2 ho.2
  have htwin : ∀ i, ¬ (IsBase i ∧ (s.findSched i).isSome ∧ s.findSched (i + dnMaxId) = none) := by
    rintro i ⟨hi, hsome, hnone⟩
    have hiff := hpair.twin i hi
    rw [hplaced.hasSched_iff htab, hplaced.hasSched_iff htab, hnone] at hiff
    exact absurd (hiff.1 hsome) (by simp)
  refine ⟨hpair, fun p err t hl => ?_, fun pf err t hm hpf => ?_, fun o err t ha ho =>
    doObject_paired_iff htab hplaced ha hpair ho⟩
  · exact (configLink_pairs hl).2.imp_right fun hfail => hfail.resolve_right (htwin _)
  · exact ((configProfile_pairs hpf).2 hm).imp_right fun hfail => hfail.resolve_right (htwin _)

/-- Scheduler 1 with its twin. -/
theorem paired_schedOne : ∃ s, configSched (Dn.init {} [.fifo, .wf2qp, .rr]) (schedOne 2) =
    some (0, s) ∧ s.HasSched 65537 ∧ s.Paired := by
  have hexec : (configSched (Dn.init {} [.fifo, .wf2qp, .rr]) (schedOne 2)).any
      (fun r => decide (r.1 = 0 ∧ (r.2.findSched 65537).isSome)) = true := by decide +kernel
  obtain ⟨⟨err, s⟩, hs, hexec⟩ := (Option.any_eq_true _ _).1 hexec
  obtain ⟨rfl, hsome⟩ : err = 0 ∧ (s.findSched 65537).isSome := of_decide_eq_true hexec
  have hample : (Dn.init {} [.fifo, .wf2qp, .rr]).Ample :=
    ⟨fun _ => rfl, by decide, by decide, by decide⟩
  have hreach : Dn.ReachBy KeepsPairs {} [.fifo, .wf2qp, .rr] s :=
    .object (o := .sch (schedOne 2)) .init ⟨hample, trivial⟩ hs
  obtain ⟨sp, hsp⟩ := Option.isSome_iff_exists.1 hsome
  exact ⟨s, hs, ⟨_, sp, inBucket_of_find hsp⟩, (Dn.ReachBy.paired hreach).1⟩

/-- Scheduler 1 and its twin in a state with enough memory, and then the delete command for the link
65537. -/
def halfDeleted : Option (Dn × Dn) := do
  let (_, s) ← configSched (Dn.init {} [.fifo, .wf2qp, .rr]) (schedOne 2)
  let s := { s with env := {}, log := [] }
  let (_, t) ← doDelete s { len := 16, subtype := 1 } 65537
  pure (s, t)

/-- The delete command for the link 65537 deletes the twin of scheduler 1 alone. -/
theorem not_paired : ¬ ∀ (parms : DnParms) (schedlist : List SchedType) (s : Dn),
    Dn.ReachBy (fun s _ => s.Ample) parms schedlist s → s.Paired := by
  intro h
  have hrun : halfDeleted.any (fun r => decide (r.1.schedlist = [.fifo, .wf2qp, .rr]) &&
      decide (r.1.parms.hashSize = 64 ∧ r.1.parms.maxHashSize = 1024) &&
      (r.2.findSched 1).isSome && (r.2.findSched 65537).isNone) = true := by decide +kernel
  obtain ⟨⟨s, t⟩, hdel, hrun⟩ := (Option.any_eq_true ..).1 hrun
  simp only [Bool.and_eq_true, decide_eq_true_eq] at hrun
  obtain ⟨⟨⟨hlist, hhash, hmax⟩, hone⟩, htwin⟩ := hrun
  unfold halfDeleted at hdel
  obtain ⟨⟨err, u⟩, hu, hdel⟩ := Option.bind_eq_some_iff.1 hdel
  obtain ⟨⟨err', v⟩, hv, hdel⟩ := Option.bind_eq_some_iff.1 hdel
  obtain ⟨rfl, rfl⟩ := Prod.mk.inj (Option.some.inj hdel)
  have hample : (Dn.init {} [.fifo, .wf2qp, .rr]).Ample :=
    ⟨fun _ => rfl, by decide, by decide, by decide⟩
  have hu' : Dn.ReachBy (fun s _ => s.Ample) {} [.fifo, .wf2qp, .rr]
      { u with env := {}, log := [] } :=
    .env {} [] (.object (o := .sch (schedOne 2)) .init hample hu)
  have hv' : Dn.ReachBy (fun s _ => s.Ample) {} [.fifo, .wf2qp, .rr] v := by
    refine .object (o := .delete { len := 16, subtype := 1 } 65537) hu'
      ⟨fun _ => rfl, ?_, ?_, ?_⟩ hv
    · rw [hhash]
      decide
    · rw [hmax]
      decide
    · rw [hlist]
      decide
  have hplaced := hv'.placed fun _ _ ha => ha
  have htab := hv'.reach.tabled
  have hiff := (h _ _ _ hv').twin 1 (by decide)
  rw [hplaced.hasSched_iff htab, hplaced.hasSched_iff htab] at hiff
  have hnone : v.findSched (1 + dnMaxId) = none := Option.isNone_iff_eq_none.1 htwin
  rw [hnone] at hiff
  exact absurd (hiff.1 hone) (by simp)

end Dummynet
