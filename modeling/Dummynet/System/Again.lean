import Dummynet.System.Replace

/-!
# Flowsets that are configured again

A request of `config_fs` changes nothing if it is the same as the stored configuration, byte by byte.
But the stored configuration is not the request: `fsk_attach` writes a flag, the scheduling algorithm
bounds the parameters, and `config_red` gives up the flags for RED without memory.

## Main definitions

* `Dn.completed`, `SchedType.attachFs`: the request with the values that it takes from the flowset, and
  what is stored for it.
* `Dn.Unchanged`: the same request has no effect, whatever is in the queues then.
* `Dn.Stable`: the conditions on a request.

## Main results

* `changeFs_stored`: what is stored.
* `configFs_again_iff`: when a request that is made again has no effect.
-/

namespace Dummynet

variable {s t u v : Dn} {fp : FskPtr} {sp : SchkPtr} {i : BitVec 32} {c x : FsConfig} {kind : SchedType}

/-! ### What is stored -/

/-- What the bounds of `config_fs` depend on. -/
def DnParms.limits (p : DnParms) : BitVec 32 × BitVec 32 × BitVec 64 × BitVec 64 :=
  (p.hashSize, p.maxHashSize, p.byteLimit, p.slotLimit)

/-- The configuration of the flowset with a number, or of a new one. -/
def Dn.storedFs (s : Dn) (i : BitVec 32) : FsConfig :=
  match s.findFs i with
  | some fp => (s.fsk fp).fs
  | none => ⟨{ oid := { type := 2, len := sizeofFs } }, zeroFs⟩

/-- A request with the values that it takes from the flowset. -/
def Dn.completed (s : Dn) (c : FsConfig) : FsConfig :=
  (c.bounded s.parms).inherit (s.storedFs c.head.fsNr)

/-- The parameters as the algorithm bounds them. -/
def SchedType.boundPar (k : SchedType) (par : Fin 4 → ℤ) : Fin 4 → ℤ :=
  (k.desc.newFsk { fs := { par := par } }).fs.par

/-- The mask of the queues of a flowset. -/
def DnSch.fskMask (sch : DnSch) (mask : FlowId) : FlowId :=
  if sch.flags &&& dnHaveMask ≠ 0 then flowIdOr sch.schedMask mask else mask

/-- The flag for a hash table of queues. -/
def hashFlag (mask : FlowId) (flags : BitVec 32) : BitVec 32 :=
  if nonzeroMask mask then flags ||| dnQhtHash else flags &&& ~~~dnQhtHash

/-- The flags for RED, which go if `config_red` has no memory. -/
def redFlags (ok : Bool) (flags : BitVec 32) : BitVec 32 :=
  if flags &&& dnIsRed ≠ 0 ∧ ok = false then flags &&& ~~~dnIsRed &&& ~~~dnIsGentleRed else flags

/-- What `fsk_attach` makes of a configuration. -/
def SchedType.attachFs (k : SchedType) (mask : FlowId) (ok : Bool) (fs : DnFs) : DnFs :=
  { fs with
    par := k.boundPar fs.par
    flags := redFlags ok (hashFlag mask fs.flags) }

/-- How many allocations `config_fs` makes before the one of `config_red`. -/
def Dn.allocsFs (s : Dn) (i : BitVec 32) : ℕ :=
  (if s.fshash.isNone then 1 else 0) + if (s.findFs i).isNone then 1 else 0

/-- A request that has been accepted has no effect when it is made again, as long as the flowset has
its configuration and the limits are the same: `config_fs` finds no change. -/
def Dn.Unchanged (t : Dn) (fp : FskPtr) (c : FsConfig) : Prop :=
  ∀ u : Dn, (u.fsk fp).fs = (t.fsk fp).fs → u.findFs c.head.fsNr = some fp →
    u.parms.limits = t.parms.limits →
      (u.fsk fp).fs = (c.bounded u.parms).inherit (u.fsk fp).fs ∧ configFs u c = some (some fp, u)

/-- The conditions on a request for the scheduler `sp`: it has the flag for a hash table exactly if the
masks of the flowset and of the scheduler are not both zero; `config_red` has memory, if it has the flag
for RED; and the algorithm accepts the parameters that are set. -/
structure Dn.Stable (s : Dn) (sp : SchkPtr) (c : FsConfig) : Prop where
  hash : c.fs.flags &&& dnQhtHash ≠ 0 ↔ nonzeroMask ((s.schk sp).sch.fskMask c.head.flowMask)
  red : c.fs.flags &&& dnIsRed ≠ 0 → s.env.malloc (s.allocsFs c.head.fsNr) = true
  par : ∀ kind, (s.schk sp).fp = some kind → ∀ j, c.fs.par j ≠ -1 →
    kind.boundPar (s.completed c).fs.par j = c.fs.par j

/-- The algorithms change only the parameters, which depend on nothing else. -/
theorem newFsk_fs (k : SchedType) (f : DnFsk) :
    (k.desc.newFsk f).fs = { f.fs with par := k.boundPar f.fs.par } := by
  cases k <;> rfl

/-! ### Flags -/

theorem hashFlag_eq_iff {mask : FlowId} {flags : BitVec 32} :
    hashFlag mask flags = flags ↔ (flags &&& dnQhtHash ≠ 0 ↔ nonzeroMask mask) := by
  have hbit : dnQhtHash = BitVec.twoPow 32 2 := by decide
  have hzero : flags &&& dnQhtHash = 0 ↔ flags.getLsbD 2 = false := by
    rw [hbit]
    exact Bits.and_twoPow_eq_zero flags (by decide)
  have hset : flags ||| dnQhtHash = flags ↔ flags.getLsbD 2 = true := by
    constructor
    · intro h
      rw [← h, hbit, Bits.getLsbD_set _ (by decide)]
      simp
    · intro h
      refine BitVec.eq_of_getLsbD_eq fun j hj => ?_
      rw [hbit, Bits.getLsbD_set _ (by decide)]
      rcases eq_or_ne 2 j with rfl | hne
      · rw [h]
        rfl
      · simp [hne]
  have hclear : flags &&& ~~~dnQhtHash = flags ↔ flags.getLsbD 2 = false := by
    constructor
    · intro h
      rw [← h, hbit, Bits.getLsbD_clear _ _ (by decide)]
      simp
    · intro h
      refine BitVec.eq_of_getLsbD_eq fun j hj => ?_
      rw [hbit, Bits.getLsbD_clear _ _ hj]
      rcases eq_or_ne 2 j with rfl | hne
      · rw [h]
        rfl
      · simp [hne]
  rw [ne_eq, hzero, Bool.not_eq_false]
  unfold hashFlag
  split_ifs with hmask
  · rw [hset]
    simp [hmask]
  · rw [hclear]
    simp [hmask]

/-- The flag for RED does not depend on the one for a hash table. -/
theorem hashFlag_red {mask : FlowId} {flags : BitVec 32} :
    hashFlag mask flags &&& dnIsRed = flags &&& dnIsRed := by
  have hor : dnQhtHash &&& dnIsRed = 0 := by decide
  have hand : ~~~dnQhtHash &&& dnIsRed = dnIsRed := by decide
  unfold hashFlag
  split_ifs
  · rw [BitVec.and_or_distrib_right, hor]
    exact BitVec.or_zero
  · rw [BitVec.and_assoc, hand]

theorem redFlags_red {flags : BitVec 32} (h : flags &&& dnIsRed ≠ 0) :
    redFlags false flags &&& dnIsRed = 0 := by
  have hand : ~~~dnIsRed &&& (~~~dnIsGentleRed &&& dnIsRed) = 0 := by decide
  rw [redFlags, if_pos ⟨h, rfl⟩, BitVec.and_assoc, BitVec.and_assoc, hand]
  exact BitVec.and_zero

/-- **The flags are kept** exactly if none of the changes applies. -/
theorem attachFlags_eq_iff {mask : FlowId} {flags : BitVec 32} {ok : Bool} :
    redFlags ok (hashFlag mask flags) = flags ↔
      (flags &&& dnQhtHash ≠ 0 ↔ nonzeroMask mask) ∧ (flags &&& dnIsRed ≠ 0 → ok = true) := by
  rw [← hashFlag_eq_iff]
  constructor
  · intro h
    cases ok with
    | true =>
      rw [redFlags, if_neg (by simp)] at h
      exact ⟨h, fun _ => rfl⟩
    | false =>
      have hkeep : hashFlag mask flags &&& dnIsRed = flags &&& dnIsRed := hashFlag_red
      have hno : ¬ flags &&& dnIsRed ≠ 0 := by
        intro hred
        have hclear := redFlags_red (hkeep.symm ▸ hred)
        rw [h] at hclear
        exact hred hclear
      rw [redFlags, if_neg (fun hc => hno (hkeep ▸ hc.1))] at h
      exact ⟨h, fun hred => absurd hred hno⟩
  · rintro ⟨h, hred⟩
    rw [h, redFlags, if_neg]
    rintro ⟨hset, hok⟩
    rw [hred hset] at hok
    exact Bool.noConfusion hok

/-! ### What is left alone -/

/-- The flowsets other than `fp`, their table, the parameters and the environment are the same. -/
structure Aside (fp : FskPtr) (s t : Dn) : Prop where
  fshash : t.fshash = s.fshash
  other : ∀ fp', fp' ≠ fp → t.fsk fp' = s.fsk fp'
  parms : t.parms = s.parms
  env : t.env = s.env

theorem Aside.refl (fp : FskPtr) (s : Dn) : Aside fp s s := ⟨rfl, fun _ _ => rfl, rfl, rfl⟩

theorem Aside.trans (h : Aside fp s t) (h' : Aside fp t u) : Aside fp s u :=
  ⟨h'.fshash.trans h.fshash, fun fp' hne => (h'.other fp' hne).trans (h.other fp' hne),
    h'.parms.trans h.parms, h'.env.trans h.env⟩

theorem aside_setFsk (s : Dn) (fp : FskPtr) (f : Fsk) : Aside fp s (s.setFsk fp f) :=
  ⟨rfl, fun _ hne => Function.update_of_ne hne _ _, rfl, rfl⟩

theorem setFsk_self (s : Dn) (fp : FskPtr) (f : Fsk) : (s.setFsk fp f).fsk fp = f :=
  Function.update_self ..

theorem deleteQueue_aside {a : QAddr} {safe b : Bool} (h : deleteQueue s a safe = some (b, t)) :
    Aside fp s t := by
  obtain ⟨_, _, h⟩ := Option.bind_eq_some_iff.1 h
  obtain ⟨_, _, h⟩ := Option.bind_eq_some_iff.1 h
  obtain ⟨r, -, hr⟩ := Option.map_eq_some_iff.1 h
  obtain ⟨-, rfl⟩ := Prod.mk.inj hr
  exact ⟨rfl, fun _ _ => rfl, rfl, rfl⟩

theorem qDeleteAll_aside {l : List QAddr} (h : qDeleteAll s fp l = some t) : Aside fp s t := by
  induction l generalizing s with
  | nil =>
    obtain rfl := Option.some.inj h
    exact .refl fp s
  | cons a as ih =>
    obtain ⟨⟨b, u⟩, hu, h⟩ := Option.bind_eq_some_iff.1 h
    exact (deleteQueue_aside hu).trans ((aside_setFsk u fp _).trans (ih h))

theorem qhtDelete_aside (h : qhtDelete s fp = some t) : Aside fp s t := by
  have hdel : ∀ l : List QAddr,
      ((qDeleteAll s fp l).bind fun u => some (u.setFsk fp { u.fsk fp with qht := .null })) =
        some t → Aside fp s t := by
    intro l hall
    obtain ⟨u, hu, he⟩ := Option.bind_eq_some_iff.1 hall
    obtain rfl := Option.some.inj he
    exact (qDeleteAll_aside hu).trans (aside_setFsk u fp _)
  unfold qhtDelete at h
  dsimp only at h
  rcases hq : (s.fsk fp).qht with _ | a | ht
  · simp only [hq] at h
    exact hdel [] h
  · simp only [hq] at h
    split_ifs at h
    · exact hdel [a] h
    · simp at h
  · simp only [hq] at h
    split_ifs at h
    · exact hdel ht.ordered h
    · simp at h

theorem setFskList_aside (s : Dn) (l : List FskPtr) (o : Option SchkPtr) :
    Aside fp s (s.setFskList l o) := by
  cases o <;> exact ⟨rfl, fun _ _ => rfl, rfl, rfl⟩

theorem fskUnlist_aside (h : fskUnlist s fp = some t) : Aside fp s t := by
  unfold fskUnlist at h
  dsimp only at h
  split_ifs at h
  obtain rfl := Option.some.inj h
  exact setFskList_aside _ _ _

theorem fskDetach_aside (h : fskDetach s fp false = some t) : Aside fp s t := by
  obtain ⟨u, hu, h⟩ := Option.bind_eq_some_iff.1 h
  obtain rfl := Option.some.inj h
  have hsu : Aside fp s u := (aside_setFsk s fp _).trans (qhtDelete_aside hu)
  exact hsu.trans ((aside_setFsk u fp { u.fsk fp with sched := none }).trans
    ⟨rfl, fun _ _ => rfl, rfl, rfl⟩)

/-! ### Attaching -/

/-- The flowset `fp` is stored as `x`, and the other flowsets are the same. -/
structure Stored (fp : FskPtr) (x : FsConfig) (s t : Dn) : Prop where
  fs : (t.fsk fp).fs = x
  fshash : t.fshash = s.fshash
  other : ∀ fp', fp' ≠ fp → t.fsk fp' = s.fsk fp'
  limits : t.parms.limits = s.parms.limits

/-- **`config_red`** changes only the flags of the configuration. -/
theorem configRedIf_stored (h : configRedIf s fp = some t) :
    Stored fp ⟨(s.fsk fp).head, { (s.fsk fp).data.fs with
      flags := redFlags (s.env.malloc 0) (s.fsk fp).data.fs.flags }⟩ s t := by
  unfold configRedIf at h
  split_ifs at h with hred
  · have hflags : redFlags (s.env.malloc 0) (s.fsk fp).data.fs.flags = if s.env.malloc 0 then
        (s.fsk fp).data.fs.flags else (s.fsk fp).data.fs.flags &&& ~~~dnIsRed &&& ~~~dnIsGentleRed := by
      cases s.env.malloc 0
      · exact if_pos ⟨hred, rfl⟩
      · exact if_neg fun hc => Bool.noConfusion hc.2
    rw [hflags]
    unfold configRed at h
    dsimp only at h
    obtain ⟨_, -, h⟩ := Option.bind_eq_some_iff.1 h
    split at h
    · exact absurd h (by simp)
    · split at h
      · exact absurd h (by simp)
      · split at h
        next hok =>
          obtain rfl := Option.some.inj h
          have hno : s.env.malloc 0 = false := by simpa [Dn.malloc] using hok
          refine ⟨?_, rfl, fun _ hne => Function.update_of_ne hne _ _, rfl⟩
          rw [hno]
          rw [setFsk_self]
          rfl
        next hok =>
          obtain rfl := Option.some.inj h
          have hyes : s.env.malloc 0 = true := by simpa [Dn.malloc] using hok
          refine ⟨?_, rfl, fun _ hne => Function.update_of_ne hne _ _, rfl⟩
          rw [hyes]
          rw [setFsk_self]
          rfl
  · obtain rfl := Option.some.inj h
    refine ⟨?_, rfl, fun _ _ => rfl, rfl⟩
    rw [redFlags, if_neg (fun hc => hred hc.1)]
    rfl

/-- **`fsk_attach`**. -/
theorem fskAttach_stored (h : fskAttach s fp sp = some t) :
    ∃ kind, (s.schk sp).fp = some kind ∧ Stored fp ⟨(s.fsk fp).head, kind.attachFs
      ((s.schk sp).sch.fskMask (s.fsk fp).head.flowMask) (s.env.malloc 0) (s.fsk fp).data.fs⟩ s t := by
  obtain ⟨kind, hkind, h⟩ := Option.bind_eq_some_iff.1 h
  refine ⟨kind, hkind, ?_⟩
  dsimp only at h
  split_ifs at h
  · set u := ({ s with fsu := s.fsu.erase fp } : Dn).setFskList (fp :: (s.schk sp).fskList) (some sp)
      with hu
    have hsu : Aside fp s u := Aside.trans (t := { s with fsu := s.fsu.erase fp })
      ⟨rfl, fun _ _ => rfl, rfl, rfl⟩ (setFskList_aside _ _ _)
    have hfsk : u.fsk = s.fsk := rfl
    have hsch : (u.schk sp).sch = (s.schk sp).sch := by
      rw [hu]
      simp [Dn.setFskList, Dn.setSchk]
    set f := (u.fsk fp).attached sp kind (u.schk sp).sch with hf
    obtain ⟨hfs, hht, hother, hlim⟩ := configRedIf_stored h
    have hself := setFsk_self u fp f
    refine ⟨?_, hht, fun fp' hne => (hother fp' hne).trans (Function.update_of_ne hne _ _), hlim⟩
    rw [hfs, hself, hf, Fsk.attached, newFsk_fs, hsch, hfsk]
    rfl
  · exact absurd h (by simp)

/-- **A configuration that has changed** is stored as the scheduler leaves it. -/
theorem changeFs_stored (h : changeFs s fp x = some t) (hsp : s.findSched x.head.schedNr = some sp) :
    ∃ kind, (s.schk sp).fp = some kind ∧ Stored fp ⟨x.head, kind.attachFs
      ((s.schk sp).sch.fskMask x.head.flowMask) (s.env.malloc 0) x.fs⟩ s t := by
  have hend : ∀ {u}, Aside fp s u → Fixed s u →
      fskAttach (u.setFsk fp { u.fsk fp with
        head := x.head, data := { (u.fsk fp).data with fs := x.fs } }) fp sp = some t →
      ∃ kind, (s.schk sp).fp = some kind ∧ Stored fp ⟨x.head, kind.attachFs
        ((s.schk sp).sch.fskMask x.head.flowMask) (s.env.malloc 0) x.fs⟩ s t := by
    intro u hsu hfix h
    obtain ⟨kind, hkind, hst⟩ := fskAttach_stored h
    have hkind : (u.schk sp).fp = some kind := hkind
    rw [Schk.fp_of_core (hfix.core sp)] at hkind
    refine ⟨kind, hkind, ?_, hst.fshash.trans hsu.fshash, fun fp' hne => ?_, ?_⟩
    · rw [hst.fs, setFsk_self]
      change FsConfig.mk x.head (kind.attachFs ((u.schk sp).sch.fskMask x.head.flowMask)
        (u.env.malloc 0) x.fs) = _
      rw [Schk.sch_of_core (hfix.core sp), hsu.env]
    · exact (hst.other fp' hne).trans ((Function.update_of_ne hne _ _).trans (hsu.other fp' hne))
    · exact hst.limits.trans (congrArg DnParms.limits hsu.parms)
  unfold changeFs at h
  rw [hsp] at h
  dsimp only at h
  split_ifs at h
  · obtain ⟨u, hu, h⟩ := Option.bind_eq_some_iff.1 h
    obtain ⟨v, hv, h⟩ := Option.bind_eq_some_iff.1 h
    exact hend ((fskUnlist_aside hu).trans (fskDetach_aside hv))
      ((fskUnlist_fixed hu).trans (fskDetach_fixed hv)) h
  · exact hend (.refl fp s) (.refl s) h

/-! ### Requests -/

/-- The flowset `fp` with the number `i` has been found or made. -/
structure LookedUp (i : BitVec 32) (fp : FskPtr) (s u : Dn) : Prop where
  fs : (u.fsk fp).fs = s.storedFs i
  find : ∀ isMatch : FskPtr → Bool, isMatch fp = true →
    (∀ fp', fp' ≠ fp → isMatch fp' = decide ((u.fsk fp').head.fsNr = i)) →
      dnHtFind u.fshash (nrHash i) isMatch = some fp
  parms : u.parms = s.parms
  schk : u.schk = s.schk
  schedhash : u.schedhash = s.schedhash
  malloc : u.env.malloc 0 = s.env.malloc (s.allocsFs i)

/-- A flowset that is found is found by every test that is true of it. -/
theorem find_of_findFs (h : u.findFs i = some fp) {isMatch : FskPtr → Bool} (hfp : isMatch fp = true)
    (hother : ∀ fp', fp' ≠ fp → isMatch fp' = decide ((u.fsk fp').head.fsNr = i)) :
    dnHtFind u.fshash (nrHash i) isMatch = some fp := by
  have heq : isMatch = fun fp' => decide ((u.fsk fp').head.fsNr = i) := by
    funext fp'
    rcases eq_or_ne fp' fp with rfl | hne
    · rw [hfp]
      exact ((mem_htList_of_find h).2).symm
    · exact hother fp' hne
  rw [heq]
  exact h

theorem DnHt.find_insert {α : Type} {ht : DnHt α} {hash : BitVec 32} {a : α} {isMatch : α → Bool}
    (h : isMatch a = true) : (ht.insert hash a).find hash isMatch = some a := by
  have hchain : (ht.insert hash a).chain (ht.bucket hash) = a :: ht.chain (ht.bucket hash) := by
    simp [DnHt.insert, DnHt.chain]
    rfl
  change ((ht.insert hash a).chain (ht.bucket hash)).find? isMatch = some a
  rw [hchain, List.find?_cons, h]

/-- The table of the flowsets is there. -/
theorem needFshash_malloc (s : Dn) :
    (needFshash s).env.malloc 0 = s.env.malloc (if s.fshash.isNone then 1 else 0) ∧
      ∀ ok, (needFshash s).malloc = (ok, u) →
        ok = s.env.malloc (if s.fshash.isNone then 1 else 0) ∧
          u.env.malloc 0 = s.env.malloc ((if s.fshash.isNone then 1 else 0) + 1) := by
  unfold needFshash
  cases hfs : s.fshash with
  | none =>
    refine ⟨rfl, fun ok h => ?_⟩
    obtain ⟨rfl, rfl⟩ := Prod.mk.inj h
    exact ⟨rfl, rfl⟩
  | some ht =>
    refine ⟨rfl, fun ok h => ?_⟩
    obtain ⟨rfl, rfl⟩ := Prod.mk.inj h
    exact ⟨rfl, rfl⟩

/-- A flowset that is there is found. -/
theorem lookedUp_found (h : s.findFs i = some fp) : LookedUp i fp s (needFshash s) := by
  obtain ⟨hplain, hparms, -, hsh, hfind⟩ := needFshash_spec s
  have hne : (s.findFs i).isNone = false := by rw [h]; rfl
  refine ⟨?_, fun isMatch hfp hother => find_of_findFs ((hfind i).trans h) hfp hother, hparms,
    hplain.schk, hsh, ?_⟩
  · rw [Dn.storedFs, h, hplain.fsk]
  · rw [Dn.allocsFs, hne]
    exact (needFshash_malloc (u := s) s).1

/-- A flowset that is not there is made. -/
theorem lookedUp_made {new : Bool} (h : findOrNewFs (needFshash s) i = (some fp, new, t)) :
    LookedUp i fp s t := by
  obtain ⟨hplain, hparms, -, hsh, hfind⟩ := needFshash_spec s
  unfold findOrNewFs at h
  split at h
  · exact absurd (Prod.mk.inj h).1 (by simp)
  next ht hht =>
  split at h
  · next fp' hfp' =>
    obtain ⟨he, h⟩ := Prod.mk.inj h
    obtain ⟨-, rfl⟩ := Prod.mk.inj h
    obtain rfl := Option.some.inj he
    exact lookedUp_found ((hfind i).symm.trans hfp')
  · next hnone =>
    have hne : (s.findFs i).isNone = true := by rw [← hfind, hnone]; rfl
    unfold fskNew at h
    obtain ⟨ok, u, hm⟩ : ∃ ok u, (needFshash s).malloc = (ok, u) := ⟨_, _, rfl⟩
    obtain ⟨-, hmalloc⟩ := (needFshash_malloc (u := u) s).2 ok hm
    have hu : u = (needFshash s).malloc.2 := by rw [hm]
    have hup : u.parms = (needFshash s).parms := by rw [hu]; rfl
    have hus : u.schk = (needFshash s).schk := by rw [hu]; rfl
    have huh : u.schedhash = (needFshash s).schedhash := by rw [hu]; rfl
    simp only [hm] at h
    cases ok with
    | false =>
      simp only [Bool.false_eq_true, if_false] at h
      exact absurd (Prod.mk.inj h).1 (by simp)
    | true =>
      simp only [if_true] at h
      obtain ⟨he, h⟩ := Prod.mk.inj h
      obtain ⟨-, rfl⟩ := Prod.mk.inj h
      obtain rfl := Option.some.inj he
      refine ⟨?_, fun isMatch hfp _ => ?_, hup.trans hparms, hus.trans hplain.schk, huh.trans hsh, ?_⟩
      · rw [Dn.storedFs, Option.isNone_iff_eq_none.1 hne]
        exact congrArg Fsk.fs (setFsk_self _ _ _)
      · exact DnHt.find_insert hfp
      · rw [Dn.allocsFs, hne]
        exact hmalloc

/-- **A request that is accepted** finds its flowset as it is to be, or changes it. -/
theorem configFs_cases (h : configFs s c = some (some fp, t)) :
    ¬ (c.head.oid.len ≠ sizeofFs ∨ c.head.fsNr.toInt ≤ 0 ∨
      (3 * dnMaxId).toInt ≤ c.head.fsNr.toInt) ∧
    ∃ u, LookedUp c.head.fsNr fp s u ∧ (s.storedFs c.head.fsNr = s.completed c ∧ t = u ∨
      s.storedFs c.head.fsNr ≠ s.completed c ∧ changeFs u fp (s.completed c) = some t) := by
  unfold configFs at h
  dsimp only at h
  split at h
  · exact absurd (Prod.mk.inj (Option.some.inj h)).1 (by simp)
  next hbad =>
  refine ⟨hbad, ?_⟩
  obtain ⟨o, new, v, hv⟩ : ∃ o new v,
      (if (c.bounded s.parms).head.schedNr ≠ 0 then findOrNewFs (needFshash s) c.head.fsNr
        else ((needFshash s).findFs c.head.fsNr, false, needFshash s)) = (o, new, v) := ⟨_, _, _, rfl⟩
  rw [hv] at h
  dsimp only at h
  rcases o with _ | fp'
  · exact absurd (Prod.mk.inj (Option.some.inj h)).1 (by simp)
  have hlook : LookedUp c.head.fsNr fp' s v := by
    split_ifs at hv
    · exact lookedUp_made hv
    · obtain ⟨hfp, he⟩ := Prod.mk.inj hv
      obtain ⟨-, rfl⟩ := Prod.mk.inj he
      exact lookedUp_found (((needFshash_spec s).2.2.2.2 _).symm.trans hfp)
  dsimp only at h
  rw [hlook.fs] at h
  split at h
  next heq =>
    obtain ⟨he, rfl⟩ := Prod.mk.inj (Option.some.inj h)
    obtain rfl := Option.some.inj he
    exact ⟨v, hlook, .inl ⟨heq, rfl⟩⟩
  next hne =>
    obtain ⟨w, hw, h⟩ := Option.bind_eq_some_iff.1 h
    obtain ⟨he, rfl⟩ := Prod.mk.inj (Option.some.inj h)
    obtain rfl := Option.some.inj he
    refine ⟨if new = true then { v with id := v.id + 1 } else v, ?_, .inr ⟨hne, hw⟩⟩
    split_ifs
    · exact ⟨hlook.fs, hlook.find, hlook.parms, hlook.schk, hlook.schedhash, hlook.malloc⟩
    · exact hlook

/-- A request that finds no change has no effect. -/
theorem configFs_of_same (hbad : ¬ (c.head.oid.len ≠ sizeofFs ∨ c.head.fsNr.toInt ≤ 0 ∨
      (3 * dnMaxId).toInt ≤ c.head.fsNr.toInt)) (hfind : s.findFs c.head.fsNr = some fp)
    (hsame : (s.fsk fp).fs = (c.bounded s.parms).inherit (s.fsk fp).fs) :
    configFs s c = some (some fp, s) := by
  obtain ⟨ht, hht, -⟩ := Option.bind_eq_some_iff.1 hfind
  have hneed : needFshash s = s := by
    unfold needFshash
    rw [hht]
  have hnew : findOrNewFs s c.head.fsNr = (some fp, false, s) := by
    unfold findOrNewFs
    rw [hht]
    dsimp only
    rw [hfind]
  unfold configFs
  dsimp only
  rw [if_neg hbad, hneed, hnew, hfind, ite_self]
  exact if_pos hsame

theorem bounded_congr {p p' : DnParms} (h : p'.limits = p.limits) (c : FsConfig) :
    c.bounded p' = c.bounded p := by
  obtain ⟨h1, h⟩ := Prod.mk.inj h
  obtain ⟨h2, h⟩ := Prod.mk.inj h
  obtain ⟨h3, h4⟩ := Prod.mk.inj h
  unfold FsConfig.bounded
  rw [h1, h2, h3, h4]

/-- **The comparison** of a request with what is stored for it. -/
theorem attachFs_same_iff {parms : DnParms} {old : FsConfig} {mask : FlowId} {ok : Bool}
    (hx : x = (c.bounded parms).inherit old) :
    (⟨x.head, kind.attachFs mask ok x.fs⟩ : FsConfig) =
        (c.bounded parms).inherit ⟨x.head, kind.attachFs mask ok x.fs⟩ ↔
      redFlags ok (hashFlag mask c.fs.flags) = c.fs.flags ∧
        ∀ j, c.fs.par j ≠ -1 → kind.boundPar x.fs.par j = c.fs.par j := by
  subst hx
  constructor
  · intro h
    have hfs := congrArg FsConfig.fs h
    refine ⟨congrArg DnFs.flags hfs, fun j hj => ?_⟩
    have hpar := congrFun (congrArg DnFs.par hfs) j
    rwa [show ((c.bounded parms).inherit _).fs.par j = _ from if_neg hj] at hpar
  · rintro ⟨hflags, hpar⟩
    have hnr : (if c.head.schedNr = 0 then
        (if c.head.schedNr = 0 then old.head.schedNr else c.head.schedNr) else c.head.schedNr) =
        if c.head.schedNr = 0 then old.head.schedNr else c.head.schedNr := by
      split_ifs <;> rfl
    have hpars : (fun j => if c.fs.par j = -1 then
        kind.boundPar ((c.bounded parms).inherit old).fs.par j else c.fs.par j) =
        kind.boundPar ((c.bounded parms).inherit old).fs.par := by
      funext j
      split_ifs with hj
      · rfl
      · exact (hpar j hj).symm
    refine congrArg₂ FsConfig.mk ?_ ?_
    · exact congrArg (fun n => { (c.bounded parms).head with schedNr := n }) hnr.symm
    · have hleft : kind.attachFs mask ok ((c.bounded parms).inherit old).fs =
          { (c.bounded parms).fs with
            par := kind.boundPar ((c.bounded parms).inherit old).fs.par } := by
        change ({ (c.bounded parms).fs with
          par := kind.boundPar ((c.bounded parms).inherit old).fs.par
          flags := redFlags ok (hashFlag mask c.fs.flags) } : DnFs) = _
        rw [hflags]
        rfl
      exact hleft.trans (congrArg (fun par => { (c.bounded parms).fs with par := par }) hpars.symm)

/-- Whether a request has an effect is decided by the comparison in the state that it left. -/
theorem unchanged_iff (hbad : ¬ (c.head.oid.len ≠ sizeofFs ∨ c.head.fsNr.toInt ≤ 0 ∨
      (3 * dnMaxId).toInt ≤ c.head.fsNr.toInt)) (hfind : t.findFs c.head.fsNr = some fp) :
    t.Unchanged fp c ↔ (t.fsk fp).fs = (c.bounded t.parms).inherit (t.fsk fp).fs := by
  constructor
  · intro h
    exact (h t rfl hfind rfl).1
  · intro h u hfs hu hlim
    have hsame : (u.fsk fp).fs = (c.bounded u.parms).inherit (u.fsk fp).fs := by
      rw [hfs, bounded_congr hlim]
      exact h
    exact ⟨hsame, configFs_of_same hbad hu hsame⟩

/-- The flowset is found after it was stored. -/
theorem LookedUp.findFs (h : LookedUp i fp s u) (hst : Stored fp x u t) (hx : x.head.fsNr = i) :
    t.findFs i = some fp := by
  change dnHtFind t.fshash (nrHash i) _ = some fp
  rw [hst.fshash]
  refine h.find _ ?_ fun fp' hne => ?_
  · have hhead : (t.fsk fp).head = x.head := congrArg FsConfig.head hst.fs
    rw [hhead, hx]
    exact decide_eq_true rfl
  · rw [hst.other fp' hne]

/-- **A request that is made again** has no effect exactly if the first one had none, or the scheduler
stores it as it is. -/
theorem configFs_again_iff (h : configFs s c = some (some fp, t))
    (hsp : s.findSched (s.completed c).head.schedNr = some sp) :
    t.Unchanged fp c ↔ s.storedFs c.head.fsNr = s.completed c ∨ s.Stable sp c := by
  obtain ⟨hbad, u, hlook, ⟨hsame, rfl⟩ | ⟨hdiff, hchange⟩⟩ := configFs_cases h
  · have hst : Stored fp (s.completed c) t t := ⟨hlook.fs.trans hsame, rfl, fun _ _ => rfl, rfl⟩
    rw [unchanged_iff hbad (hlook.findFs hst rfl), hlook.fs, hlook.parms]
    exact ⟨fun _ => .inl hsame, fun _ => hsame⟩
  · have husp : u.findSched (s.completed c).head.schedNr = some sp := by
      have hfind : u.findSched = s.findSched := by
        unfold Dn.findSched
        rw [hlook.schedhash, hlook.schk]
      rw [hfind, hsp]
    obtain ⟨kind, hkind, hst⟩ := changeFs_stored hchange husp
    rw [hlook.schk] at hkind hst
    rw [hlook.malloc] at hst
    have hx : s.completed c = (c.bounded s.parms).inherit (s.storedFs c.head.fsNr) := rfl
    rw [unchanged_iff hbad (hlook.findFs hst rfl), hst.fs,
      bounded_congr (hst.limits.trans (congrArg DnParms.limits hlook.parms)),
      attachFs_same_iff hx, attachFlags_eq_iff]
    constructor
    · rintro ⟨⟨hhash, hred⟩, hpar⟩
      refine .inr ⟨hhash, hred, fun kind' hkind' => ?_⟩
      obtain rfl := Option.some.inj (hkind.symm.trans hkind')
      exact hpar
    · rintro (hsame | hstable)
      · exact absurd hsame hdiff
      · exact ⟨⟨hstable.hash, hstable.red⟩, hstable.par kind hkind⟩

/-- The scheduler that a request names is kept. -/
theorem completed_schedNr (h : c.head.schedNr ≠ 0) :
    (s.completed c).head.schedNr = c.head.schedNr := by
  simp only [Dn.completed, FsConfig.inherit, FsConfig.bounded]
  exact if_neg h

/-- A request for flowset 1 of scheduler 1 with the mask that is given. -/
def fsMasked (mask : FlowId) : FsConfig where
  head := { oid := { len := sizeofFs, type := 2 }, fsNr := 1, schedNr := 1, flowMask := mask }
  fs := { zeroFs with
    flags := if nonzeroMask mask then dnHaveMask else 0
    par := fun _ => -1 }

/-- Scheduler 1 before and after the request for flowset 1. -/
def masked (mask : FlowId) : Option (Dn × Dn × FskPtr × SchkPtr) := do
  let (_, s) ← configSched (Dn.init {} [.fifo, .wf2qp, .rr]) (schedOne 2)
  let (fp, t) ← configFs s (fsMasked mask)
  pure (s, t, ← fp, ← s.findSched 1)

theorem masked_spec {mask : FlowId} (h : masked mask = some (s, t, fp, sp)) :
    Dn.Reach {} [.fifo, .wf2qp, .rr] s ∧ configFs s (fsMasked mask) = some (some fp, t) ∧
      s.findSched (s.completed (fsMasked mask)).head.schedNr = some sp := by
  unfold masked at h
  obtain ⟨⟨err, s'⟩, hs, h⟩ := Option.bind_eq_some_iff.1 h
  obtain ⟨⟨fp', t'⟩, ht, h⟩ := Option.bind_eq_some_iff.1 h
  obtain ⟨fp'', hfp, h⟩ := Option.bind_eq_some_iff.1 h
  obtain ⟨sp', hsp, h⟩ := Option.bind_eq_some_iff.1 h
  obtain ⟨rfl, rfl, rfl, rfl⟩ := by simpa using Option.some.inj h
  rw [hfp] at ht
  have hnr : (s'.completed (fsMasked mask)).head.schedNr = 1 :=
    completed_schedNr (c := fsMasked mask) (show (1 : BitVec 32) ≠ 0 by decide)
  rw [hnr]
  exact ⟨.object (o := .sch (schedOne 2)) .init hs, ht, hsp⟩

/-- Without a mask the request has no effect the second time. -/
theorem configFs_again_masked : ∃ s t fp sp, masked {} = some (s, t, fp, sp) ∧
    t.Unchanged fp (fsMasked {}) := by
  have hexec : (masked {}).any (fun x => decide (¬ nonzeroMask
      ((x.1.schk x.2.2.2).sch.fskMask (fsMasked {}).head.flowMask))) = true := by decide +kernel
  obtain ⟨⟨s, t, fp, sp⟩, h, hall⟩ := (Option.any_eq_true _ _).1 hexec
  obtain ⟨-, hconf, hsp⟩ := masked_spec h
  have hflags : (fsMasked {}).fs.flags = 0 := by decide
  refine ⟨s, t, fp, sp, h, (configFs_again_iff hconf hsp).2 (.inr ⟨?_, ?_, ?_⟩)⟩
  · exact iff_of_false (by rw [hflags]; decide) (of_decide_eq_true hall)
  · intro hred
    exact absurd (by rw [hflags]; decide) hred
  · intro kind _ j hj
    exact absurd rfl hj

/-- With a mask the stored flags are not those of the request. -/
theorem not_unchanged : ¬ ∀ (parms : DnParms) (schedlist : List SchedType) (s t : Dn)
    (c : FsConfig) (fp : FskPtr) (sp : SchkPtr), Dn.Reach parms schedlist s →
    configFs s c = some (some fp, t) → s.findSched (s.completed c).head.schedNr = some sp →
    t.Unchanged fp c := by
  intro hclaim
  have hexec : (masked { srcIp := 255 }).any (fun x => decide ((x.2.1.fsk x.2.2.1).data.fs.flags ≠
      (fsMasked { srcIp := 255 }).fs.flags ∧
      x.2.1.findFs (fsMasked { srcIp := 255 }).head.fsNr = some x.2.2.1)) = true := by decide +kernel
  obtain ⟨⟨s, t, fp, sp⟩, h, hall⟩ := (Option.any_eq_true _ _).1 hexec
  obtain ⟨hflags, hfind⟩ := of_decide_eq_true hall
  obtain ⟨hs, hconf, hsp⟩ := masked_spec h
  have hsame := (hclaim _ _ s t _ fp sp hs hconf hsp t rfl hfind rfl).1
  exact hflags (congrArg (fun x : FsConfig => x.fs.flags) hsame)

end Dummynet
