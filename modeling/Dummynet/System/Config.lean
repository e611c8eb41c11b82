import Dummynet.System.Objects

/-!
# Configuration

The handlers of `ip_dummynet.c` that configure links, flowsets, schedulers and delay profiles,
flush everything, and `do_config`, which runs the objects of a message through them.

## Main definitions

* `configRed`, `fskAttach`, `updateFs`: what happens when a flowset gets a scheduler.
* `configLink`, `configFs`, `configSched`, `configProfile`, `dummynetFlush`: the handlers.
* `DnObj`, `doConfig`: the objects of a message, and the main handler.
-/

namespace Dummynet

/-- `ENOMEM`. -/
def enomem : ℕ := 12

/-- `SCALE(1)`. -/
def scaleOne : BitVec 32 := 65536

/-- `ipdn_bound_var` on a variable in memory, with bounds that are converted to `int`. -/
def boundWord (v : BitVec 32) (dflt lo hi : ℤ) : BitVec 32 :=
  BitVec.ofInt 32 (ipdnBoundVar v.toInt dflt lo hi)

/-! ### Attaching flowsets -/

/-- The table `w_q_lookup`: its first entry, and each next one scaled by `lookup_weight`. -/
def redLookup (first weight : BitVec 32) : ℕ → BitVec 32
  | 0 => first
  | i + 1 => (redLookup first weight i * weight) >>> 16

/-- `config_red`. The result is `none` where it divides by zero. -/
def configRed (s : Dn) (fp : FskPtr) : Option Dn := do
  let f := s.fsk fp
  let wQ := f.head.wQ
  let maxP := f.head.maxP
  let bandwidth := (s.schk (← f.sched)).link.bandwidth
  let cost : BitVec 32 := if bandwidth.toInt ≤ 0 then 0 else
    (BitVec.ofNat 32 s.parms.hz * s.parms.redAvgPktSize * 8 * scaleOne).sdiv bandwidth
  if wQ = 0 ∨ s.parms.redLookupDepth = 0 then none
  else
    let idle := (cost.signExtend 64 * 3).sdiv (wQ.signExtend 64)
    let step := (idle.sdiv (s.parms.redLookupDepth.signExtend 64)).setWidth 32
    let step : BitVec 32 := if step = 0 then 1 else step
    let w0 := (scaleOne - wQ).signExtend 64
    let weight := (fun w => scaleMul w w0)^[(step.toInt - 1).toNat] w0
    let span := f.head.maxTh - f.head.minTh
    let gentle := f.data.fs.flags &&& dnIsGentleRed ≠ 0
    if span = 0 ∨ (gentle ∧ f.head.maxTh = 0) then none
    else
      let c1 := maxP.sdiv span
      let data := { f.data with
        wQ := wQ
        lookupStep := step
        minTh := f.head.minTh <<< 16
        maxTh := f.head.maxTh <<< 16
        c1 := c1
        c2 := (c1 * f.head.minTh <<< 16) >>> 16
        c3 := if gentle then (scaleOne - maxP).sdiv f.head.maxTh else f.data.c3
        c4 := if gentle then scaleOne - 2 * maxP else f.data.c4
        lookupDepth := s.parms.redLookupDepth }
      let (ok, s) := s.malloc
      if !ok then
        let flags := data.fs.flags &&& ~~~dnIsRed &&& ~~~dnIsGentleRed
        pure (s.setFsk fp { f with data := { data with
          wQLookup := fun _ => 0
          fs := { data.fs with flags := flags } } })
      else
        let avg := if s.parms.redAvgPktSize.toInt < 1 then 512 else s.parms.redAvgPktSize
        let max := if s.parms.redMaxPktSize.toInt < 1 then 1500 else s.parms.redMaxPktSize
        let s := { s with parms := { s.parms with redAvgPktSize := avg, redMaxPktSize := max } }
        pure (s.setFsk fp { f with data := { data with
          wQLookup := redLookup (scaleOne - wQ) (weight.setWidth 32)
          maxPktSize := max } })

/-- `config_red` on a flowset with `DN_IS_RED`. -/
def configRedIf (s : Dn) (fp : FskPtr) : Option Dn :=
  if (s.fsk fp).data.fs.flags &&& dnIsRed ≠ 0 then configRed s fp else some s

/-- `update_red`. -/
def updateRed (s : Dn) (sp : SchkPtr) : Option Dn := (s.schk sp).fskList.foldlM configRedIf s

/-- The flowset as `fsk_attach` leaves it, before `config_red`. A table of queues that is still
there is forgotten. -/
def Fsk.attached (f : Fsk) (sp : SchkPtr) (kind : SchedType) (sch : DnSch) : Fsk :=
  let data := kind.desc.newFsk f.data
  let mask := f.head.flowMask
  let mask := if sch.flags &&& dnHaveMask ≠ 0 then flowIdOr sch.schedMask mask else mask
  let flags := if nonzeroMask mask then data.fs.flags ||| dnQhtHash
    else data.fs.flags &&& ~~~dnQhtHash
  { f with
    sched := some sp
    data := { data with fs := { data.fs with flags := flags } }
    fskMask := mask
    qht := .null }

/-- `fsk_attach`. -/
def fskAttach (s : Dn) (fp : FskPtr) (sp : SchkPtr) : Option Dn := do
  let kind ← (s.schk sp).fp
  let s ← if fp ∈ s.fsu then some { s with fsu := s.fsu.erase fp } else none
  let s := s.setFskList (fp :: (s.schk sp).fskList) (some sp)
  configRedIf (s.setFsk fp ((s.fsk fp).attached sp kind (s.schk sp).sch)) fp

/-- `update_fs`: attaches the unlinked flowsets that ask for the scheduler. -/
def updateFs (s : Dn) (sp : SchkPtr) : Option Dn :=
  s.fsu.foldlM (fun s fp =>
    if (s.schk sp).sch.schedNr ≠ (s.fsk fp).head.schedNr then some s else fskAttach s fp sp) s

/-! ### Links -/

/-- One round of the loop in `config_link`. -/
def setLink (s : Dn) (sp : SchkPtr) (i : BitVec 32) (p : DnLink) : Option Dn := do
  let x := s.schk sp
  let changed := x.link.bandwidth ≠ p.bandwidth
  let link := { x.link with oid := p.oid, linkNr := i, delay := p.delay, bandwidth := p.bandwidth }
  let s := s.setSchk sp { x with profile := none, link := link }
  let s ← if changed then updateRed s sp else some s
  let x := s.schk sp
  let s := s.setSchk sp { x with link := { x.link with burst := p.burst } }
  pure (schkResetCredit s sp)

/-- `config_link`: the link of a scheduler and the one of its FIFO twin. -/
def configLink (s : Dn) (p : DnLink) : Option (ℕ × Dn) :=
  let i := p.linkNr
  if p.oid.len ≠ sizeofLink ∨ i.toInt ≤ 0 ∨ dnMaxId.toInt ≤ i.toInt then some (einval, s)
  else
    let hz := BitVec.ofNat 32 s.parms.hz
    let p := { p with
      delay := (p.delay * hz).sdiv 1000
      burst := p.burst * (8 * hz).signExtend 64 }
    match s.findSched i with
    | none => some (einval, s)
    | some sp => do
      let s ← setLink s sp i p
      match s.findSched (i + dnMaxId) with
      | none => pure (einval, s)
      | some sp =>
        let s ← setLink s sp (i + dnMaxId) p
        pure (0, { s with id := s.id + 1 })

/-! ### Flowsets -/

/-- The bounds of `config_fs` on the queue size and the number of buckets. -/
def FsConfig.bounded (c : FsConfig) (parms : DnParms) : FsConfig :=
  let qsize := if c.fs.flags &&& dnQsizeBytes ≠ 0 then
      boundWord c.fs.qsize 16384 1500 (parms.byteLimit.setWidth 32).toInt
    else boundWord c.fs.qsize 50 1 (parms.slotLimit.setWidth 32).toInt
  let buckets := if c.fs.flags &&& dnHaveMask ≠ 0 then
      boundWord c.head.buckets parms.hashSize.toInt 1 parms.maxHashSize.toInt
    else 1
  ⟨{ c.head with buckets := buckets }, { c.fs with qsize := qsize }⟩

/-- The values that `config_fs` takes from the flowset: the scheduler if none is given, and the
parameters that are unset. -/
def FsConfig.inherit (c old : FsConfig) : FsConfig :=
  let schedNr := if c.head.schedNr = 0 then old.head.schedNr else c.head.schedNr
  ⟨{ c.head with schedNr := schedNr },
    { c.fs with par := fun j => if c.fs.par j = -1 then old.fs.par j else c.fs.par j }⟩

/-- The table `fshash`, which is made for the first flowset. -/
def needFshash (s : Dn) : Dn :=
  match s.fshash with
  | some _ => s
  | none =>
    let (ok, s) := s.malloc
    { s with fshash := dnHtInit ok s.parms.hashSize.toInt }

/-- `dn_ht_find` in `fshash` with `DNHT_INSERT`. The flag is whether the flowset is new. -/
def findOrNewFs (s : Dn) (i : BitVec 32) : Option FskPtr × Bool × Dn :=
  match s.fshash with
  | none => (none, false, s)
  | some ht =>
    match s.findFs i with
    | some fp => (some fp, false, s)
    | none =>
      match fskNew s with
      | (none, s) => (none, false, s)
      | (some fp, s) => (some fp, true, { s with fshash := some (ht.insert (nrHash i) fp) })

/-- The part of `config_fs` that gives the flowset `fp` a configuration that has changed. -/
def changeFs (s : Dn) (fp : FskPtr) (c : FsConfig) : Option Dn := do
  let sp := s.findSched c.head.schedNr
  let s ← if (s.fsk fp).sched.isSome then do
      let s ← fskUnlist s fp
      fskDetach s fp false
    else some s
  let f := s.fsk fp
  let s := s.setFsk fp { f with head := c.head, data := { f.data with fs := c.fs } }
  match sp with
  | none => pure s
  | some sp => fskAttach s fp sp

/-- The flowset after the command: detached if it had a scheduler, with the values of the command,
and attached to the scheduler that the command names if there is one. -/
theorem changeFs_cases {s t : Dn} {fp : FskPtr} {x : FsConfig} (h : changeFs s fp x = some t) :
    ∃ u, ((s.fsk fp).sched ≠ none ∧ (∃ v, fskUnlist s fp = some v ∧ fskDetach v fp false = some u) ∨
        (s.fsk fp).sched = none ∧ u = s) ∧
      (s.findSched x.head.schedNr = none ∧ t = u.setFsk fp { u.fsk fp with
          head := x.head, data := { (u.fsk fp).data with fs := x.fs } } ∨
        ∃ sp, s.findSched x.head.schedNr = some sp ∧ fskAttach (u.setFsk fp { u.fsk fp with
          head := x.head, data := { (u.fsk fp).data with fs := x.fs } }) fp sp = some t) := by
  unfold changeFs at h
  dsimp only at h
  split_ifs at h with hsome
  · obtain ⟨v, hv, h⟩ := Option.bind_eq_some_iff.1 h
    obtain ⟨u, hu, h⟩ := Option.bind_eq_some_iff.1 h
    refine ⟨u, .inl ⟨Option.isSome_iff_ne_none.1 hsome, v, hv, hu⟩, ?_⟩
    rcases hf : s.findSched x.head.schedNr with _ | sp
    · rw [hf] at h
      exact .inl ⟨rfl, (Option.some.inj h).symm⟩
    · rw [hf] at h
      exact .inr ⟨sp, rfl, h⟩
  · refine ⟨s, .inr ⟨Option.not_isSome_iff_eq_none.1 hsome, rfl⟩, ?_⟩
    rcases hf : s.findSched x.head.schedNr with _ | sp
    · rw [hf] at h
      exact .inl ⟨rfl, (Option.some.inj h).symm⟩
    · rw [hf] at h
      exact .inr ⟨sp, rfl, h⟩

/-- `config_fs`. The result is null on failure. -/
def configFs (s : Dn) (c : FsConfig) : Option (Option FskPtr × Dn) :=
  let i := c.head.fsNr
  if c.head.oid.len ≠ sizeofFs ∨ i.toInt ≤ 0 ∨ (3 * dnMaxId).toInt ≤ i.toInt then some (none, s)
  else
    let c := c.bounded s.parms
    let s := needFshash s
    let (fp, isNew, s) := if c.head.schedNr ≠ 0 then findOrNewFs s i else (s.findFs i, false, s)
    match fp with
    | none => some (none, s)
    | some fp =>
      let c := c.inherit (s.fsk fp).fs
      if (s.fsk fp).fs = c then some (some fp, s)
      else do
        let s := if isNew then { s with id := s.id + 1 } else s
        let s ← changeFs s fp c
        pure (some fp, s)

/-! ### Schedulers -/

/-- `find_sched_type`. -/
def findSchedType (s : Dn) (type : BitVec 8) (name : List Char) : Option SchedType :=
  s.schedlist.find? fun d =>
    decide (BitVec.ofNat 8 d.type = type ∨ d.name.map Char.toLower = name.map Char.toLower)

/-- What `config_sched` keeps while it goes round: the number, the request, the link and the header
of the profile of a scheduler that is replaced, and for the command `pipe` the mask, the buckets
and the flags for the FIFO twin. -/
structure SchedJob where
  i : BitVec 32
  sch : DnSch
  p : DnLink
  pf : Option DnProfile
  pipe : Option (FlowId × BitVec 32 × BitVec 32)

/-- The table `schedhash`, which is made for the first scheduler. -/
def needSchedhash (s : Dn) : Dn :=
  match s.schedhash with
  | some _ => s
  | none =>
    let (ok, s) := s.malloc
    { s with schedhash := dnHtInit ok s.parms.hashSize.toInt }

/-- `dn_ht_find` in `schedhash` with `DNHT_INSERT`. -/
def findOrNewSched (s : Dn) (i : BitVec 32) (sch : DnSch) : Option SchkPtr × Dn :=
  match s.schedhash with
  | none => (none, s)
  | some ht =>
    match s.findSched i with
    | some sp => (some sp, s)
    | none =>
      match schkNew s sch with
      | (none, s) => (none, s)
      | (some sp, s) => (some sp, { s with schedhash := some (ht.insert (nrHash i) sp) })

/-- The link of the scheduler that was replaced goes to the new one. With a profile for that link
the code reads the profile of the new scheduler, which has none. -/
def restoreLink (s : Dn) (sp : SchkPtr) (j : SchedJob) : Option Dn :=
  if j.p.linkNr = 0 then some s
  else if j.pf.any fun pf => pf.linkNr = j.p.linkNr then none
  else some (s.setSchk sp { s.schk sp with link := j.p, profile := none })

/-- The copy that `config_sched` makes of the profile of a scheduler that it replaces: the
header. -/
def saveProfile (s : Dn) (sp : SchkPtr) (pf : Option DnProfile) : Option DnProfile × Dn :=
  match (s.schk sp).profile with
  | none => (pf, s)
  | some pr =>
    match pf with
    | some _ => (some pr, s)
    | none =>
      let (ok, s) := s.malloc
      (if ok then some pr else none, s)

/-- The part of `config_sched` that makes the internal flowset of a scheduler with one queue. The
first result is `false` on failure. -/
def internalFs (s : Dn) (sp : SchkPtr) (kind : SchedType) (i : BitVec 32) : Option (Bool × Dn) :=
  if kind.multiqueue ∨ (s.schk sp).fs.isSome then some (true, s)
  else
    match s.findFs i with
    | some fp => some (true, s.setSchk sp { s.schk sp with fs := some fp })
    | none => do
      let c : FsConfig := ⟨{
          oid := { type := 2, len := sizeofFs }
          fsNr := i + dnMaxId
          schedNr := i }, zeroFs⟩
      let (fp, s) ← configFs s c
      let s := s.setSchk sp { s.schk sp with fs := fp }
      if fp.isSome then pure (true, s)
      else do
        let s ← schkDeleteCb s sp
        pure (false, s)

/-- The request for the FIFO twin, at the label `next`. -/
def SchedJob.twin (j : SchedJob) : SchedJob :=
  let sch := match j.pipe with
    | none => j.sch
    | some (mask, buckets, flags) =>
      { j.sch with schedMask := mask, buckets := buckets, flags := flags }
  let i := j.i + dnMaxId
  { j with
    i := i
    sch := { sch with schedNr := i, oid := { sch.oid with subtype := 1 }, name := [] } }

/-- What `config_sched` does after one scheduler is complete: the error number, or the request for
the twin. -/
def SchedJob.next (s : Dn) (j : SchedJob) : ℕ ⊕ SchedJob :=
  if j.i.toInt < dnMaxId.toInt then
    if j.pipe.isNone ∧ (s.findSched (j.i + dnMaxId)).isSome then .inl 0 else .inr j.twin
  else .inl 0

/-- `config_sched` from the lookup of the scheduler on: the error number, or the request with
which it goes round. -/
def configSchedAt (s : Dn) (sp : SchkPtr) (kind : SchedType) (j : SchedJob) :
    Option ((ℕ ⊕ SchedJob) × Dn) := do
  let s ← restoreLink s sp j
  let j := { j with p := { j.p with linkNr := 0 } }
  let x := s.schk sp
  if x.fp.isSome ∧ (x.fp ≠ some kind ∨ x.sch ≠ j.sch) then do
    -- the scheduler is replaced, with the link kept
    let (pf, s) := saveProfile s sp j.pf
    let s := { s with schedhash := s.schedhash.map fun ht => ht.remove sp }
    let s ← schkDeleteCb s sp
    pure (.inr { j with p := x.link, pf := pf }, s)
  else do
    let s := s.setSchk sp { x with sch := j.sch, fp := some kind }
    let (ok, s) ← internalFs s sp kind j.i
    if !ok then pure (.inl enomem, s)
    else do
      let s ← updateFs s sp
      pure (j.next s, s)

/-- One round of `config_sched` from the label `again`. -/
def configSchedRound (s : Dn) (j : SchedJob) : Option ((ℕ ⊕ SchedJob) × Dn) :=
  let s := { s with id := s.id + 1 }
  let normal := fun (kind : SchedType) => { j with
    sch := { j.sch with
      oid := { j.sch.oid with subtype := BitVec.ofNat 8 kind.type }
      name := kind.name } }
  match findSchedType s j.sch.oid.subtype j.sch.name with
  | some kind =>
    let (sp, s) := findOrNewSched s j.i j.sch
    match sp with
    | none => some (.inl enomem, s)
    | some sp => configSchedAt s sp kind (normal kind)
  | none =>
    if j.sch.oid.subtype = 0 ∧ j.sch.name = [] then
      match s.findSched j.i with
      | some sp =>
        if j.pipe.isSome then some (j.next s, s)
        else (s.schk sp).fp.bind fun kind => configSchedAt s sp kind (normal kind)
      | none =>
        let sch := if j.pipe.isSome then
            { j.sch with schedMask := {}, buckets := 0, flags := j.sch.flags &&& ~~~dnHaveMask }
          else j.sch
        some (.inr { j with sch := { sch with oid := { sch.oid with subtype := 2 } } }, s)
    else some (.inl einval, s)

/-- The request with the algorithm that it asks for filled in. -/
def SchedJob.normal (j : SchedJob) (kind : SchedType) : SchedJob :=
  { j with
    sch := { j.sch with
      oid := { j.sch.oid with subtype := BitVec.ofNat 8 kind.type }
      name := kind.name } }

/-- The request for the default algorithm. With the command `pipe` it has no mask. -/
def SchedJob.wf2q (j : SchedJob) : SchedJob :=
  let sch := if j.pipe.isSome then
      { j.sch with schedMask := {}, buckets := 0, flags := j.sch.flags &&& ~~~dnHaveMask }
    else j.sch
  { j with sch := { sch with oid := { sch.oid with subtype := 2 } } }

/-- The state with a new configuration number. -/
def Dn.nextId (s : Dn) : Dn := { s with id := s.id + 1 }

/-- What one round does: without memory it fails; it comes to a scheduler that is found or made for
an algorithm that is known, or to one that exists if no algorithm is given; with the command `pipe`
it leaves that one alone; it asks for the default algorithm; or it fails because the algorithm is not
known. -/
inductive RoundCase (s : Dn) (j : SchedJob) : ℕ ⊕ SchedJob → Dn → Prop
  | noMemory {kind : SchedType} {t : Dn} :
      findSchedType s j.sch.oid.subtype j.sch.name = some kind →
      findOrNewSched s.nextId j.i j.sch = (none, t) → RoundCase s j (.inl enomem) t
  | known {kind : SchedType} {sp : SchkPtr} {v t : Dn} {r : ℕ ⊕ SchedJob} :
      findSchedType s j.sch.oid.subtype j.sch.name = some kind →
      findOrNewSched s.nextId j.i j.sch = (some sp, v) →
      configSchedAt v sp kind (j.normal kind) = some (r, t) → RoundCase s j r t
  | pipe {sp : SchkPtr} : findSchedType s j.sch.oid.subtype j.sch.name = none →
      s.findSched j.i = some sp → j.pipe.isSome → RoundCase s j (j.next s.nextId) s.nextId
  | old {kind : SchedType} {sp : SchkPtr} {t : Dn} {r : ℕ ⊕ SchedJob} :
      findSchedType s j.sch.oid.subtype j.sch.name = none →
      j.sch.oid.subtype = 0 ∧ j.sch.name = [] → s.findSched j.i = some sp → j.pipe = none →
      (s.schk sp).fp = some kind →
      configSchedAt s.nextId sp kind (j.normal kind) = some (r, t) → RoundCase s j r t
  | default : findSchedType s j.sch.oid.subtype j.sch.name = none → s.findSched j.i = none →
      RoundCase s j (.inr j.wf2q) s.nextId
  | unknown : findSchedType s j.sch.oid.subtype j.sch.name = none →
      RoundCase s j (.inl einval) s.nextId

/-- **One round of `config_sched`** is one of these cases. -/
theorem configSchedRound_cases {s t : Dn} {j : SchedJob} {r : ℕ ⊕ SchedJob}
    (h : configSchedRound s j = some (r, t)) : RoundCase s j r t := by
  unfold configSchedRound at h
  dsimp only at h
  split at h
  · next kind hkind =>
    obtain ⟨o, v, hv⟩ : ∃ o v, findOrNewSched s.nextId j.i j.sch = (o, v) := ⟨_, _, rfl⟩
    rw [show ({ s with id := s.id + 1 } : Dn) = s.nextId from rfl, hv] at h
    cases o with
    | none =>
      obtain ⟨rfl, rfl⟩ := Prod.mk.inj (Option.some.inj h)
      exact .noMemory hkind hv
    | some sp => exact .known hkind hv h
  · next hnone =>
    split at h
    · next hempty =>
      split at h
      · next sp hfind =>
        split at h
        · next hpipe =>
          obtain ⟨rfl, rfl⟩ := Prod.mk.inj (Option.some.inj h)
          exact .pipe hnone hfind hpipe
        · next hpipe =>
          obtain ⟨kind, hkind, h⟩ := Option.bind_eq_some_iff.1 h
          exact .old hnone hempty hfind (by simpa using hpipe) hkind h
      · next hfree =>
        obtain ⟨rfl, rfl⟩ := Prod.mk.inj (Option.some.inj h)
        exact .default hnone hfree
    · obtain ⟨rfl, rfl⟩ := Prod.mk.inj (Option.some.inj h)
      exact .unknown hnone

/-- `config_sched` from the label `again`. It goes round for the default type, for a scheduler that
is replaced and for the twin. -/
def configSchedLoop : ℕ → Dn → SchedJob → Option (ℕ × Dn)
  | 0, _, _ => none
  | n + 1, s, j => do
    let (r, s) ← configSchedRound s j
    match r with
    | .inl err => pure (err, s)
    | .inr j => configSchedLoop n s j

/-- `config_sched`. -/
def configSched (s : Dn) (sch : DnSch) : Option (ℕ × Dn) :=
  let i := sch.schedNr
  if sch.oid.len ≠ sizeofSch ∨ i.toInt ≤ 0 ∨ dnMaxId.toInt ≤ i.toInt then some (einval, s)
  else
    let buckets := if sch.flags &&& dnHaveMask ≠ 0 then
        boundWord sch.buckets s.parms.hashSize.toInt 1 s.parms.maxHashSize.toInt
      else sch.buckets
    let isPipe := sch.flags &&& dnPipeCmd ≠ 0
    let sch := { sch with buckets := buckets, flags := sch.flags &&& ~~~dnPipeCmd }
    configSchedLoop 8 (needSchedhash s) {
      i := i
      sch := sch
      p := {}
      pf := none
      pipe := if isPipe then some (sch.schedMask, sch.buckets, sch.flags) else none }

/-! ### Profiles -/

/-- The profile of a link after a new one was copied over it. -/
def DnProfile.copied (pf old : DnProfile) : DnProfile :=
  let n := (pf.oid.len.toNat - sizeofProfile.toNat) / 4
  { pf with
    oid := { pf.oid with len := if old.oid.len.ult pf.oid.len then pf.oid.len else old.oid.len }
    samples := fun i => if i < n then pf.samples i else old.samples i }

/-- One round of the loop in `config_profile`. The result is `false` without memory. -/
def setProfile (s : Dn) (sp : SchkPtr) (pf : DnProfile) : Bool × Dn :=
  let x := s.schk sp
  let old := x.profile.filter fun old => !(pf.samplesNo = 0 ∨ old.oid.len.ult pf.oid.len)
  if pf.samplesNo = 0 then (true, s.setSchk sp { x with profile := old })
  else
    match old with
    | some old => (true, s.setSchk sp { x with profile := some (pf.copied old) })
    | none =>
      let (ok, s) := s.malloc
      (ok, s.setSchk sp { x with profile := if ok then some (pf.copied {}) else none })

/-- `config_profile`: the profile of a link and the one of its FIFO twin. -/
def configProfile (s : Dn) (pf : DnProfile) : ℕ × Dn :=
  let i := pf.linkNr
  if pf.oid.len.ult sizeofProfile ∨ i.toInt ≤ 0 ∨ dnMaxId.toInt ≤ i.toInt then (einval, s)
  else
    match s.findSched i with
    | none => (einval, s)
    | some sp =>
      match setProfile { s with id := s.id + 1 } sp pf with
      | (false, s) => (enomem, s)
      | (true, s) =>
        match s.findSched (i + dnMaxId) with
        | none => (einval, s)
        | some sp =>
          match setProfile { s with id := s.id + 1 } sp pf with
          | (false, s) => (enomem, s)
          | (true, s) => (0, s)

/-! ### The main handler -/

/-- `dn_ht_scan` of `schedhash` with `schk_delete_cb`. -/
def schkDeleteAll (s : Dn) : List SchkPtr → Option Dn
  | [] => some s
  | sp :: sps => do
    let s ← schkDeleteCb { s with schedhash := s.schedhash.map fun ht => ht.remove sp } sp
    schkDeleteAll s sps

/-- `dummynet_flush`. -/
def dummynetFlush (s : Dn) : Option Dn := do
  let s ← schkDeleteAll s (s.schedhash.elim [] DnHt.ordered)
  let s := { s with fshash := s.fshash.map DnHt.clear }
  let s ← fskDeleteList s s.fsu
  let s := { s with schedhash := s.schedhash.map DnHt.clear }
  let (ok, s) := s.malloc
  pure { s with evheap := (heapInit ok s.evheap 16 4).2 }

/-- The objects of a message, by their type. The argument of a delete command is the number behind
the header. -/
inductive DnObj
  | header (oid : DnId)
  | delete (oid : DnId) (a : BitVec 64)
  | flush (oid : DnId)
  | text (oid : DnId)
  | link (p : DnLink)
  | profile (pf : DnProfile)
  | sch (c : DnSch)
  | fs (c : FsConfig)
  | unknown (oid : DnId)

/-- The header of an object. -/
def DnObj.oid : DnObj → DnId
  | header oid => oid
  | delete oid _ => oid
  | flush oid => oid
  | text oid => oid
  | link p => p.oid
  | profile pf => pf.oid
  | sch c => c.oid
  | fs c => c.head.oid
  | unknown oid => oid

/-- `DN_CMD_DELETE`: the subtype is `DN_LINK` or `DN_FS`. -/
def doDelete (s : Dn) (oid : DnId) (a : BitVec 64) : Option (ℕ × Dn) :=
  if oid.len.ult 16 then some (einval, s)
  else if oid.subtype = 1 then do
    let (err, s) ← deleteSchk s (a.setWidth 32)
    let (err2, s) ← deleteSchk s (a.setWidth 32 + dnMaxId)
    pure (if err = 0 then err2 else err, s)
  else if oid.subtype = 2 then
    if a = 0 ∨ dnMaxId.toNat ≤ a.toNat then some (einval, s) else deleteFs s (a.setWidth 32)
  else some (einval, s)

/-- The `switch` of `do_config`. -/
def doObject (s : Dn) : DnObj → Option (ℕ × Dn)
  | .header _ => some (0, s)
  | .delete oid a => doDelete s oid a
  | .flush _ => (dummynetFlush s).map fun s => (0, s)
  | .text _ => some (0, s)
  | .link p => configLink s p
  | .profile pf => some (configProfile s pf)
  | .sch c => configSched s c
  | .fs c => (configFs s c).map fun r => (if r.1.isSome then 0 else 1, r.2)
  | .unknown _ => some (0, s)

/-- What an object of a message does, one case for each handler. An object that does nothing is not
a delete command for a link. -/
inductive Handled (s : Dn) : DnObj → Dn → Prop
  | skip {o : DnObj} : (∀ oid a, o = .delete oid a → oid.subtype = 1 → oid.len.ult 16) →
      Handled s o s
  | flush {oid : DnId} {t : Dn} : dummynetFlush s = some t → Handled s (.flush oid) t
  | link {p : DnLink} {err : ℕ} {t : Dn} : configLink s p = some (err, t) → Handled s (.link p) t
  | profile {pf : DnProfile} {err : ℕ} {t : Dn} : configProfile s pf = (err, t) →
      Handled s (.profile pf) t
  | sch {c : DnSch} {err : ℕ} {t : Dn} : configSched s c = some (err, t) → Handled s (.sch c) t
  | fs {c : FsConfig} {o : Option FskPtr} {t : Dn} : configFs s c = some (o, t) →
      Handled s (.fs c) t
  | deleteLink {oid : DnId} {a : BitVec 64} {err err' : ℕ} {u t : Dn} : ¬ oid.len.ult 16 →
      oid.subtype = 1 → deleteSchk s (a.setWidth 32) = some (err, u) →
      deleteSchk u (a.setWidth 32 + dnMaxId) = some (err', t) → Handled s (.delete oid a) t
  | deleteFs {oid : DnId} {a : BitVec 64} {err : ℕ} {t : Dn} : oid.subtype = 2 →
      deleteFs s (a.setWidth 32) = some (err, t) → Handled s (.delete oid a) t

/-- **An object of a message** is handled in one of these ways. -/
theorem doObject_handled {s t : Dn} {o : DnObj} {err : ℕ} (h : doObject s o = some (err, t)) :
    Handled s o t := by
  have hskip : ∀ {e e' : ℕ} {o : DnObj}, some (e, s) = some (e', t) →
      (∀ oid a, o = .delete oid a → oid.subtype = 1 → oid.len.ult 16) → Handled s o t := by
    intro e e' o he ho
    obtain ⟨-, rfl⟩ := Prod.mk.inj (Option.some.inj he)
    exact .skip ho
  cases o with
  | header oid => exact hskip h (by simp)
  | text oid => exact hskip h (by simp)
  | unknown oid => exact hskip h (by simp)
  | flush oid =>
    obtain ⟨u, hu, he⟩ := Option.map_eq_some_iff.1 h
    obtain ⟨-, rfl⟩ := Prod.mk.inj he
    exact .flush hu
  | link p => exact .link h
  | profile pf => exact .profile (Option.some.inj h)
  | sch c => exact .sch h
  | fs c =>
    obtain ⟨⟨o, u⟩, hu, he⟩ := Option.map_eq_some_iff.1 h
    obtain ⟨-, rfl⟩ := Prod.mk.inj he
    exact .fs hu
  | delete oid a =>
    change doDelete s oid a = some (err, t) at h
    unfold doDelete at h
    split_ifs at h with hlen hsub hsub' hrange
    · refine hskip h ?_
      rintro _ _ ⟨⟩ -
      exact hlen
    · obtain ⟨⟨err₁, u⟩, hu, h⟩ := Option.bind_eq_some_iff.1 h
      obtain ⟨⟨err₂, v⟩, hv, h⟩ := Option.bind_eq_some_iff.1 h
      obtain ⟨-, rfl⟩ := Prod.mk.inj (Option.some.inj h)
      exact .deleteLink hlen hsub hu hv
    · refine hskip h ?_
      rintro _ _ ⟨⟩ he
      exact absurd he hsub
    · exact .deleteFs hsub' h
    · refine hskip h ?_
      rintro _ _ ⟨⟩ he
      exact absurd he hsub

/-- The loop of `do_config` over the objects of a message of `l` bytes. -/
def doObjects : List DnObj → ℕ → Dn → Option (ℕ × Dn)
  | [], _, s => some (0, s)
  | o :: os, l, s =>
    if l < 8 then some (0, s)
    else if o.oid.len.toNat < 8 ∨ l < o.oid.len.toNat then some (einval, s)
    else do
      let (err, s) ← doObject s o
      if err ≠ 0 then pure (err, s) else doObjects os (l - o.oid.len.toNat) s

/-- `DN_API_VERSION`. -/
def dnApiVersion : BitVec 32 := 12500000

/-- `do_config`. -/
def doConfig (s : Dn) (os : List DnObj) (l : ℕ) : Option (ℕ × Dn) :=
  match os with
  | [] => some (0, s)
  | o :: _ => if o.oid.id ≠ dnApiVersion then some (einval, s) else doObjects os l s

end Dummynet
