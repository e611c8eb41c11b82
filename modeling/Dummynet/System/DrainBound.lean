import Dummynet.System.Reach
import Dummynet.System.Drain

/-!
# How much a drain pass examines

A pass of `dn_drain_queue` or `dn_drain_scheduler` counts in the variable `arg` of its caller the
objects that its callbacks examine, and the callbacks end the scan when the count is over
`expire_object_examined`. As they count with `*arg++`, which reads the count and moves their own copy of
the pointer, no scan is ended.

## Main definitions

* `Drain`: a pass, with its count and the number of the calls.
* `drainCall`, `drainScan`: a callback, and the scan of a bucket.
* `drainQueuePass`, `drainSchedulerPass`: the passes.
* `Drain.Bounded`: a pass examines no more than it should.

## Main results

* `drainQueuePass_eq`, `drainSchedulerPass_eq`: the passes are never ended.
* `drain_bounded_iff`: a pass is bounded exactly if there is so little in the bucket.
-/

namespace Dummynet

variable {α : Type} {limit : BitVec 32} {s t : Dn} {fp : FskPtr} {sp : SchkPtr}

/-- A pass: the variable `arg`, and how often a callback was called. -/
structure Drain where
  dn : Dn
  arg : BitVec 32 := 0
  calls : ℕ := 0

/-- `(*arg++) > dn_cfg.expire_object_examined`: what `arg` points to is not changed. -/
def Drain.over (z : Drain) (limit : BitVec 32) : Bool := limit.ult z.arg

/-- The callback for an object, which does `f`. The result is `true` for `DNHT_SCAN_END`. -/
def drainCall (limit : BitVec 32) (f : Dn → α → Option Dn) (z : Drain) (a : α) :
    Option (Bool × Drain) :=
  let z := { z with calls := z.calls + 1 }
  if z.over limit then some (true, z) else (f z.dn a).map fun s => (false, { z with dn := s })

/-- The callback for an object that holds others, which are examined by `f`. -/
def drainOuter (limit : BitVec 32) (f : Drain → α → Option Drain) (z : Drain) (a : α) :
    Option (Bool × Drain) :=
  (f { z with calls := z.calls + 1 } a).map fun z => (z.over limit, z)

/-- `dn_ht_scan_bucket`, with the objects that are left if the scan was ended. -/
def drainScan (cb : Drain → α → Option (Bool × Drain)) :
    List α → Drain → Option (Option (List α) × Drain)
  | [], z => some (none, z)
  | a :: as, z =>
    (cb z a).bind fun r => if r.1 then some (some as, r.2) else drainScan cb as r.2

/-- `ht[i]` points to the object before those that are left, which come first in the next scan. -/
def DnHt.hold [DecidableEq α] (ht : DnHt α) (i : ℕ) (rest : List α) : DnHt α :=
  { ht with objs := ht.objs.filter (fun e => decide (e.1 = i ∧ e.2 ∈ rest)) ++
      ht.objs.filter fun e => !decide (e.1 = i ∧ e.2 ∈ rest) }

/-- The table that a pointer points to is held. -/
def Objs.hold [DecidableEq α] (p : Objs α) (i : ℕ) (rest : List α) : Objs α :=
  match p with
  | .table ht => .table (ht.hold i rest)
  | p => p

/-! ### Queues -/

/-- `drain_queue_fs_cb` on the queues of a flowset. -/
def drainQueueFs (limit : BitVec 32) (z : Drain) (fp : FskPtr) : Option Drain :=
  let f := z.dn.fsk fp
  let cb := drainCall limit (drainQueueCb fp)
  if f.data.fs.flags &&& dnQhtHash ≠ 0 then
    match f.qht with
    | .null => some z
    | .one _ => none
    | .table ht =>
      let i := ht.scanBucket f.drainBucket
      let z := { z with dn := z.dn.setFsk fp { f with drainBucket := BitVec.ofNat 32 (i + 1) } }
      (drainScan cb (ht.chain i) z).map fun (rest, z) =>
        match rest with
        | none => z
        | some rest =>
          let f := z.dn.fsk fp
          let f := { f with drainBucket := BitVec.ofNat 32 i, qht := f.qht.hold i rest }
          { z with dn := z.dn.setFsk fp f }
  else
    match f.qht with
    | .null => some z
    | .one a => (cb z a).map Prod.snd
    | .table _ => none

/-- `dn_drain_queue`. The result has the flowsets that are left if the scan was ended. -/
def drainQueuePass (limit : BitVec 32) (s : Dn) : Option (Option (List FskPtr) × Drain) :=
  match s.fshash with
  | none => some (none, { dn := s })
  | some ht =>
    let i := ht.scanBucket s.drainFs
    (drainScan (drainOuter limit (drainQueueFs limit)) (ht.chain i)
      { dn := { s with drainFs := BitVec.ofNat 32 (i + 1) } }).map fun (rest, z) =>
        match rest with
        | none => (none, z)
        | some rest =>
          let fshash := z.dn.fshash.map fun ht => ht.hold i rest
          (some rest, { z with dn := { z.dn with drainFs := BitVec.ofNat 32 i, fshash := fshash } })

/-- The queues in the bucket of a flowset that is scanned next. -/
def Fsk.drainQueues (f : Fsk) : ℕ :=
  if f.data.fs.flags &&& dnQhtHash ≠ 0 then
    match f.qht with
    | .table ht => (ht.chain (ht.scanBucket f.drainBucket)).length
    | _ => 0
  else
    match f.qht with
    | .one _ => 1
    | _ => 0

/-- The flowsets in the bucket that is scanned next. -/
def Dn.nextFs (s : Dn) : List FskPtr :=
  match s.fshash with
  | none => []
  | some ht => ht.chain (ht.scanBucket s.drainFs)

/-- The flowsets in the bucket that is scanned next, with their queues. -/
def Dn.queuePassSize (s : Dn) : ℕ := (s.nextFs.map fun fp => 1 + (s.fsk fp).drainQueues).sum

/-! ### Scheduler instances -/

/-- `drain_scheduler_sch_cb` on the instances of a scheduler. -/
def drainSchedulerSch (limit : BitVec 32) (z : Drain) (sp : SchkPtr) : Option Drain :=
  let sch := z.dn.schk sp
  let cb := drainCall limit (drainSchedulerCb sp)
  if sch.sch.flags &&& dnHaveMask ≠ 0 then
    match sch.siht with
    | .null => some z
    | .one _ => none
    | .table ht =>
      let i := ht.scanBucket sch.drainBucket
      let s := z.dn.setSchk sp { sch with drainBucket := BitVec.ofNat 32 (i + 1) }
      let z := { z with dn := s }
      (drainScan cb (ht.chain i) z).map fun (rest, z) =>
        match rest with
        | none => z
        | some rest =>
          let sch := z.dn.schk sp
          let sch := { sch with drainBucket := BitVec.ofNat 32 i, siht := sch.siht.hold i rest }
          { z with dn := z.dn.setSchk sp sch }
  else
    match sch.siht with
    | .null => some z
    | .one p => (cb z p).map Prod.snd
    | .table _ => none

/-- `dn_drain_scheduler`. The result has the schedulers that are left if the scan was ended. -/
def drainSchedulerPass (limit : BitVec 32) (s : Dn) : Option (Option (List SchkPtr) × Drain) :=
  match s.schedhash with
  | none => some (none, { dn := s })
  | some ht =>
    let i := ht.scanBucket s.drainSch
    (drainScan (drainOuter limit (drainSchedulerSch limit)) (ht.chain i)
      { dn := { s with drainSch := BitVec.ofNat 32 (i + 1) } }).map fun (rest, z) =>
        match rest with
        | none => (none, z)
        | some rest =>
          let schedhash := z.dn.schedhash.map fun ht => ht.hold i rest
          (some rest, { z with dn := { z.dn with drainSch := BitVec.ofNat 32 i, schedhash := schedhash } })

/-- The instances in the bucket of a scheduler that is scanned next. -/
def Schk.drainInsts (sch : Schk) : ℕ :=
  if sch.sch.flags &&& dnHaveMask ≠ 0 then
    match sch.siht with
    | .table ht => (ht.chain (ht.scanBucket sch.drainBucket)).length
    | _ => 0
  else
    match sch.siht with
    | .one _ => 1
    | _ => 0

/-- The schedulers in the bucket that is scanned next. -/
def Dn.nextSched (s : Dn) : List SchkPtr :=
  match s.schedhash with
  | none => []
  | some ht => ht.chain (ht.scanBucket s.drainSch)

/-- The schedulers in the bucket that is scanned next, with their instances. -/
def Dn.instPassSize (s : Dn) : ℕ := (s.nextSched.map fun sp => 1 + (s.schk sp).drainInsts).sum

/-- What a pass should examine: at most two objects more than the limit, ending the scan then and
starting the next one with the objects that are left. -/
structure Drain.Bounded (limit : BitVec 32) (next : Dn → List α) (r : Option (List α) × Drain) :
    Prop where
  calls : r.2.calls ≤ limit.toNat + 2
  ended : limit.toNat + 1 < r.2.calls → r.1.isSome
  resumes : ∀ rest, r.1 = some rest → rest <+: next r.2.dn

/-- The objects of a table are linked through one field, so that each is in one bucket, once. -/
def Linked (ht : Option (DnHt α)) : Prop := ∀ x, ht = some x → (x.objs.map Prod.snd).Nodup

/-! ### The count stays 0 -/

theorem not_over_zero (z : Drain) (h : z.arg = 0) : z.over limit = false := by
  rw [Drain.over, h]
  simp [BitVec.ult]

/-- No callback for an object ends the scan. -/
theorem drainCall_eq (f : Dn → α → Option Dn) (s : Dn) (n : ℕ) (a : α) :
    drainCall limit f ⟨s, 0, n⟩ a = (f s a).map fun t => (false, ⟨t, 0, n + 1⟩) := by
  unfold drainCall
  dsimp only
  rw [not_over_zero _ rfl]
  rfl

/-- A scan whose callbacks do not end it is a fold over the bucket, and the calls add up. The number of
calls for an object does not depend on what was done to the objects before. -/
theorem drainScan_eq {cb : Drain → α → Option (Bool × Drain)} {f : Dn → α → Option Dn}
    {w : Dn → α → ℕ}
    (hcb : ∀ s n a, cb ⟨s, 0, n⟩ a = (f s a).map fun t => (false, ⟨t, 0, n + w s a⟩)) {l : List α}
    (hw : l.Pairwise fun a b => ∀ s t, f s a = some t → w t b = w s b) (s : Dn) (n : ℕ) :
    drainScan cb l ⟨s, 0, n⟩ =
      (l.foldlM f s).map fun t => (none, ⟨t, 0, n + (l.map (w s)).sum⟩) := by
  induction l generalizing s n with
  | nil => rfl
  | cons a l ih =>
    obtain ⟨ha, hl⟩ := List.pairwise_cons.1 hw
    rw [drainScan, hcb, List.foldlM_cons]
    cases hf : f s a with
    | none => rfl
    | some t =>
      have hsum : l.map (w t) = l.map (w s) := List.map_congr_left fun b hb => ha b hb s t hf
      have hrest := ih hl t (n + w s a)
      rw [hsum] at hrest
      rw [List.map_cons, List.sum_cons, ← Nat.add_assoc]
      exact hrest

theorem pairwise_of_const {l : List α} {P : α → α → Prop} (h : ∀ a b, P a b) : l.Pairwise P :=
  List.Pairwise.imp (fun {a b} (_ : True) => h a b) (by induction l <;> simp_all)

/-- The scan of a bucket of objects. -/
theorem drainScan_call_eq (f : Dn → α → Option Dn) (l : List α) (s : Dn) (n : ℕ) :
    drainScan (drainCall limit f) l ⟨s, 0, n⟩ =
      (l.foldlM f s).map fun t => (none, ⟨t, 0, n + l.length⟩) := by
  have hcall : ∀ s n a, drainCall limit f ⟨s, 0, n⟩ a = (f s a).map fun t => (false, ⟨t, 0, n + 1⟩) :=
    drainCall_eq f
  have hscan := drainScan_eq (w := fun _ _ => 1) hcall (l := l) (pairwise_of_const fun _ _ _ _ _ => rfl) s n
  rwa [List.map_const', List.sum_replicate, smul_eq_mul, mul_one] at hscan

/-! ### One flowset, one scheduler -/

/-- A flowset is examined, and then the queues in its next bucket. -/
theorem drainQueueFs_eq (s : Dn) (n : ℕ) (fp : FskPtr) :
    drainOuter limit (drainQueueFs limit) ⟨s, 0, n⟩ fp =
      (drainQueueFsCb s fp).map fun t => (false, ⟨t, 0, n + (1 + (s.fsk fp).drainQueues)⟩) := by
  unfold drainOuter drainQueueFs drainQueueFsCb Fsk.drainQueues
  dsimp only
  split_ifs with hhash
  · cases (s.fsk fp).qht with
    | null => simp [not_over_zero]
    | one a => rfl
    | table ht =>
      simp only [drainScan_call_eq, Option.map_map, Function.comp_def]
      refine congrArg (Option.map · _) (funext fun t => ?_)
      rw [not_over_zero _ rfl, Nat.add_assoc]
  · cases (s.fsk fp).qht with
    | null => simp [not_over_zero]
    | one a =>
      simp only [drainCall_eq, Option.map_map, Function.comp_def]
      refine congrArg (Option.map · _) (funext fun t => ?_)
      rw [not_over_zero _ rfl, Nat.add_assoc]
    | table ht => rfl

/-- A scheduler is examined, and then the instances in its next bucket. -/
theorem drainSchedulerSch_eq (s : Dn) (n : ℕ) (sp : SchkPtr) :
    drainOuter limit (drainSchedulerSch limit) ⟨s, 0, n⟩ sp =
      (drainSchedulerSchCb s sp).map fun t =>
        (false, ⟨t, 0, n + (1 + (s.schk sp).drainInsts)⟩) := by
  unfold drainOuter drainSchedulerSch drainSchedulerSchCb Schk.drainInsts
  dsimp only
  split_ifs with hmask
  · cases (s.schk sp).siht with
    | null => simp [not_over_zero]
    | one a => rfl
    | table ht =>
      simp only [drainScan_call_eq, Option.map_map, Function.comp_def]
      refine congrArg (Option.map · _) (funext fun t => ?_)
      rw [not_over_zero _ rfl, Nat.add_assoc]
  · cases (s.schk sp).siht with
    | null => simp [not_over_zero]
    | one a =>
      simp only [drainCall_eq, Option.map_map, Function.comp_def]
      refine congrArg (Option.map · _) (funext fun t => ?_)
      rw [not_over_zero _ rfl, Nat.add_assoc]
    | table ht => rfl

/-! ### Other flowsets, other schedulers -/

theorem drainQueueCb_fsk {a : QAddr} (h : drainQueueCb fp s a = some t) :
    ∀ fp', fp' ≠ fp → t.fsk fp' = s.fsk fp' := by
  intro fp' hne
  unfold drainQueueCb at h
  dsimp only at h
  split_ifs at h
  · obtain ⟨⟨kept, u⟩, hu, h⟩ := Option.bind_eq_some_iff.1 h
    obtain rfl := Option.some.inj h
    obtain ⟨x, -, hu⟩ := Option.bind_eq_some_iff.1 hu
    obtain ⟨x, -, hu⟩ := Option.bind_eq_some_iff.1 hu
    obtain ⟨r, -, rfl⟩ := callback_spec hu
    cases kept with
    | true => rfl
    | false => exact Function.update_of_ne hne ..
  · obtain rfl := Option.some.inj h
    rfl
  · obtain rfl := Option.some.inj h
    rfl

/-- The queues of a flowset are drained without a look at other flowsets. -/
theorem drainQueueFsCb_fsk (h : drainQueueFsCb s fp = some t) :
    ∀ fp', fp' ≠ fp → t.fsk fp' = s.fsk fp' := by
  unfold drainQueueFsCb at h
  dsimp only at h
  split at h
  · split at h
    · obtain rfl := Option.some.inj h
      exact fun _ _ => rfl
    · exact absurd h (by simp)
    · intro fp' hne
      rw [foldlM_rel (R := fun s t : Dn => ∀ fp', fp' ≠ fp → t.fsk fp' = s.fsk fp')
        (fun _ _ _ => rfl) (fun h h' p hp => (h' p hp).trans (h p hp)) drainQueueCb_fsk h fp' hne]
      exact Function.update_of_ne hne ..
  · split at h
    · obtain rfl := Option.some.inj h
      exact fun _ _ => rfl
    · exact drainQueueCb_fsk h
    · exact absurd h (by simp)

theorem drainSchedulerCb_schk {p : SiPtr} (h : drainSchedulerCb sp s p = some t) :
    ∀ sp', sp' ≠ sp → t.schk sp' = s.schk sp' := by
  intro sp' hne
  unfold drainSchedulerCb at h
  dsimp only at h
  split_ifs at h
  · obtain rfl := Option.some.inj h
    rfl
  · obtain ⟨u, hu, h⟩ := Option.bind_eq_some_iff.1 h
    obtain rfl := Option.some.inj h
    obtain ⟨ev, pos, rfl⟩ := siDestroy_spec hu
    exact Function.update_of_ne hne ..
  · obtain rfl := Option.some.inj h
    rfl
  · obtain rfl := Option.some.inj h
    rfl

/-- The instances of a scheduler are drained without a look at other schedulers. -/
theorem drainSchedulerSchCb_schk (h : drainSchedulerSchCb s sp = some t) :
    ∀ sp', sp' ≠ sp → t.schk sp' = s.schk sp' := by
  unfold drainSchedulerSchCb at h
  dsimp only at h
  split at h
  · split at h
    · obtain rfl := Option.some.inj h
      exact fun _ _ => rfl
    · exact absurd h (by simp)
    · intro sp' hne
      rw [foldlM_rel (R := fun s t : Dn => ∀ sp', sp' ≠ sp → t.schk sp' = s.schk sp')
        (fun _ _ _ => rfl) (fun h h' p hp => (h' p hp).trans (h p hp)) drainSchedulerCb_schk h sp'
        hne]
      exact Function.update_of_ne hne ..
  · split at h
    · obtain rfl := Option.some.inj h
      exact fun _ _ => rfl
    · exact drainSchedulerCb_schk h
    · exact absurd h (by simp)

/-! ### The passes -/

theorem Linked.chain {x : DnHt α} (h : Linked (some x)) (i : Fin (x.buckets + 1)) :
    (x.chain i).Nodup :=
  (h x rfl).sublist (List.filter_sublist.map Prod.snd)

/-- **A pass over flowsets is never ended**, and examines all that there is in the bucket. -/
theorem drainQueuePass_eq (h : Linked s.fshash) :
    drainQueuePass limit s =
      (dnDrainQueue s).map fun t => (none, { dn := t, calls := s.queuePassSize }) := by
  unfold drainQueuePass dnDrainQueue Dn.queuePassSize Dn.nextFs
  cases hht : s.fshash with
  | none => rfl
  | some ht =>
    rw [hht] at h
    dsimp only
    rw [drainScan_eq (fun s n fp => drainQueueFs_eq s n fp)
      ((h.chain _).imp fun {a b} hab s t ht => by rw [drainQueueFsCb_fsk ht b hab.symm])]
    simp only [Option.map_map, Function.comp_def, Nat.zero_add]

/-- **A pass over schedulers is never ended**, and examines all that there is in the bucket. -/
theorem drainSchedulerPass_eq (h : Linked s.schedhash) :
    drainSchedulerPass limit s =
      (dnDrainScheduler s).map fun t => (none, { dn := t, calls := s.instPassSize }) := by
  unfold drainSchedulerPass dnDrainScheduler Dn.instPassSize Dn.nextSched
  cases hht : s.schedhash with
  | none => rfl
  | some ht =>
    rw [hht] at h
    dsimp only
    rw [drainScan_eq (fun s n sp => drainSchedulerSch_eq s n sp)
      ((h.chain _).imp fun {a b} hab s t ht => by rw [drainSchedulerSchCb_schk ht b hab.symm])]
    simp only [Option.map_map, Function.comp_def, Nat.zero_add]

/-- A pass that is not ended is bounded if it does not reach the limit. -/
theorem bounded_none_iff {next : Dn → List α} {n : ℕ} :
    Drain.Bounded limit next (none, { dn := t, calls := n }) ↔ n ≤ limit.toNat + 1 := by
  constructor
  · intro h
    by_contra hn
    exact absurd (h.ended (not_le.1 hn)) (by simp)
  · intro hn
    exact ⟨hn.trans (Nat.le_succ _), fun h => absurd hn (not_le.2 h), fun _ h => absurd h (by simp)⟩

/-- **How much a pass examines**: the limit holds exactly if there is no more in the bucket. -/
theorem drain_bounded_iff (limit : BitVec 32) (s : Dn) (hfs : Linked s.fshash)
    (hsch : Linked s.schedhash) :
    (∀ r, drainQueuePass limit s = some r →
      (Drain.Bounded limit Dn.nextFs r ↔ s.queuePassSize ≤ limit.toNat + 1)) ∧
    ∀ r, drainSchedulerPass limit s = some r →
      (Drain.Bounded limit Dn.nextSched r ↔ s.instPassSize ≤ limit.toNat + 1) := by
  constructor
  · intro r hr
    rw [drainQueuePass_eq hfs] at hr
    obtain ⟨t, -, rfl⟩ := Option.map_eq_some_iff.1 hr
    exact bounded_none_iff
  · intro r hr
    rw [drainSchedulerPass_eq hsch] at hr
    obtain ⟨t, -, rfl⟩ := Option.map_eq_some_iff.1 hr
    exact bounded_none_iff

/-- A request for a flowset of a scheduler that is not there. -/
def fsOf1 (i : BitVec 32) : FsConfig where
  head := { oid := { len := sizeofFs, type := 2 }, fsNr := i, schedNr := 1 }

/-- The state after requests for the given flowsets. -/
def flowsets (l : List (BitVec 32)) : Option Dn :=
  l.foldlM (fun s i => (doObject s (.fs (fsOf1 i))).map Prod.snd) (Dn.init {} [.fifo])

theorem reach_flowsets {l : List (BitVec 32)} (h : flowsets l = some s) :
    Dn.Reach {} [.fifo] s := by
  refine foldlM_rel (R := fun s t => Dn.Reach {} [.fifo] s → Dn.Reach {} [.fifo] t) (fun _ => id)
    (fun h h' => h' ∘ h) (fun {s i t} h hs => ?_) h .init
  obtain ⟨r, hr, rfl⟩ := Option.map_eq_some_iff.1 h
  exact .object hs hr

/-- One flowset is within the limit. -/
theorem drain_bounded_one : ∃ s r, flowsets [136] = some s ∧ drainQueuePass 10 s = some r ∧
    Drain.Bounded 10 Dn.nextFs r := by
  have hexec : (flowsets [136]).any (fun s =>
      (match s.fshash with
        | none => true
        | some x => decide (x.objs.map Prod.snd).Nodup) &&
      s.schedhash.isNone && decide (s.queuePassSize = 1) && (drainQueuePass 10 s).isSome) = true := by
    decide +kernel
  obtain ⟨s, hs, hall⟩ := (Option.any_eq_true _ _).1 hexec
  simp only [Bool.and_eq_true, decide_eq_true_eq, Option.isNone_iff_eq_none] at hall
  obtain ⟨⟨⟨hfs, hsch⟩, hsize⟩, hsome⟩ := hall
  obtain ⟨r, hr⟩ := Option.isSome_iff_exists.1 hsome
  have hlinked : Linked s.fshash := by
    intro x hx
    rw [hx] at hfs
    exact of_decide_eq_true hfs
  have hiff := (drain_bounded_iff 10 s hlinked (by rw [hsch]; exact fun _ h => absurd h (by simp))).1
    r hr
  exact ⟨s, r, hs, hr, hiff.2 (by rw [hsize]; decide)⟩

/-- Thirteen flowsets whose numbers are in the first bucket are all examined in one pass, with 10
as the limit. -/
theorem not_drain_bounded : ¬ ∀ (limit : BitVec 32) (parms : DnParms) (schedlist : List SchedType)
    (s : Dn), Dn.Reach parms schedlist s → ∀ r, drainQueuePass limit s = some r →
      Drain.Bounded limit Dn.nextFs r := by
  intro h
  have hexec : (flowsets [136, 272, 408, 544, 680, 816, 952, 1088, 1224, 1360, 1496, 1632,
      1768]).any (fun s => (drainQueuePass 10 s).any fun r => decide (12 < r.2.calls)) = true := by
    decide +kernel
  obtain ⟨s, hs, hany⟩ := (Option.any_eq_true _ _).1 hexec
  obtain ⟨r, hr, hcalls⟩ := (Option.any_eq_true _ _).1 hany
  exact absurd (h 10 _ _ s (reach_flowsets hs) r hr).calls
    (not_le.2 (of_decide_eq_true hcalls))

end Dummynet
